import NeslPru.PruClockSync
import NeslPru.TimeSyncReceive

/-!
The program `time_sync` as a whole: the host's `main` from its first call to its
exit, the two threads that it starts, and the PRU from its start to its halt.
What the clock of the PRU and the ring buffer to the PRU hold is recorded as for
`pru_clock`, where the messages of the PRU stand for the stored times.
-/
namespace NeslPru.TimeSyncProgram
open NeslPru.Access NeslPru.HostQot NeslPru.PruTime NeslPru.Rbuffer
open NeslPru.PruClock (Store)

inductive Party where
  | main
  | receive
  | send
  | pru
deriving DecidableEq

/-- The calls whose results the host's `main` looks at. -/
inductive Call where
  | getuid
  | open_evtout_0
  | open_evtout_1
  | map_prumem
  | init_qot
  | create_receive
  | create_send
  | deinit_qot
deriving DecidableEq

/-- `from_pru` is an access to the ring buffer that the PRU writes, `to_pru` one to
    that of the host. `created_receive`, `created_send` and `executed` are the
    starts of the threads and of the PRU, `idle` is what a party does that has
    returned. -/
inductive Access where
  | result (f : Call)
  | memset
  | exec_program
  | wait_evtout_1
  | store_stop
  | idle
  | created_receive
  | created_send
  | load_stop
  | wait_evtout_0
  | clear_evtout_0
  | read_event
  | executed
  | reset_iep_cnt
  | iep_cnt
  | assert_pin
  | deassert_pin
  | trig_intc (int_num : Nat)
  | halt
  | from_pru (a : Rbuffer.Access)
  | to_pru (a : Rbuffer.Access)

@[reducible] def Access.Answer : Access → Type
  | .result _ => Int32
  | .load_stop => Bool
  | .read_event => ReadResult
  | .iep_cnt => Nat
  | .from_pru a => a.Answer
  | .to_pru a => a.Answer
  | _ => Unit

/-- The variables of the PRU's `main` that outlive a pass of the loop. -/
structure Locals where
  time : pru_time Nat
  status : Int16

inductive Block where
  | main
  | started
  | returned
  | receive_pru_thread
  | woken
  | drain
  | read (data : u64) (status : Int16)
  | send_pru_thread
  | sending (err : Int32)
  | sent (nano_ts : u64) (err : Int32) (status : Int16)
  | pru
  | initialised
  | clock_set (l : Locals) (iep_cnt : UInt32)
  | loop (l : Locals) (i : Nat)
  | pulse (l : Locals) (i : Nat) (ts_pru : u64)
  | poll (l : Locals) (i : Nat) (ts_pru : u64)
  | polled (l : Locals) (i : Nat) (ts_pru data : u64)
  | wrote (l : Locals) (i : Nat) (ts : u64) (status : Int16)
  | halted

abbrev Code := Prog Access Access.Answer Block

open Prog (call)

def onFromPru {α : Type} (p : RingProg α) : Prog Access Access.Answer α := p.embed .from_pru (fun _ r => r)
def onToPru {α : Type} (p : RingProg α) : Prog Access Access.Answer α := p.embed .to_pru (fun _ r => r)

/-! ### The host -/

/-- A call after whose failure `main` exits. -/
def check (f : Call) (next : Code) : Code := do
  let err : Int32 ← call (Access.result f)
  if err ≠ 0 then return .returned else next

/-- The end of the start-up: the PRU runs before its threads are there. -/
def start_threads : Code := do
  call Access.exec_program
  check .create_receive (check .create_send (return .started))

def main : Code :=
  check .getuid <| check .open_evtout_0 <| check .open_evtout_1 <| check .map_prumem <| do
    call Access.memset
    onToPru init_rbuffer
    check .init_qot start_threads

/-- After the PRU has finished; a failure of `deinit_qot` is only reported. -/
def teardown : Code := do
  call Access.wait_evtout_1
  call Access.store_stop
  let _ : Int32 ← call (Access.result .deinit_qot)
  return .returned

/-- The loop of `receive_pru_thread` up to the wait. -/
def wait_pru : Code := do
  let stop : Bool ← call Access.load_stop
  if stop then
    return .returned
  else do
    call Access.wait_evtout_0
    return .woken

/-- One pass of the inner loop, which starts with `status` 0. -/
def read_pru : Code := do
  let (data,status) ← onFromPru (rbuf_read_uint64 (some 0))
  return .read data (status.getD 0)

/-- The loop of `send_pru_thread`. -/
def send_host (err : Int32) : Code := do
  let stop : Bool ← call Access.load_stop
  if stop then
    return .returned
  else do
    let result : ReadResult ← call Access.read_event
    let (nano_ts,err) := qot_read_event_ts result err
    let status ← onToPru (rbuf_write_uint64 nano_ts)
    return .sent nano_ts err status

/-! ### The PRU -/

def start_clock : Code := do
  call Access.reset_iep_cnt
  let iep_cnt : Nat ← call Access.iep_cnt
  let cc : Nat ← call Access.iep_cnt
  return .clock_set ⟨(init_pru_time 5 0 32 read_cc none (IEP_CNT iep_cnt) cc).2,-1⟩ (IEP_CNT iep_cnt)

/-- Sending the time to the host. -/
def send_time (l : Locals) (i : Nat) : Code := do
  let cc : Nat ← call Access.iep_cnt
  let (ts,time) := read_pru_time l.time cc
  let status ← onFromPru (rbuf_write_uint64 ts)
  return .wrote { l with time := time } i ts status

/-- `while (i--)`, up to the pulse or the message. -/
def loop (l : Locals) : Nat → Code
  | 0 => do
    call (Access.trig_intc 4)
    return .halted
  | i + 1 =>
    if i % 5 = 0 then do
      let cc : Nat ← call Access.iep_cnt
      let (ts_pru,time) := read_pru_time l.time cc
      return .pulse { l with time := time } i ts_pru
    else send_time l i

def poll_host (l : Locals) (i : Nat) (ts_pru : u64) : Code := do
  let (data,status) ← onToPru (rbuf_read_uint64 (some l.status))
  return .polled { l with status := status.getD l.status } i ts_pru data

def body : Block → Code
  | .main => main
  | .started => teardown
  | .returned => do
    call Access.idle
    return .returned
  | .receive_pru_thread => do
    call Access.created_receive
    wait_pru
  | .woken => do
    call Access.clear_evtout_0
    return .drain
  | .drain => read_pru
  | .read _ status => if status = 0 then read_pru else wait_pru
  | .send_pru_thread => do
    call Access.created_send
    return .sending 0
  | .sending err => send_host err
  | .sent _ err _ => send_host err
  | .pru => do
    call Access.executed
    onFromPru init_rbuffer
    return .initialised
  | .initialised => start_clock
  | .clock_set l _ => loop l 30
  | .loop l i => loop l i
  | .pulse l i ts_pru => do
    call Access.assert_pin
    call Access.deassert_pin
    return .poll l i ts_pru
  | .poll l i ts_pru => poll_host l i ts_pru
  | .polled l i ts_pru data =>
    if l.status ≠ 0 then poll_host l i ts_pru
    else
      -- `slew_cc` is not set, so that the call does not depend on the counter.
      send_time { l with time := (adj_pru_time l.time ts_pru data 0).2.1 } i
  | .wrote l i _ _ => do
    call (Access.trig_intc 3)
    return .loop l i
  | .halted => do
    call Access.halt
    return .halted

/-! ### The system -/

/-- What has been started, the two interrupts, and the ring buffer of the PRU.
    `ready`, `owed` and `draining` are as for the messages alone: the PRU has
    initialised its ring buffer, it is between a write and the interrupt, the
    thread of the host has been woken and has not yet found nothing. Messages
    that were written are in `sync.pru.stores`, others in `unsent`. -/
structure World where
  exec : Bool
  receive_thread : Bool
  send_thread : Bool
  stop : Bool
  evtout_0 : Bool
  evtout_1 : Bool
  from_pru : rbuffer
  ready : Bool
  owed : Bool
  draining : Bool
  printed : List u64
  unsent : List u64
  sync : PruClock.World

/-- The messages of the PRU, in order. -/
def World.messages (w : World) : List Store := w.sync.pru.stores

/-- What the outside decides: the result of a call, the counts since the last
    reading of the counter, how a read of an event ends, and the event that a pulse
    is captured as. -/
structure Input where
  result : Int32
  elapsed : Nat
  read : ReadResult
  event : ptp_extts_event

/-- The reading of the counter is fewer than `2^32` counts after the one before. -/
def Near (input : Input) : Prop := input.elapsed < 2^32

instance (input : Input) : Decidable (Near input) := inferInstanceAs (Decidable (_ < _))

/-- A read of an event is full. -/
def Reads (input : Input) : Prop := Full input.read

instance (input : Input) : Decidable (Reads input) := inferInstanceAs (Decidable (Full _))

/-- A pulse gives one event. A process that has been ended is one whose threads
    have no more turns. -/
def act : (a : Access) → Input → World → Option (a.Answer × World)
  | .result f, input, w =>
    some (input.result,{ w with
      receive_thread := w.receive_thread || (f = .create_receive && input.result = 0 : Bool)
      send_thread := w.send_thread || (f = .create_send && input.result = 0 : Bool) })
  | .memset, _, w => some ((),{ w with from_pru := TimeSyncReceive.zeroed, sync.rbuf := TimeSyncReceive.zeroed })
  | .exec_program, _, w => some ((),{ w with exec := true })
  | .wait_evtout_1, _, w => if w.evtout_1 then some ((),w) else none
  | .store_stop, _, w => some ((),{ w with stop := true })
  | .idle, _, w => some ((),w)
  | .created_receive, _, w => if w.receive_thread then some ((),w) else none
  | .created_send, _, w => if w.send_thread then some ((),w) else none
  | .load_stop, _, w => some (w.stop,w)
  | .wait_evtout_0, _, w => if w.evtout_0 then some ((),w) else none
  | .clear_evtout_0, _, w => some ((),{ w with evtout_0 := false })
  | .read_event, input, w =>
    (read_event input.read w.sync.events w.sync.taken).map fun (result,taken) => (result,{ w with sync.taken := taken })
  | .executed, _, w => if w.exec then some ((),w) else none
  | .reset_iep_cnt, _, w => some ((),{ w with sync.pru.count := 0 })
  | .iep_cnt, input, w =>
    some (w.sync.pru.count + input.elapsed,{ w with sync.pru.count := w.sync.pru.count + input.elapsed })
  | .assert_pin, input, w => some ((),{ w with sync.events := w.sync.events ++ [input.event] })
  | .deassert_pin, _, w => some ((),w)
  | .trig_intc int_num, _, w =>
    some ((),{ w with evtout_0 := w.evtout_0 || int_num = 3, evtout_1 := w.evtout_1 || int_num = 4 })
  | .halt, _, w => some ((),w)
  | .from_pru a, _, w => some ((memory a w.from_pru).1,{ w with from_pru := (memory a w.from_pru).2 })
  | .to_pru a, _, w => some ((memory a w.sync.rbuf).1,{ w with sync.rbuf := (memory a w.sync.rbuf).2 })

def enter : Block → World → World
  | .woken, w => { w with draining := true }
  | .read data status, w =>
    if status = 0 then { w with printed := w.printed ++ [data] } else { w with draining := false }
  | .sent nano_ts _ status, w =>
    if status = 0 then { w with sync.sent := w.sync.sent ++ [nano_ts] }
    else { w with sync.refused := w.sync.refused ++ [nano_ts] }
  | .initialised, w => { w with ready := true }
  | .clock_set _ iep_cnt, w => { w with sync.pru.init := ⟨iep_cnt.toUInt64,w.sync.pru.count⟩ }
  | .loop _ _, w => { w with owed := false }
  | .pulse _ _ _, w => { w with sync.pru.synced := w.sync.pru.count }
  | .polled l _ _ data, w =>
    if l.status = 0 then
      { w with
        sync.received := w.sync.received ++ [data]
        sync.pru.rounds := w.sync.pru.rounds ++ [⟨data,w.sync.pru.synced⟩] }
    else w
  | .wrote _ _ ts status, w =>
    if status = 0 then
      { w with
        owed := true
        sync.pru.stores := w.sync.pru.stores ++ [⟨ts,w.sync.pru.count,w.sync.pru.rounds.length⟩] }
    else { w with owed := true, unsent := w.unsent ++ [ts] }
  | _, w => w

def system : System Access Access.Answer Block Input World where
  act := act
  body := body
  enter := enter
  starts := by
    intro b
    cases b with
    | read data status => simp only [body]; split <;> rfl
    | loop l i =>
      cases i with
      | zero => rfl
      | succ i => simp only [body,loop]; split <;> rfl
    | polled l i ts_pru data => simp only [body]; split <;> rfl
    | _ => rfl

def first : Party → Block
  | .main => .main
  | .receive => .receive_pru_thread
  | .send => .send_pru_thread
  | .pru => .pru

/-- Nothing has been started, and the shared memory holds anything. -/
def initial (m n : rbuffer) : World where
  exec := false
  receive_thread := false
  send_thread := false
  stop := false
  evtout_0 := false
  evtout_1 := false
  from_pru := m
  ready := false
  owed := false
  draining := false
  printed := []
  unsent := []
  sync := PruClock.initial 0 0 n

end NeslPru.TimeSyncProgram
