import NeslPru.PruClockSync
import NeslPru.TimeSyncReceive

/-!
The program `pru_clock` as a whole: the host's `main`, the two threads that it
starts, and the PRU from its start on. A time that the PRU stores for the host is
of 64 bits and the memory of 32, so that it is stored in two halves and loaded in
two halves; which half comes first is left open (`stores`, `loads`).
-/
namespace NeslPru.PruClockProgram
open NeslPru.Access NeslPru.HostQot NeslPru.PruTime NeslPru.Rbuffer NeslPru.RbufferQueue

inductive Party where
  | main
  | poll
  | send
  | pru
deriving DecidableEq

inductive Half where
  | lower
  | upper
deriving DecidableEq

def Half.other : Half → Half
  | .lower => .upper
  | .upper => .lower

def half : Half → u64 → UInt32
  | .lower, ts => ts.toUInt32
  | .upper, ts => (ts >>> 32).toUInt32

/-- The value of which `x` is one half and `y` the other one. -/
def Half.join : Half → UInt32 → UInt32 → u64
  | .lower, x, y => RbufferQueue.join x y
  | .upper, x, y => RbufferQueue.join y x

/-- The calls whose results the host's `main` looks at. -/
inductive Call where
  | getuid
  | open_evtout_0
  | open_evtout_1
  | map_prumem
  | init_qot
  | create_poll
  | create_send
  | deinit_qot
deriving DecidableEq

/-- `init` is an access of `main` to the ring buffer, `clock` one of the PRU or of
    `send_pru_thread` as in `PruClock`. `boot_iep_cnt` and `boot_cc` are the first
    two readings of the counter. -/
inductive Access where
  | result (f : Call)
  | memset
  | init (a : Rbuffer.Access)
  | exec_program
  | wait_evtout_1
  | store_stop
  | idle
  | created_poll
  | created_send
  | load_stop
  | sleep
  | load_half (h : Half)
  | printf (data : u64)
  | executed
  | reset_iep_cnt
  | boot_iep_cnt
  | boot_cc
  | store_half (h : Half) (ts : u64)
  | clock (a : PruClock.Access)

@[reducible] def Access.Answer : Access → Type
  | .result _ => Int32
  | .init a => a.Answer
  | .load_stop => Bool
  | .load_half _ => UInt32
  | .boot_iep_cnt => UInt32
  | .boot_cc => Nat
  | .clock a => a.Answer
  | _ => Unit

/-- A program of `PruClock`. -/
abbrev ClockCode := Prog PruClock.Access PruClock.Access.Answer PruClock.Block

/-- `storing ts rest` is between the two halves of `ts`, and `stored rest` after
    them with `rest` to do. -/
inductive Block where
  | main
  | started
  | returned
  | poll_time_thread
  | loaded (x : UInt32)
  | read (data : u64)
  | printed
  | send_pru_thread
  | pru
  | clock (b : PruClock.Block)
  | storing (ts : u64) (rest : ClockCode)
  | stored (rest : ClockCode)

abbrev Code := Prog Access Access.Answer Block

open Prog (call)

/-- Which half of a time the PRU stores first and which one the host loads first. -/
structure Order where
  stores : Half
  loads : Half

/-! ### The host -/

/-- A call after whose failure `main` exits. -/
def check (f : Call) (next : Code) : Code := do
  let err : Int32 ← call (Access.result f)
  if err ≠ 0 then return .returned else next

/-- The end of the start-up: the PRU runs before the threads are there. -/
def start_threads : Code := do
  call Access.exec_program
  check .create_poll (check .create_send (return .started))

/-- Only the sender initializes the ring buffer. -/
def main : Code :=
  check .getuid <| check .open_evtout_0 <| check .open_evtout_1 <| check .map_prumem <| do
    call Access.memset
    init_rbuffer.embed Access.init (fun _ r => r)
    check .init_qot start_threads

/-- After the PRU has finished; a failure of `deinit_qot` is only reported. -/
def teardown : Code := do
  call Access.wait_evtout_1
  call Access.store_stop
  let _ : Int32 ← call (Access.result .deinit_qot)
  return .returned

variable (order : Order)

/-- The loop of `poll_time_thread`, up to the first half of the time. -/
def poll_time : Code := do
  let stop : Bool ← call Access.load_stop
  if stop then
    return .returned
  else do
    call Access.sleep
    let x : UInt32 ← call (Access.load_half order.loads)
    return .loaded x

/-- A program of `PruClock` in which each store of a time is one of each half. -/
def split : ClockCode → Code
  | .ret b => .ret (.clock b)
  | .access (.store_ts_mem ts) next => .access (.store_half order.stores ts) fun _ => .ret (.storing ts (next ()))
  | .access .iep_cnt next => .access (.clock .iep_cnt) fun r => split (next r)
  | .access .assert_pin next => .access (.clock .assert_pin) fun r => split (next r)
  | .access .deassert_pin next => .access (.clock .deassert_pin) fun r => split (next r)
  | .access .read_event next => .access (.clock .read_event) fun r => split (next r)
  | .access (.ring a) next => .access (.clock (.ring a)) fun r => split (next r)

/-- The loop of `send_pru_thread`. -/
def send_pru : Code := do
  let stop : Bool ← call Access.load_stop
  if stop then return .returned else split order PruClock.send_pru_thread

/-! ### The PRU -/

/-- Starting the clock. -/
def start_clock : Code := do
  call Access.executed
  call Access.reset_iep_cnt
  let iep_cnt : UInt32 ← call Access.boot_iep_cnt
  let cc : Nat ← call Access.boot_cc
  return .clock (.top ⟨(init_pru_time 5 0 32 read_cc none iep_cnt cc).2,0,true,-1⟩)

def body : Block → Code
  | .main => main
  | .started => teardown
  | .returned => do
    call Access.idle
    return .returned
  | .poll_time_thread => do
    call Access.created_poll
    poll_time order
  | .loaded x => do
    let y : UInt32 ← call (Access.load_half order.loads.other)
    return .read (order.loads.join x y)
  | .read data => do
    call (Access.printf data)
    return .printed
  | .printed => poll_time order
  | .send_pru_thread => do
    call Access.created_send
    send_pru order
  | .pru => start_clock
  | .clock .event => send_pru order
  | .clock (.wrote _ _) => send_pru order
  | .clock b => split order (PruClock.body b)
  | .storing ts rest => do
    call (Access.store_half order.stores.other ts)
    return .stored rest
  | .stored (.ret b) => split order (PruClock.body b)
  | .stored rest => split order rest

/-! ### The system -/

/-- A line of `poll_time_thread`. The times that the PRU has stored are counted
    from the zero that is there at the start: when the first half was loaded,
    `first` was the last one that was completely there, and when the second one
    was loaded, the ones before `last` had been begun. -/
structure Print where
  data : u64
  first : Nat
  last : Nat
deriving DecidableEq

/-- What has been started, the time in the shared memory, of which `complete`
    stores have been finished, and the clock with its ring buffer. A time is
    recorded in `clock.pru.stores` with its first half. -/
structure World where
  exec : Bool
  poll_thread : Bool
  send_thread : Bool
  stop : Bool
  evtout_1 : Bool
  ts_mem : Half → UInt32
  complete : Nat
  first : Nat
  last : Nat
  prints : List Print
  clock : PruClock.World

/-- The times in the shared memory, in order. -/
def World.times (w : World) : List u64 := 0 :: w.clock.pru.stores.map PruClock.Store.value

/-- The result of a call, and what the devices of the clock answer. -/
structure Input where
  result : Int32
  clock : PruClock.Input

/-- What the first two readings of the counter find. -/
structure Boot where
  iep_cnt : UInt32
  cc : Nat

def act (boot : Boot) : (a : Access) → Input → World → Option (a.Answer × World)
  | .result f, input, w =>
    some (input.result,{ w with
      poll_thread := w.poll_thread || (f = .create_poll && input.result = 0 : Bool)
      send_thread := w.send_thread || (f = .create_send && input.result = 0 : Bool) })
  | .memset, _, w => some ((),{ w with ts_mem := fun _ => 0, clock.rbuf := TimeSyncReceive.zeroed })
  | .init a, _, w => some ((memory a w.clock.rbuf).1,{ w with clock.rbuf := (memory a w.clock.rbuf).2 })
  | .exec_program, _, w => some ((),{ w with exec := true })
  | .wait_evtout_1, _, w => if w.evtout_1 then some ((),w) else none
  | .store_stop, _, w => some ((),{ w with stop := true })
  | .idle, _, w => some ((),w)
  | .created_poll, _, w => if w.poll_thread then some ((),w) else none
  | .created_send, _, w => if w.send_thread then some ((),w) else none
  | .load_stop, _, w => some (w.stop,w)
  | .sleep, _, w => some ((),w)
  | .load_half h, _, w => some (w.ts_mem h,w)
  | .printf data, _, w => some ((),{ w with prints := w.prints ++ [⟨data,w.first,w.last⟩] })
  | .executed, _, w => if w.exec then some ((),w) else none
  | .reset_iep_cnt, _, w => some ((),w)
  | .boot_iep_cnt, _, w => some (boot.iep_cnt,w)
  | .boot_cc, _, w => some (boot.cc,w)
  | .store_half h ts, _, w => some ((),{ w with ts_mem := Function.update w.ts_mem h (half h ts) })
  | .clock a, input, w =>
    (PruClock.act PruClock.shared a input.clock w.clock).map fun answer => (answer.1,{ w with clock := answer.2 })

/-- What the PRU has done with the time it stores. -/
def record (ts : u64) (w : PruClock.World) : PruClock.World :=
  { w with pru.stores := w.pru.stores ++ [⟨ts,w.pru.count,w.pru.rounds.length⟩] }

def enter : Block → World → World
  | .loaded _, w => { w with first := w.complete }
  | .read _, w => { w with last := w.times.length }
  | .clock b, w => { w with clock := PruClock.enter b w.clock }
  | .storing ts rest, w => { w with clock := (PruClock.system PruClock.shared).settle rest (record ts w.clock) }
  | .stored _, w => { w with complete := w.complete + 1 }
  | _, w => w

theorem clock_starts (b : PruClock.Block) : (PruClock.body b).isAccess = true :=
  (PruClock.system PruClock.shared).starts b

theorem split_isAccess {p : ClockCode} (more : p.isAccess = true) : (split order p).isAccess = true := by
  cases p with
  | ret b => simp [Prog.isAccess] at more
  | access a next => cases a <;> rfl

def system (boot : Boot) : System Access Access.Answer Block Input World where
  act := act boot
  body := body order
  enter := enter
  starts := by
    intro b
    cases b with
    | clock b =>
      cases b with
      | event | wrote nano_ts status => rfl
      | _ => exact split_isAccess order (clock_starts _)
    | stored rest =>
      cases rest with
      | ret b => exact split_isAccess order (clock_starts b)
      | access a next => exact split_isAccess order rfl
    | _ => rfl

def first : Party → Block
  | .main => .main
  | .poll => .poll_time_thread
  | .send => .send_pru_thread
  | .pru => .pru

/-- Nothing has been started, and the shared memory holds anything. -/
def initial (boot : Boot) (ts_mem : Half → UInt32) (m : rbuffer) : World where
  exec := false
  poll_thread := false
  send_thread := false
  stop := false
  evtout_1 := false
  ts_mem := ts_mem
  complete := 0
  first := 0
  last := 0
  prints := []
  clock := PruClock.initial boot.iep_cnt boot.cc m

end NeslPru.PruClockProgram
