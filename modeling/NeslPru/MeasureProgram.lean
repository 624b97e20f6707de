import NeslPru.MeasureSync
import NeslPru.ReportThreads
import NeslPru.TimeSyncProgram

/-!
The program `measure_time_sync` as a whole: the host's `main` from its first call
to its exit, the two threads that it starts, and the PRU from its start to its
halt. The host's side is cut as in `TimeSyncProgram` and `ReportThreads`, the
PRU's as in `MeasureSync` and after each report.
-/
namespace NeslPru.MeasureProgram
open NeslPru.Access NeslPru.HostQot
open NeslPru.Rbuffer hiding Access
open NeslPru.MeasureSync (Globals Locals P8_45 starts)

/-- `edges` makes the events of channel 1. -/
inductive Party where
  | main
  | receive
  | send
  | pru
  | edges
deriving DecidableEq

/-- `from_pru` and `to_pru` are accesses of the host to the two ring buffers; those
    of the PRU are its `send` and `receive`. -/
inductive Access where
  | result (f : TimeSyncProgram.Call)
  | memset
  | exec_program
  | wait_evtout_1
  | store_stop
  | idle
  | created_receive
  | created_send
  | load_stop
  | wait_evtout_0
  | clear_evtout_0
  | read_event
  | vars (a : ReportThreads.Vars)
  | from_pru (a : Rbuffer.Access)
  | to_pru (a : Rbuffer.Access)
  | executed
  | pru (a : MeasureSync.Access)
  | edge

@[reducible] def Access.Answer : Access → Type
  | .result _ => Int32
  | .load_stop => Bool
  | .read_event => ReadResult
  | .vars a => a.Answer
  | .from_pru a => a.Answer
  | .to_pru a => a.Answer
  | .pru a => a.Answer
  | _ => Unit

/-- What follows a call of `check_input_pin`. -/
inductive Rest where
  | polled (l : Locals)
  | top (l : Locals)

def Rest.block (g : Globals) : Rest → MeasureSync.Block
  | .polled l => .polled g l
  | .top l => .top g l

inductive Block where
  | main
  | started
  | returned
  | receive_pru_thread
  | woken
  | drain
  | read (data : UInt64) (status : Int16)
  | stored_pru (data : UInt64)
  | handled_report (data : UInt64)
  | send_pru_thread
  | sending (i : Int32)
  | sent (i : Int32) (nano_ts : UInt64) (status : Int16)
  | rising (i : Int32) (nano_ts : UInt64)
  | stored_host (i : Int32) (nano_ts : UInt64)
  | handled_edge (i : Int32) (nano_ts : UInt64)
  | falling (i : Int32) (nano_ts : UInt64)
  | pru (b : MeasureSync.Block)
  | initialised
  | wrote (rest : Rest) (g : Globals) (ts : UInt64) (status : Int16)
  | edge

abbrev Code := Prog Access Access.Answer Block

open Prog (call)

def onVars {α : Type} (p : Prog ReportThreads.Vars ReportThreads.Vars.Answer α) : Prog Access Access.Answer α :=
  p.embed .vars (fun _ r => r)
def onFromPru {α : Type} (p : RingProg α) : Prog Access Access.Answer α := p.embed .from_pru (fun _ r => r)
def onToPru {α : Type} (p : RingProg α) : Prog Access Access.Answer α := p.embed .to_pru (fun _ r => r)
def onSend {α : Type} (p : RingProg α) : Prog Access Access.Answer α := p.embed (fun a => .pru (.send a)) (fun _ r => r)
def onReceive {α : Type} (p : RingProg α) : Prog Access Access.Answer α := p.embed (fun a => .pru (.receive a)) (fun _ r => r)
def onPru {α : Type} (p : Prog MeasureSync.Access MeasureSync.Access.Answer α) : Prog Access Access.Answer α :=
  p.embed .pru (fun _ r => r)

/-! ### The host -/

/-- A call after whose failure `main` exits. -/
def check (f : TimeSyncProgram.Call) (next : Code) : Code := do
  let err : Int32 ← call (Access.result f)
  if err ≠ 0 then return .returned else next

/-- The end of the start-up: the PRU runs before its threads are there. -/
def start_threads : Code := do
  call Access.exec_program
  check .create_receive (check .create_send (return .started))

def main : Code :=
  check .getuid <| check .open_evtout_0 <| check .open_evtout_1 <| check .map_prumem <| do
    call Access.memset
    onToPru init_rbuffer
    check .init_qot start_threads

/-- After the PRU has finished; a failure of `deinit_qot` is only reported. -/
def teardown : Code := do
  call Access.wait_evtout_1
  call Access.store_stop
  let _ : Int32 ← call (Access.result .deinit_qot)
  return .returned

/-- The loop of `receive_pru_thread` up to the wait. -/
def wait_pru : Code := do
  let stop : Bool ← call Access.load_stop
  if stop then
    return .returned
  else do
    call Access.wait_evtout_0
    return .woken

/-- One pass of the inner loop, which starts with `status` 0. -/
def read_pru : Code := do
  let (data,status) ← onFromPru (rbuf_read_uint64 (some 0))
  return .read data (status.getD 0)

/-- The loop of `send_pru_thread`. A read that succeeds stores the index of the
    event as the channel, and one that fails leaves there what was there before,
    for which any index stands. -/
def send_host (i : Int32) : Code := do
  let stop : Bool ← call Access.load_stop
  if stop then
    return .returned
  else do
    let result : ReadResult ← call Access.read_event
    let (nano_ts,_) := qot_read_event_ts result 0
    let channel := result.event.index.toInt32
    if channel = 0 then do
      let status ← onToPru (rbuf_write_uint64 nano_ts)
      return .sent i nano_ts status
    else if channel = 1 then
      -- Skip the falling edge timestamp
      if i % 2 ≠ 0 then return .rising (i + 1) nano_ts else return .falling (i + 1) nano_ts
    else return .sending i

/-! ### The PRU -/

/-- Sending the time of a rising edge. -/
def report (g : Globals) (rest : Rest) : Code := do
  let ts : UInt64 ← call (Access.pru .iep_get_time)
  let status ← onSend (rbuf_write_uint64 ts)
  return .wrote rest g ts status

/-- `check_input_pin` up to the end of its write. -/
def check_pin (g : Globals) (rest : Rest) : Code := do
  let pin : UInt32 ← call (Access.pru (.read_pin P8_45))
  if g.input_high = false then
    if pin ≠ 0 then
      report g rest
    else
      return .pru (rest.block g)
  else if pin = 0 then
    return .pru (rest.block { g with input_high := false })
  else
    return .pru (rest.block g)

def poll (g : Globals) (l : Locals) : Code := do
  let (host_ts,status) ← onReceive (rbuf_read_uint64 (some l.status))
  check_pin g (.polled { l with host_ts := host_ts, status := status.getD l.status })

def uncut (b : MeasureSync.Block) : Code := onPru (MeasureSync.body b) >>= fun b => .ret (.pru b)

def pru : MeasureSync.Block → Code
  | .main => do
    call Access.executed
    onSend init_rbuffer
    return .initialised
  | .test g l => if starts l then uncut (.test g l) else check_pin g (.top l)
  | .poll g l => poll g l
  | .polled g l => if l.status ≠ 0 then poll g l else uncut (.polled g l)
  | .adjusted g l => check_pin g (.top l)
  | b => uncut b

def body : Block → Code
  | .main => main
  | .started => teardown
  | .returned => do
    call Access.idle
    return .returned
  | .receive_pru_thread => do
    call Access.created_receive
    wait_pru
  | .woken => do
    call Access.clear_evtout_0
    return .drain
  | .drain => read_pru
  | .read data status =>
    if status = 0 then do
      call (Access.vars (.store_last_pru_ts data.toInt64.toUInt64))
      return .stored_pru data
    else wait_pru
  | .stored_pru data => onVars (ReportThreads.finish 0x1) >>= fun _ => .ret (.handled_report data)
  | .handled_report _ => read_pru
  | .send_pru_thread => do
    call Access.created_send
    send_host 1
  | .sending i => send_host i
  | .sent i _ _ => send_host i
  | .rising i nano_ts => do
    call (Access.vars (.store_last_host_ts nano_ts))
    return .stored_host i nano_ts
  | .stored_host i nano_ts => onVars (ReportThreads.finish 0x2) >>= fun _ => .ret (.handled_edge i nano_ts)
  | .handled_edge i _ => send_host i
  | .falling i _ => send_host i
  | .pru b => pru b
  | .initialised => do
    call (Access.pru .init_iep_time)
    return .pru (.top ⟨8000,false⟩ ⟨-1,true,0,0,0⟩)
  | .wrote rest g _ _ => do
    call (Access.pru (.trig_intc 3))
    return .pru (rest.block { g with input_high := true, num_samples := g.num_samples - 1 })
  | .edge => do
    call Access.edge
    return .edge

/-- Going on where only this program is cut. -/
def join : Block → Code
  | .initialised => body .initialised
  | .wrote rest g ts status => body (.wrote rest g ts status)
  | b => .ret b

theorem check_pin_cut (g : Globals) (rest : Rest) :
    onPru (MeasureSync.check_input_pin g) >>= (fun g => .ret (.pru (rest.block g))) = check_pin g rest >>= join := by
  simp only [MeasureSync.check_input_pin,check_pin,report,onPru,Prog.call_bind,Prog.access_bind,Prog.embed]
  congr 1
  funext pin
  split
  · split
    · simp only [Prog.access_bind,Prog.embed]
      congr 1
      funext ts
      rw [MeasureSync.onSend,Prog.embed_bind,Prog.embed_embed,Prog.bind_assoc,Prog.bind_assoc]
      rfl
    · rfl
  · split
    · rfl
    · rfl

theorem uncut_join (b : MeasureSync.Block) : uncut b >>= join = uncut b := by
  rw [uncut,Prog.bind_assoc]
  rfl

theorem poll_cut (g : Globals) (l : Locals) :
    onPru (MeasureSync.poll g l) >>= (fun b => .ret (.pru b)) = poll g l >>= join := by
  simp only [MeasureSync.poll,poll,MeasureSync.onReceive,onPru,Prog.embed_bind,Prog.bind_assoc,Prog.embed_embed]
  congr 1
  funext r
  rw [← check_pin_cut]
  rfl

/-- Where the PRU is cut makes no difference to what it does. -/
theorem pru_cut (b : MeasureSync.Block) :
    pru b >>= join = match b with
      | .main => call Access.executed >>= fun _ => uncut .main
      | b => uncut b := by
  cases b with
  | main =>
    simp only [pru,uncut,MeasureSync.body,MeasureSync.onSend,onPru,Prog.call_bind,Prog.access_bind,Prog.embed_bind,
      Prog.embed_embed,Prog.bind_assoc]
    rfl
  | test g l =>
    simp only [pru]
    split
    · exact uncut_join _
    · rename_i later
      have checks : MeasureSync.body (.test g l) = MeasureSync.last_check g l := if_neg later
      rw [← check_pin_cut]
      simp only [uncut,checks,MeasureSync.last_check,onPru,Prog.embed_bind,Prog.bind_assoc]
      rfl
  | poll g l => exact (poll_cut g l).symm
  | polled g l =>
    simp only [pru]
    split
    · rename_i again
      have polls : MeasureSync.body (.polled g l) = MeasureSync.poll g l := if_pos again
      rw [← poll_cut]
      simp only [uncut,polls]
    · exact uncut_join _
  | adjusted g l =>
    simp only [pru]
    rw [← check_pin_cut]
    simp only [uncut,MeasureSync.body,MeasureSync.last_check,onPru,Prog.embed_bind,Prog.bind_assoc]
    rfl
  | top g l => exact uncut_join _
  | halted => exact uncut_join _

/-! ### The system -/

/-- What has been started, the interrupts, the ring buffers, the variables of the
    threads, the clock of the PRU, and the events, of which `taken` have been read.
    `ready`, `owed` and `draining` are as in `TimeSyncReceive`, `accepted` are the
    reports that the ring buffer has taken. -/
structure World where
  exec : Bool
  receive_thread : Bool
  send_thread : Bool
  stop : Bool
  evtout_0 : Bool
  evtout_1 : Bool
  from_pru : rbuffer
  to_pru : rbuffer
  ready : Bool
  owed : Bool
  draining : Bool
  accepted : List UInt64
  reports : ReportThreads.World
  pru : MeasureSync.World
  queue : List ptp_extts_event
  taken : Nat

/-- The result of a call, what the devices of the PRU answer, how a read of an event
    ends, and the time of an edge. -/
structure Input where
  result : Int32
  pru : MeasureSync.Input
  read : ReadResult
  t : ptp_clock_time

/-- A read of an event is full. -/
def Reads (input : Input) : Prop := Full input.read

instance (input : Input) : Decidable (Reads input) := inferInstanceAs (Decidable (Full _))

/-- Both edges of a pulse of the PRU are captured on channel 0. -/
def act : (a : Access) → Input → World → Option (a.Answer × World)
  | .result f, input, w =>
    some (input.result,{ w with
      receive_thread := w.receive_thread || (f = .create_receive && input.result = 0 : Bool)
      send_thread := w.send_thread || (f = .create_send && input.result = 0 : Bool) })
  | .memset, _, w => some ((),{ w with from_pru := TimeSyncReceive.zeroed, to_pru := TimeSyncReceive.zeroed })
  | .exec_program, _, w => some ((),{ w with exec := true })
  | .wait_evtout_1, _, w => if w.evtout_1 then some ((),w) else none
  | .store_stop, _, w => some ((),{ w with stop := true })
  | .idle, _, w => some ((),w)
  | .created_receive, _, w => if w.receive_thread then some ((),w) else none
  | .created_send, _, w => if w.send_thread then some ((),w) else none
  | .load_stop, _, w => some (w.stop,w)
  | .wait_evtout_0, _, w => if w.evtout_0 then some ((),w) else none
  | .clear_evtout_0, _, w => some ((),{ w with evtout_0 := false })
  | .read_event, input, w =>
    (read_event input.read w.queue w.taken).map fun (result,taken) => (result,{ w with taken := taken })
  | .vars a, _, w =>
    some ((ReportThreads.device a w.reports.memory).1,{ w with
      reports.memory := (ReportThreads.device a w.reports.memory).2 })
  | .from_pru a, _, w => some ((memory a w.from_pru).1,{ w with from_pru := (memory a w.from_pru).2 })
  | .to_pru a, _, w => some ((memory a w.to_pru).1,{ w with to_pru := (memory a w.to_pru).2 })
  | .executed, _, w => if w.exec then some ((),w) else none
  | .pru (.send a), _, w => some ((memory a w.from_pru).1,{ w with from_pru := (memory a w.from_pru).2 })
  | .pru (.receive a), _, w => some ((memory a w.to_pru).1,{ w with to_pru := (memory a w.to_pru).2 })
  | .pru (.trig_intc int_num), _, w =>
    some ((),{ w with
      evtout_0 := w.evtout_0 || int_num = 3, evtout_1 := w.evtout_1 || int_num = 4, owed := w.owed && int_num ≠ 3 })
  | .pru (.assert_pin _), input, w => some ((),{ w with queue := w.queue ++ [⟨input.t,0⟩] })
  | .pru (.deassert_pin _), input, w => some ((),{ w with queue := w.queue ++ [⟨input.t,0⟩] })
  | .pru a, input, w => (MeasureSync.act a input.pru w.pru).map fun (r,pru) => (r,{ w with pru := pru })
  | .edge, input, w => some ((),{ w with queue := w.queue ++ [⟨input.t,1⟩] })

def enter : Block → World → World
  | .woken, w => { w with draining := true }
  | .read data status, w =>
    if status = 0 then { w with reports := w.reports.take data .receive } else { w with draining := false }
  | .stored_pru _, w => { w with reports := w.reports.begin .receive }
  | .handled_report data, w => { w with reports := w.reports.done data .receive }
  | .rising _ nano_ts, w => { w with reports := w.reports.take nano_ts .send }
  | .stored_host _ _, w => { w with reports := w.reports.begin .send }
  | .handled_edge _ nano_ts, w => { w with reports := w.reports.done nano_ts .send }
  | .falling _ nano_ts, w => { w with reports := (w.reports.take nano_ts .send).done nano_ts .send }
  | .pru b, w => { w with pru := MeasureSync.enter b w.pru }
  | .initialised, w => { w with ready := true }
  | .wrote _ _ ts status, w =>
    { w with owed := true, accepted := if status = 0 then w.accepted ++ [ts] else w.accepted }
  | _, w => w

theorem uncut_isAccess (b : MeasureSync.Block) : (uncut b).isAccess = true := by
  apply Prog.isAccess_bind
  rw [onPru,Prog.isAccess_embed]
  exact MeasureSync.system.starts b

def system : System Access Access.Answer Block Input World where
  act := act
  body := body
  enter := enter
  starts := by
    intro b
    cases b with
    | read data status => simp only [body]; split <;> rfl
    | pru b =>
      cases b with
      | test g l =>
        simp only [body,pru]
        split
        · exact uncut_isAccess _
        · rfl
      | polled g l =>
        simp only [body,pru]
        split
        · rfl
        · exact uncut_isAccess _
      | top g l => exact uncut_isAccess _
      | halted => exact uncut_isAccess _
      | _ => rfl
    | _ => rfl

def first : Party → Block
  | .main => .main
  | .receive => .receive_pru_thread
  | .send => .send_pru_thread
  | .pru => .pru .main
  | .edges => .edge

/-- Nothing has been started, and the shared memory and the clock hold anything. -/
def initial (m n : rbuffer) (time : Iep.iep_time) (regs : Iep.iep_regs) : World where
  exec := false
  receive_thread := false
  send_thread := false
  stop := false
  evtout_0 := false
  evtout_1 := false
  from_pru := m
  to_pru := n
  ready := false
  owed := false
  draining := false
  accepted := []
  reports := ReportThreads.initial
  pru := MeasureSync.initial time regs
  queue := []
  taken := 0

end NeslPru.MeasureProgram
