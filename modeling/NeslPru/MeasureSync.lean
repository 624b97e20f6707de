import NeslPru.Iep
import NeslPru.Rbuffer

/-!
The main loop of the PRU in `measure_time_sync`, on the clock of
`nesl_pru_iep.h`. Nothing is assumed of the counter, the pin and what the ring
buffers hold. The clock is part of `World`, so that each reading is recorded.
-/
namespace NeslPru.MeasureSync
open NeslPru.Access NeslPru.Iep NeslPru.Rbuffer
set_option linter.unusedSimpArgs false

def SYNC_PERIOD_NS : UInt64 := 8000000000
def P8_45 : UInt32 := (1 : UInt32) <<< 0
def P8_46 : UInt32 := (1 : UInt32) <<< 1

inductive Access where
  | init_iep_time
  | iep_get_time
  | iep_adj_time (ts_ns external_ts_ns : UInt64)
  | disable_iep_tmr
  | read_pin (pin : UInt32)
  | assert_pin (pin : UInt32)
  | deassert_pin (pin : UInt32)
  | trig_intc (int_num : Nat)
  | halt
  | send (a : Rbuffer.Access)
  | receive (a : Rbuffer.Access)

@[reducible] def Access.Answer : Access → Type
  | .iep_get_time => UInt64
  | .read_pin _ => UInt32
  | .send a => a.Answer
  | .receive a => a.Answer
  | .init_iep_time => Unit
  | .iep_adj_time _ _ => Unit
  | .disable_iep_tmr => Unit
  | .assert_pin _ => Unit
  | .deassert_pin _ => Unit
  | .trig_intc _ => Unit
  | .halt => Unit

/-- The global variables. -/
structure Globals where
  num_samples : Int32
  input_high : Bool

/-- The variables of `main`. -/
structure Locals where
  status : Int16
  first : Bool
  last_ts : UInt64
  ts : UInt64
  host_ts : UInt64

inductive Block where
  | main
  | top (g : Globals) (l : Locals)
  | test (g : Globals) (l : Locals)
  | poll (g : Globals) (l : Locals)
  | polled (g : Globals) (l : Locals)
  | adjusted (g : Globals) (l : Locals)
  | halted

open Prog (call)

def onSend {α : Type} (p : RingProg α) : Prog Access Access.Answer α := p.embed .send (fun _ r => r)
def onReceive {α : Type} (p : RingProg α) : Prog Access Access.Answer α := p.embed .receive (fun _ r => r)

def terminate : Prog Access Access.Answer Block := do
  call (Access.trig_intc 4)
  call Access.halt
  return .halted

def check_input_pin (g : Globals) : Prog Access Access.Answer Globals := do
  let pin : UInt32 ← call (Access.read_pin P8_45)
  if g.input_high = false then
    if pin ≠ 0 then
      let ts : UInt64 ← call Access.iep_get_time
      let _ ← onSend (rbuf_write_uint64 ts)
      call (Access.trig_intc 3)
      return { g with input_high := true, num_samples := g.num_samples - 1 }
    else
      return g
  else if pin = 0 then
    return { g with input_high := false }
  else
    return g

/-- The guard of a new round. -/
def starts (l : Locals) : Bool := l.ts - l.last_ts > SYNC_PERIOD_NS || l.first

/-- One pass of the inner loop. -/
def poll (g : Globals) (l : Locals) : Prog Access Access.Answer Block := do
  let (host_ts,status) ← onReceive (rbuf_read_uint64 (some l.status))
  let g ← check_input_pin g
  return .polled g { l with host_ts := host_ts, status := status.getD l.status }

/-- The end of a pass of the outer loop. -/
def last_check (g : Globals) (l : Locals) : Prog Access Access.Answer Block := do
  let g ← check_input_pin g
  return .top g l

/-- The program, cut before its guard, before and after the polls, and after
    each adjustment. -/
def body : Block → Prog Access Access.Answer Block
  | .main => do
    onSend init_rbuffer
    call Access.init_iep_time
    return .top ⟨8000,false⟩ ⟨-1,true,0,0,0⟩
  | .top g l =>
    if g.num_samples > 0 then do
      let ts : UInt64 ← call Access.iep_get_time
      return .test g { l with ts := ts }
    else do
      call Access.disable_iep_tmr
      terminate
  | .test g l =>
    if starts l then do
      call (Access.assert_pin P8_46)
      call (Access.deassert_pin P8_46)
      let ts : UInt64 ← call Access.iep_get_time
      return .poll g { l with first := false, ts := ts }
    else last_check g l
  | .poll g l => poll g l
  | .polled g l =>
    if l.status ≠ 0 then poll g l
    else do
      call (Access.iep_adj_time l.ts l.host_ts)
      let last_ts : UInt64 ← call Access.iep_get_time
      return .adjusted g { l with last_ts := last_ts }
  | .adjusted g l => last_check g l
  | .halted => do
    call Access.halt
    return .halted

/-- A reading of the clock: its result, `ts_ns` after it, and the number of
    adjustments before it. -/
structure Reading where
  value : UInt64
  ts_ns : UInt64
  adjusted : Nat
deriving DecidableEq

/-- An adjustment: the time of the host, and `ts_ns` after the reading `ts` of the round. -/
structure Round where
  host_ts : UInt64
  ts_ns : UInt64
deriving DecidableEq

/-- An evaluation of the guard after the first round, with all that had been
    counted into `ts_ns` then and at the reading `last_ts`. -/
structure Guard where
  counted : Nat
  last_counted : Option Nat
  ts : UInt64
  last_ts : UInt64
deriving DecidableEq

/-- The pulse that starts a round: what had been counted then and at the reading
    `last_ts`, and the number of adjustments before it. -/
structure Start where
  counted : Nat
  last_counted : Option Nat
  adjusted : Nat
deriving DecidableEq

/-- The clock, the registers of its timer and a record of the run. `counted` is
    `ts_ns` as a number that does not wrap, and `last_counted` is what it was at
    the first reading since the last adjustment, which is `last_ts`. -/
structure World where
  time : iep_time
  regs : iep_regs
  counted : Nat
  readings : List Reading
  rounds : List Round
  guards : List Guard
  starts : List Start
  synced_ts_ns : UInt64
  last_counted : Option Nat

/-- What the devices and the ring buffers answer. -/
structure Input where
  iep_cnt : UInt32
  r31 : UInt32
  answers : (a : Rbuffer.Access) → a.Answer

/-- A reading of the clock when the counter holds `iep_cnt`. -/
def World.read (w : World) (iep_cnt : UInt32) : World :=
  let (value,time) := iep_get_time w.time iep_cnt
  let counted := w.counted + (time.ts_ns - w.time.ts_ns).toNat
  { w with
    time := time
    counted := counted
    last_counted := some (w.last_counted.getD counted)
    readings := w.readings ++ [⟨value,time.ts_ns,w.rounds.length⟩] }

def act : (a : Access) → Input → World → Option (a.Answer × World)
  | .init_iep_time, _, w =>
    let (time,regs) := init_iep_time w.regs
    some ((),{ w with time := time, regs := regs, counted := 0 })
  | .iep_get_time, input, w => some ((iep_get_time w.time input.iep_cnt).1,w.read input.iep_cnt)
  | .iep_adj_time ts_ns external_ts_ns, _, w =>
    some ((),{ w with
      time := iep_adj_time w.time ts_ns external_ts_ns
      rounds := w.rounds ++ [⟨external_ts_ns,w.synced_ts_ns⟩]
      last_counted := none })
  | .disable_iep_tmr, _, w => some ((),{ w with regs := DISABLE_IEP_TMR w.regs })
  | .read_pin pin, input, w => some (input.r31 &&& pin,w)
  | .assert_pin _, _, w =>
    some ((),{ w with starts := w.starts ++ [⟨w.counted,w.last_counted,w.rounds.length⟩] })
  | .deassert_pin _, _, w => some ((),w)
  | .trig_intc _, _, w => some ((),w)
  | .halt, _, _ => none
  | .send a, input, w => some (input.answers a,w)
  | .receive a, input, w => some (input.answers a,w)

def enter : Block → World → World
  | .test _ l, w =>
    if l.first then w
    else { w with guards := w.guards ++ [⟨w.counted,w.last_counted,l.ts,l.last_ts⟩] }
  | .poll _ _, w => { w with synced_ts_ns := w.time.ts_ns }
  | _, w => w

def system : System Access Access.Answer Block Input World where
  act := act
  body := body
  enter := enter
  starts := by
    intro b
    cases b with
    | top g l => simp only [body]; split <;> rfl
    | test g l => simp only [body]; split <;> rfl
    | polled g l => simp only [body]; split <;> rfl
    | _ => rfl

/-- The memory before `main`, which holds anything. -/
def initial (time : iep_time) (regs : iep_regs) : World := ⟨time,regs,time.ts_ns.toNat,[],[],[],[],0,none⟩

end NeslPru.MeasureSync
