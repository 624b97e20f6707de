import NeslPru.HostQot
import NeslPru.MeasureSync
import NeslPru.RbufferChannel
import NeslPru.ReportPairs

/-!
The synchronisation of `measure_time_sync` from end to end. Each pulse of the PRU
makes two events, one for each edge, and the thread of the host sends the
timestamps of both. A round takes the first timestamp that it finds, so that the
falling edge of one pulse is taken for the rising edge of the next.
-/
namespace NeslPru.MeasureSyncEdges
open NeslPru.Access NeslPru.RelyGuarantee NeslPru.HostQot NeslPru.RbufferQueue NeslPru.RbufferAtomic
open NeslPru.RbufferChannel
open NeslPru.Rbuffer hiding Access
open NeslPru.MeasureSync (Globals Locals check_input_pin)
set_option linter.unusedSimpArgs false

/-- `edges` makes the events of channel 1. -/
inductive Party where
  | pru
  | send
  | edges
deriving DecidableEq

inductive Access where
  | pru (a : MeasureSync.Access)
  | read_event
  | ring (a : Rbuffer.Access)
  | edge

@[reducible] def Access.Answer : Access → Type
  | .pru a => a.Answer
  | .read_event => ReadResult
  | .ring a => a.Answer
  | .edge => Unit

inductive Block where
  | pru (b : MeasureSync.Block)
  | took (g : Globals) (l : Locals) (host_ts : UInt64) (status : Int16)
  | send (i : Int32)
  | wrote (i : Int32) (nano_ts : UInt64) (status : Int16)
  | edge

open Prog (call)

/-- A program of the PRU. -/
def onPru {α : Type} (p : Prog MeasureSync.Access MeasureSync.Access.Answer α) : Prog Access Access.Answer α :=
  p.embed .pru (fun _ r => r)

/-- The read of a poll. -/
def take (g : Globals) (l : Locals) : Prog Access Access.Answer Block := do
  let (host_ts,status) ← (rbuf_read_uint64 (some l.status)).embed (fun a => Access.pru (.receive a)) (fun _ r => r)
  return .took g l host_ts (status.getD l.status)

/-- The PRU, cut as before and after the read of each poll. -/
def pru : MeasureSync.Block → Prog Access Access.Answer Block
  | .poll g l => take g l
  | .polled g l => if l.status ≠ 0 then take g l else onPru (MeasureSync.body (.polled g l)) >>= fun b => .ret (.pru b)
  | b => onPru (MeasureSync.body b) >>= fun b => .ret (.pru b)

/-- One pass of `send_pru_thread`; what it prints is the matter of `ReportPairs`.
    A read that succeeds stores the index of the event as the channel. -/
def send_pru_thread (i : Int32) : Prog Access Access.Answer Block := do
  let result : ReadResult ← call Access.read_event
  let (nano_ts,_) := qot_read_event_ts result 0
  let channel := result.event.index.toInt32
  if channel = 0 then
    let status ← (rbuf_write_uint64 nano_ts).embed Access.ring (fun _ r => r)
    return .wrote i nano_ts status
  else if channel = 1 then
    return .send (i + 1)
  else
    return .send i

def body : Block → Prog Access Access.Answer Block
  | .pru b => pru b
  | .took g l host_ts status =>
    onPru (check_input_pin g) >>= fun g => .ret (.pru (.polled g { l with host_ts := host_ts, status := status }))
  | .send i => send_pru_thread i
  | .wrote i _ _ => send_pru_thread i
  | .edge => do
    call Access.edge
    return .edge

/-- Where the polls are cut makes no difference to what the PRU does. -/
theorem take_cut (g : Globals) (l : Locals) :
    onPru (MeasureSync.poll g l) >>= (fun b => .ret (.pru b)) =
      take g l >>= fun b => match b with
        | .took g l host_ts status => body (.took g l host_ts status)
        | b => .ret b := by
  simp only [MeasureSync.poll,MeasureSync.onReceive,take,onPru,Prog.embed_bind,Prog.bind_assoc,Prog.embed_embed]
  congr 1

/-- What the thread writes, and how it counts the events of channel 1, are as in `send_pru`. -/
theorem send_pru_written (g : ReportPairs.Shared) (i channel : Int32) (nano_ts : UInt64) :
    (ReportPairs.send_pru g i channel nano_ts).written = (if channel = 0 then some nano_ts else none) ∧
      (ReportPairs.send_pru g i channel nano_ts).i = if channel = 0 then i else if channel = 1 then i + 1 else i := by
  unfold ReportPairs.send_pru
  split
  · exact ⟨rfl,rfl⟩
  · split
    · split
      · exact ⟨rfl,rfl⟩
      · exact ⟨rfl,rfl⟩
    · exact ⟨rfl,rfl⟩

/-- The event of an edge, and which pulse of its channel it belongs to. -/
structure Capture where
  event : ptp_extts_event
  pulse : Nat
  rising : Bool
deriving DecidableEq

def Capture.nano_ts (capture : Capture) : UInt64 := HostQot.nano_ts capture.event

/-- `queue` are the events so far, of which the thread of the host has read
    `taken`, the last of them being `last_event`. Of those on channel 0 it has
    tried to send the timestamps of `handled`, and the ring buffer has accepted
    those of `sent`. The PRU has made `pulses` and received `received`. -/
structure World where
  pru : MeasureSync.World
  rbuf : rbuffer
  queue : List Capture
  taken : Nat
  last_event : Capture
  handled : List Capture
  sent : List Capture
  pulses : Nat
  received : List UInt64

/-- What the devices of the PRU answer, and the time of an edge. -/
structure Input where
  pru : MeasureSync.Input
  t : ptp_clock_time

def World.capture (w : World) (t : ptp_clock_time) (index : UInt32) (pulse : Nat) (rising : Bool) : World :=
  { w with queue := w.queue ++ [⟨⟨t,index⟩,pulse,rising⟩] }

/-- The events of a channel. -/
def channel (index : UInt32) (queue : List Capture) : List Capture := queue.filter fun capture => capture.event.index = index

/-- Both edges of a pulse of the PRU are captured on channel 0, and rising and
    falling edges alternate on channel 1. Reading an event waits for one and succeeds. -/
def act : (a : Access) → Input → World → Option (a.Answer × World)
  | .pru (.receive a), _, w => some ((memory a w.rbuf).1,{ w with rbuf := (memory a w.rbuf).2 })
  | .pru (.assert_pin _), input, w => some ((),{ w.capture input.t 0 w.pulses true with pulses := w.pulses + 1 })
  | .pru (.deassert_pin _), input, w => some ((),w.capture input.t 0 (w.pulses - 1) false)
  | .pru a, input, w => (MeasureSync.act a input.pru w.pru).map fun (r,pru) => (r,{ w with pru := pru })
  | .read_event, _, w =>
    match w.queue[w.taken]? with
    | some capture => some (⟨sizeof_event,capture.event⟩,{ w with taken := w.taken + 1, last_event := capture })
    | none => none
  | .ring a, _, w => some ((memory a w.rbuf).1,{ w with rbuf := (memory a w.rbuf).2 })
  | .edge, input, w =>
    let n := (channel 1 w.queue).length
    some ((),w.capture input.t 1 (n / 2) (n % 2 = 0))

def enter : Block → World → World
  | .pru b, w => { w with pru := MeasureSync.enter b w.pru }
  | .took _ _ host_ts status, w => if status = 0 then { w with received := w.received ++ [host_ts] } else w
  | .wrote _ _ status, w =>
    { w with
      handled := w.handled ++ [w.last_event]
      sent := if status = 0 then w.sent ++ [w.last_event] else w.sent }
  | _, w => w

theorem pru_isAccess (b : MeasureSync.Block) : (pru b).isAccess = true := by
  have embedded : ∀ b, (onPru (MeasureSync.body b) >>= fun b => .ret (Block.pru b)).isAccess = true := by
    intro b
    apply Prog.isAccess_bind
    rw [onPru,Prog.isAccess_embed]
    exact MeasureSync.system.starts b
  cases b with
  | poll g l => rfl
  | polled g l =>
    simp only [pru]
    split
    · rfl
    · exact embedded _
  | _ => exact embedded _

def system : System Access Access.Answer Block Input World where
  act := act
  body := body
  enter := enter
  starts := by
    intro b
    cases b with
    | pru b => exact pru_isAccess b
    | _ => rfl

def first : Party → Block
  | .pru => .pru .main
  | .send => .send 1
  | .edges => .edge

/-- Nothing has been captured, and the host has initialised the ring buffer to the PRU. -/
def initial (time : Iep.iep_time) (regs : Iep.iep_regs) : World where
  pru := MeasureSync.initial time regs
  rbuf := fresh
  queue := []
  taken := 0
  last_event := ⟨⟨⟨0,0⟩,0⟩,0,false⟩
  handled := []
  sent := []
  pulses := 0
  received := []

/-- The timestamps that the clock has been set to, in order. -/
def consumed (w : World) : List UInt64 := w.pru.rounds.map MeasureSync.Round.host_ts

/-- Each round takes the timestamp of the rising edge of its own pulse, and none
    is left of a pulse whose round has taken one. -/
structure Synchronised (w : World) : Prop where
  adjusted : consumed w <+: w.received
  rounds : ∀ k ts, w.received[k]? = some ts → ∃ capture : Capture, w.sent[k]? = some capture ∧
    capture.nano_ts = ts ∧ capture.pulse = k ∧ capture.rising = true
  none_stale : ∀ capture ∈ w.sent.drop w.received.length, w.received.length ≤ capture.pulse

/-- The first two events are always sent. -/
structure Inv (w : World) : Prop where
  carries : Carries w.rbuf (w.sent.map Capture.nano_ts) w.received
  first_two : w.sent.take 2 = w.handled.take 2
  handled_first : w.handled <+: channel 0 w.queue
  edges : ∀ k capture, (channel 0 w.queue)[k]? = some capture → capture.pulse = k / 2 ∧ capture.rising = decide (k % 2 = 0)
  consumed_first : consumed w <+: w.received

/-- What only the PRU changes and what it knows of. -/
structure View where
  pulses : Nat
  captured : Nat
  received : List UInt64
  consumed : List UInt64

def view (w : World) : View := ⟨w.pulses,(channel 0 w.queue).length,w.received,consumed w⟩

/-- Between two rounds. -/
def Idle (v : View) : Prop := v.pulses = v.received.length ∧ v.captured = 2 * v.pulses ∧ v.consumed = v.received

/-- After the pulse of a round. -/
def Awaits (v : View) : Prop := v.pulses = v.received.length + 1 ∧ v.captured = 2 * v.pulses ∧ v.consumed = v.received

/-- After the timestamp of a round. -/
def Received (host_ts : UInt64) (v : View) : Prop :=
  v.pulses = v.received.length ∧ v.captured = 2 * v.pulses ∧ v.consumed ++ [host_ts] = v.received

/-- What the PRU knows at the start of a block. -/
def PruKnows : MeasureSync.Block → View → Prop
  | .poll _ _, v => Awaits v
  | .polled _ l, v => if l.status = 0 then Received l.host_ts v else Awaits v
  | _, v => Idle v

/-- The thread has handled what it has read. -/
def Handled (w : World) : Prop := w.taken ≤ w.queue.length ∧ w.handled = channel 0 (w.queue.take w.taken)

def Knows : Party → Block → World → Prop
  | .pru, .pru b, w => PruKnows b (view w)
  | .pru, .took _ _ host_ts status, w => if status = 0 then Received host_ts (view w) else Awaits (view w)
  | .send, .send _, w => Handled w
  | .send, .wrote _ _ _, w => Handled w
  | .edges, .edge, _ => True
  | _, _, _ => False

/-- What the other parties may do. -/
def Rely : Party → World → World → Prop
  | .pru, w, w' => w'.pru = w.pru ∧ w'.pulses = w.pulses ∧ w'.received = w.received ∧
      channel 0 w'.queue = channel 0 w.queue ∧ Fills w.rbuf w'.rbuf
  | .send, w, w' => w'.taken = w.taken ∧ w'.last_event = w.last_event ∧ w'.handled = w.handled ∧ w'.sent = w.sent ∧
      w.queue <+: w'.queue ∧ Drains w.rbuf w'.rbuf
  | .edges, _, _ => True

def outline : Outline Party system where
  inv := Inv
  rely := Rely
  guar i _ w w' := ∀ j, j ≠ i → Rely j w w'
  pre := Knows
  refl i w := by cases i <;> simp [Rely,fills_refl,drains_refl]
  trans i w w' w'' := by
    cases i
    · rintro ⟨pru,pulses,received,queue,fills⟩ ⟨pru',pulses',received',queue',fills'⟩
      exact ⟨pru'.trans pru,pulses'.trans pulses,received'.trans received,queue'.trans queue,fills_trans fills fills'⟩
    · rintro ⟨taken,last,handled,sent,queue,drains⟩ ⟨taken',last',handled',sent',queue',drains'⟩
      exact ⟨taken'.trans taken,last'.trans last,handled'.trans handled,sent'.trans sent,queue.trans queue',
        drains_trans drains drains'⟩
    · exact fun _ _ => trivial
  compat other kept := kept _ (Ne.symm other)

variable {w w' : World}

/-- Of what the PRU does only the thread sees something. -/
theorem seen_by_send (seen : Rely .send w w') : ∀ j, j ≠ .pru → Rely j w w' := by
  rintro (_ | _ | _) other
  · exact absurd rfl other
  · exact seen
  · exact trivial

/-- Of what the thread does only the PRU sees something. -/
theorem seen_by_pru (seen : Rely .pru w w') : ∀ j, j ≠ .send → Rely j w w' := by
  rintro (_ | _ | _) other
  · exact seen
  · exact absurd rfl other
  · exact trivial

/-! ### Quiet accesses of the PRU -/

/-- An access of the PRU to something else than the ring buffer, the pin of the
    pulse and the offset of the clock. -/
def Quiet : Access → Prop
  | .pru (.receive _) => False
  | .pru (.assert_pin _) => False
  | .pru (.deassert_pin _) => False
  | .pru (.iep_adj_time _ _) => False
  | .pru _ => True
  | _ => False

/-- Only the record of the PRU changes, and in it no round. -/
def SameRounds (w w' : World) : Prop := ∃ pru, w' = { w with pru := pru } ∧ pru.rounds = w.pru.rounds

theorem quiet_act {a : Access} {input : Input} {r : a.Answer} (quiet : Quiet a) (acted : act a input w = some (r,w')) :
    SameRounds w w' := by
  cases a with
  | pru a =>
    cases a with
    | receive a => exact quiet.elim
    | assert_pin pin => exact quiet.elim
    | deassert_pin pin => exact quiet.elim
    | iep_adj_time ts_ns external_ts_ns => exact quiet.elim
    | halt => cases acted
    | _ => cases acted; exact ⟨_,rfl,rfl⟩
  | _ => exact quiet.elim

theorem enter_sameRounds (b : MeasureSync.Block) (w : World) : SameRounds w (enter (.pru b) w) := by
  refine ⟨MeasureSync.enter b w.pru,rfl,?_⟩
  cases b with
  | test g l => simp only [MeasureSync.enter]; split <;> rfl
  | _ => rfl

theorem sameRounds_trans {w'' : World} (first : SameRounds w w') (second : SameRounds w' w'') : SameRounds w w'' := by
  obtain ⟨pru,rfl,same⟩ := first
  obtain ⟨pru',rfl,same'⟩ := second
  exact ⟨pru',rfl,same'.trans same⟩

theorem sameRounds_view (same : SameRounds w w') : view w' = view w := by
  obtain ⟨pru,rfl,rounds⟩ := same
  simp only [view,consumed,rounds]

theorem sameRounds_keeps (inv : Inv w) (same : SameRounds w w') : Inv w' ∧ ∀ j, j ≠ .pru → Rely j w w' := by
  obtain ⟨pru,rfl,rounds⟩ := same
  refine ⟨⟨inv.carries,inv.first_two,inv.handled_first,inv.edges,?_⟩,?_⟩
  · show pru.rounds.map MeasureSync.Round.host_ts <+: w.received
    rw [rounds]
    exact inv.consumed_first
  · exact seen_by_send (outline.refl .send w)

theorem rely_view (relied : Rely .pru w w') : view w' = view w := by
  obtain ⟨pru,pulses,received,queue,_⟩ := relied
  simp only [view,consumed,pru,pulses,received,queue]

/-- A quiet program of the PRU that goes on with a block that the PRU may enter. -/
theorem quiet_sat {K : View → Prop} {P : Block → Prop} {p : Prog Access Access.Answer Block} (only : p.Only Quiet P)
    (more : p.isAccess = true) (ends : ∀ b, P b → ∃ c, b = .pru c ∧ ∀ v, K v → PruKnows c v) (knows : K (view w)) :
    outline.Sat .pru p w := by
  refine outline.sat_only (fun w => K (view w)) ?_ ?_ ?_ only more knows
  · intro w w' knows relied _
    rw [rely_view relied]
    exact knows
  · intro a input w r t quiet knows inv acted
    have same := quiet_act quiet acted
    obtain ⟨inv',others⟩ := sameRounds_keeps inv same
    rw [sameRounds_view same]
    exact ⟨knows,inv',others⟩
  · intro b a input w r t returned quiet knows inv acted
    obtain ⟨c,rfl,leads⟩ := ends b returned
    have same := sameRounds_trans (quiet_act quiet acted) (enter_sameRounds c t)
    obtain ⟨inv',others⟩ := sameRounds_keeps inv same
    refine ⟨inv',others,?_⟩
    show PruKnows c (view (enter (.pru c) t))
    rw [sameRounds_view same]
    exact leads _ knows

/-- A program on the other ring buffer. -/
theorem send_only {α : Type} (p : RingProg α) :
    (MeasureSync.onSend p).Only (fun a => Quiet (.pru a)) (fun _ => True) :=
  Prog.only_embed (Prog.only_any (fun _ => trivial) p)

theorem check_only (g : Globals) : (check_input_pin g).Only (fun a => Quiet (.pru a)) (fun _ => True) := by
  simp only [check_input_pin,Prog.call_bind]
  refine ⟨trivial,fun (pin : UInt32) => ?_⟩
  by_cases low : g.input_high = false
  · simp only [low,↓reduceIte]
    by_cases up : pin = 0
    · rw [if_neg (not_not.mpr up)]
      exact trivial
    · rw [if_pos up]
      refine ⟨trivial,fun ts => ?_⟩
      exact Prog.only_bind (send_only _) (fun _ _ => ⟨trivial,fun _ => trivial⟩)
  · simp only [low,↓reduceIte]
    by_cases up : pin = 0
    · rw [if_pos up]
      exact trivial
    · rw [if_neg up]
      exact trivial

/-- The block of the PRU that a program of it returns. -/
def Leads (P : MeasureSync.Block → Prop) (b : Block) : Prop := ∃ c, b = .pru c ∧ P c

theorem onPru_only {P : MeasureSync.Block → Prop} {p : Prog MeasureSync.Access MeasureSync.Access.Answer MeasureSync.Block}
    (only : p.Only (fun a => Quiet (.pru a)) P) : (onPru p >>= fun b => .ret (.pru b)).Only Quiet (Leads P) :=
  Prog.only_bind (Prog.only_embed only) (fun b leads => ⟨b,rfl,leads⟩)

variable {g : Globals} {l : Locals}

theorem onPru_isAccess {α : Type} {p : Prog MeasureSync.Access MeasureSync.Access.Answer α}
    {f : α → Prog Access Access.Answer Block} (more : p.isAccess = true) : (onPru p >>= f).isAccess = true :=
  Prog.isAccess_bind f (by rwa [onPru,Prog.isAccess_embed])

theorem check_isAccess (g : Globals) : (check_input_pin g).isAccess = true := rfl

/-- The rest of a poll. -/
theorem took_sat {host_ts : UInt64} {status : Int16} (knows : Knows .pru (.took g l host_ts status) w) :
    outline.Sat .pru (body (.took g l host_ts status)) w := by
  have only : (body (.took g l host_ts status)).Only Quiet
      (Leads fun b => ∃ g, b = .polled g { l with host_ts := host_ts, status := status }) :=
    Prog.only_bind (Prog.only_embed (check_only g)) (fun g _ => ⟨_,rfl,g,rfl⟩)
  refine quiet_sat (K := fun v => if status = 0 then Received host_ts v else Awaits v) only
    (onPru_isAccess (check_isAccess g)) ?_ knows
  rintro _ ⟨_,rfl,g,rfl⟩
  exact ⟨_,rfl,fun _ => id⟩

/-- The end of the outer loop. -/
theorem last_check_sat (idle : Idle (view w)) :
    outline.Sat .pru (onPru (MeasureSync.last_check g l) >>= fun b => .ret (.pru b)) w := by
  have only : (MeasureSync.last_check g l).Only (fun a => Quiet (.pru a)) (fun b => ∃ g, b = .top g l) :=
    Prog.only_bind (check_only g) (fun g _ => ⟨g,rfl⟩)
  refine quiet_sat (K := Idle) (onPru_only only) (onPru_isAccess rfl) ?_ idle
  rintro _ ⟨_,rfl,g,rfl⟩
  exact ⟨_,rfl,fun _ => id⟩

theorem main_sat (idle : Idle (view w)) : outline.Sat .pru (pru .main) w := by
  have only : (MeasureSync.body .main).Only (fun a => Quiet (.pru a)) (fun b => ∃ g l, b = .top g l) :=
    Prog.only_bind (send_only _) (fun _ _ => ⟨trivial,fun _ => ⟨_,_,rfl⟩⟩)
  refine quiet_sat (K := Idle) (onPru_only only) (onPru_isAccess rfl) ?_ idle
  rintro _ ⟨_,rfl,g,l,rfl⟩
  exact ⟨_,rfl,fun _ => id⟩

theorem top_sat (idle : Idle (view w)) : outline.Sat .pru (pru (.top g l)) w := by
  have only : (MeasureSync.body (.top g l)).Only (fun a => Quiet (.pru a))
      (fun b => (∃ l, b = .test g l) ∨ b = .halted) := by
    simp only [MeasureSync.body,MeasureSync.terminate]
    split
    · exact ⟨trivial,fun ts => .inl ⟨_,rfl⟩⟩
    · exact ⟨trivial,fun _ => ⟨trivial,fun _ => ⟨trivial,fun _ => .inr rfl⟩⟩⟩
  refine quiet_sat (K := Idle) (onPru_only only) (onPru_isAccess (MeasureSync.system.starts (.top g l))) ?_ idle
  rintro _ ⟨_,rfl,⟨l,rfl⟩ | rfl⟩
  · exact ⟨_,rfl,fun _ => id⟩
  · exact ⟨_,rfl,fun _ => id⟩

theorem halted_sat (idle : Idle (view w)) : outline.Sat .pru (pru .halted) w := by
  have only : (MeasureSync.body .halted).Only (fun a => Quiet (.pru a)) (fun b => b = .halted) :=
    ⟨trivial,fun _ => rfl⟩
  refine quiet_sat (K := Idle) (onPru_only only) (onPru_isAccess rfl) ?_ idle
  rintro _ ⟨_,rfl,rfl⟩
  exact ⟨_,rfl,fun _ => id⟩

/-! ### The rounds of the PRU -/

/-- A captured edge joins the events of its channel. -/
theorem channel_capture (w : World) (t : ptp_clock_time) (index index' : UInt32) (pulse : Nat) (rising : Bool) :
    channel index' (w.capture t index pulse rising).queue =
      channel index' w.queue ++ if index = index' then [⟨⟨t,index⟩,pulse,rising⟩] else [] := by
  unfold channel World.capture
  rw [List.filter_append]
  by_cases same : index = index'
  · simp [same]
  · simp [same]

theorem channel_capture_zero (w : World) (t : ptp_clock_time) (pulse : Nat) (rising : Bool) :
    channel 0 (w.capture t 0 pulse rising).queue = channel 0 w.queue ++ [⟨⟨t,0⟩,pulse,rising⟩] :=
  channel_capture w t 0 0 pulse rising

/-- The next edge of the pin belongs to the pulse that it should. -/
theorem capture_keeps (t : ptp_clock_time) (pulse pulses : Nat) (rising : Bool) {n : Nat} (inv : Inv w)
    (many : (channel 0 w.queue).length = n) (pulse_is : pulse = n / 2) (rising_is : rising = decide (n % 2 = 0)) :
    let w' := { w.capture t 0 pulse rising with pulses := pulses }
    Inv w' ∧ (∀ j, j ≠ .pru → Rely j w w') ∧ view w' = ⟨pulses,n + 1,w.received,consumed w⟩ := by
  intro w'
  have queue : channel 0 w'.queue = channel 0 w.queue ++ [⟨⟨t,0⟩,pulse,rising⟩] := channel_capture_zero w t _ _
  have longer : (channel 0 w'.queue).length = n + 1 := by rw [queue,List.length_append,many,List.length_singleton]
  refine ⟨⟨inv.carries,inv.first_two,?_,?_,inv.consumed_first⟩,?_,?_⟩
  · rw [queue]
    exact inv.handled_first.trans (List.prefix_append _ _)
  · intro k capture here
    rw [queue] at here
    rcases Nat.lt_or_ge k n with before | after
    · rw [List.getElem?_append_left (by omega)] at here
      exact inv.edges k capture here
    · rw [List.getElem?_append_right (by omega),many] at here
      have last : k - n = 0 := by
        by_contra later
        rw [List.getElem?_eq_none (by simp; omega)] at here
        cases here
      obtain rfl : k = n := by omega
      rw [last] at here
      cases here
      exact ⟨pulse_is,rising_is⟩
  · exact seen_by_send ⟨rfl,rfl,rfl,rfl,List.prefix_append _ _,drains_refl _⟩
  · show View.mk pulses (channel 0 w'.queue).length w.received (consumed w) = _
    rw [longer]

/-- Between the two edges of a pulse. -/
def Half (v : View) : Prop := v.pulses = v.received.length + 1 ∧ v.captured + 1 = 2 * v.pulses ∧ v.consumed = v.received

theorem assert_keeps (inv : Inv w) (idle : Idle (view w)) (t : ptp_clock_time) :
    let w' := { w.capture t 0 w.pulses true with pulses := w.pulses + 1 }
    Inv w' ∧ (∀ j, j ≠ .pru → Rely j w w') ∧ Half (view w') := by
  obtain ⟨received,captured,consumed⟩ := idle
  have pulses : w.pulses = w.received.length := received
  obtain ⟨inv',others,seen⟩ := capture_keeps t w.pulses (w.pulses + 1) true inv captured
    (by simp [view]) (by simp [view])
  refine ⟨inv',others,?_⟩
  rw [seen]
  exact ⟨congrArg (· + 1) received,by simp only [view]; omega,consumed⟩

theorem deassert_keeps (inv : Inv w) (half : Half (view w)) (t : ptp_clock_time) :
    let w' := w.capture t 0 (w.pulses - 1) false
    Inv w' ∧ (∀ j, j ≠ .pru → Rely j w w') ∧ Awaits (view w') := by
  obtain ⟨received,captured,consumed⟩ := half
  have pulses : w.pulses = w.received.length + 1 := received
  have edges : (channel 0 w.queue).length + 1 = 2 * w.pulses := captured
  obtain ⟨inv',others,seen⟩ := capture_keeps t (w.pulses - 1) w.pulses false inv rfl
    (by omega) (by simp; omega)
  refine ⟨inv',others,?_⟩
  show Awaits (view { w.capture t 0 (w.pulses - 1) false with pulses := w.pulses })
  rw [seen]
  exact ⟨received,captured,consumed⟩

/-- The pulse of a round, and the reading of its time. -/
theorem pulse_sat {next : UInt64 → Locals} (idle : Idle (view w)) :
    outline.Sat .pru (.access (.pru (.assert_pin MeasureSync.P8_46)) fun _ =>
      .access (.pru (.deassert_pin MeasureSync.P8_46)) fun _ =>
        .access (.pru .iep_get_time) fun ts => .ret (.pru (.poll g (next ts)))) w := by
  intro w₁ input _ t relied (inv₁ : Inv w₁) acted
  cases acted
  rw [← rely_view relied] at idle
  obtain ⟨inv_t,others,half⟩ := assert_keeps inv₁ idle input.t
  refine ⟨inv_t,others,?_⟩
  intro w₂ input _ t relied (inv₂ : Inv w₂) acted
  cases acted
  rw [← rely_view relied] at half
  obtain ⟨inv_t,others,awaits⟩ := deassert_keeps inv₂ half input.t
  refine ⟨inv_t,others,?_⟩
  refine quiet_sat (K := Awaits) (P := Leads fun b => ∃ l, b = .poll g l) ⟨trivial,fun ts => ⟨_,rfl,_,rfl⟩⟩ rfl ?_ awaits
  rintro _ ⟨_,rfl,l,rfl⟩
  exact ⟨_,rfl,fun _ => id⟩

theorem test_sat (idle : Idle (view w)) : outline.Sat .pru (pru (.test g l)) w := by
  by_cases go : MeasureSync.starts l = true
  · have code : pru (.test g l) = .access (.pru (.assert_pin MeasureSync.P8_46)) fun _ =>
        .access (.pru (.deassert_pin MeasureSync.P8_46)) fun _ =>
          .access (.pru .iep_get_time) fun ts => .ret (.pru (.poll g { l with first := false, ts := ts })) := by
      simp only [pru,MeasureSync.body,go,↓reduceIte]
      rfl
    rw [code]
    exact pulse_sat idle
  · have code : pru (.test g l) = onPru (MeasureSync.last_check g l) >>= fun b => .ret (.pru b) := by
      simp only [pru,MeasureSync.body,go,Bool.false_eq_true,↓reduceIte]
    rw [code]
    exact last_check_sat idle

/-- The ring buffer to the PRU as the PRU reaches it. -/
def reader : Component system Rbuffer.Access.Answer rbuffer :=
  .of World.rbuf (fun w m => { w with rbuf := m }) (fun _ _ => rfl) (fun a => Access.pru (.receive a)) memory (fun _ _ _ => rfl)

/-- A poll receives the oldest timestamp, or there is none. -/
theorem took_keeps {m : rbuffer} {before : Int16} {result : UInt64 × Option Int16} (inv : Inv w) (awaits : Awaits (view w))
    (read : Read words 2 (some before) w.rbuf result m) :
    let b := Block.took g l result.1 (result.2.getD before)
    Inv (enter b { w with rbuf := m }) ∧ (∀ j, j ≠ .pru → Rely j w (enter b { w with rbuf := m })) ∧
      Knows .pru b (enter b { w with rbuf := m }) := by
  obtain ⟨pulses,captured,same⟩ := awaits
  rcases carries_read inv.carries read with ⟨data,rfl,carries,drains⟩ | ⟨rfl,rfl,_⟩
  · have longer : (w.received ++ [data]).length = w.pulses := by
      rw [List.length_append,List.length_singleton]
      exact pulses.symm
    refine ⟨⟨carries,inv.first_two,inv.handled_first,inv.edges,?_⟩,?_,?_⟩
    · exact inv.consumed_first.trans (List.prefix_append _ _)
    · exact seen_by_send ⟨rfl,rfl,rfl,rfl,List.prefix_refl _,drains⟩
    · exact ⟨longer.symm,captured,congrArg (· ++ [data]) same⟩
  · refine ⟨inv,?_,pulses,captured,same⟩
    intro j _
    exact outline.refl j w

theorem take_sat (awaits : Awaits (view w)) : outline.Sat .pru (take g l) w := by
  refine outline.sat_call reader (fun w => Awaits (view w)) ?_ ?_ ?_ _ (rbuf_read_uint64_atomic (some l.status) w.rbuf) awaits
  · intro w w' awaits relied inv
    rw [rely_view relied]
    exact ⟨awaits,relied.2.2.2.2,inv.carries.inBounds⟩
  · rintro a w m awaits inv ⟨rfl,_⟩
    exact ⟨awaits,inv,fun j _ => outline.refl j w⟩
  · rintro ⟨host_ts,status⟩ a w m awaits inv ⟨_,read⟩
    obtain ⟨inv',others,knows⟩ := took_keeps (g := g) (l := l) inv awaits read
    exact ⟨inv',others,knows⟩

/-- The adjustment of a round takes the timestamp that was received. -/
theorem adjust_sat (received : Received l.host_ts (view w)) :
    outline.Sat .pru (.access (.pru (.iep_adj_time l.ts l.host_ts)) fun _ =>
      .access (.pru .iep_get_time) fun last_ts => .ret (.pru (.adjusted g { l with last_ts := last_ts }))) w := by
  intro w₁ input _ t relied (inv₁ : Inv w₁) acted
  cases acted
  rw [← rely_view relied] at received
  obtain ⟨pulses,captured,last⟩ := received
  have all : (w₁.pru.rounds ++ [MeasureSync.Round.mk l.host_ts w₁.pru.synced_ts_ns]).map MeasureSync.Round.host_ts = w₁.received := by
    rw [List.map_append]
    exact last
  refine ⟨⟨inv₁.carries,inv₁.first_two,inv₁.handled_first,inv₁.edges,?_⟩,?_,?_⟩
  · show (w₁.pru.rounds ++ [MeasureSync.Round.mk l.host_ts w₁.pru.synced_ts_ns]).map MeasureSync.Round.host_ts <+: w₁.received
    rw [all]
  · exact seen_by_send (outline.refl .send w₁)
  · refine quiet_sat (K := Idle) (P := Leads fun b => ∃ l, b = .adjusted g l) ⟨trivial,fun ts => ⟨_,rfl,_,rfl⟩⟩ rfl ?_
      ⟨pulses,captured,all⟩
    rintro _ ⟨_,rfl,l,rfl⟩
    exact ⟨_,rfl,fun _ => id⟩

theorem polled_sat (knows : PruKnows (.polled g l) (view w)) : outline.Sat .pru (pru (.polled g l)) w := by
  by_cases done : l.status = 0
  · have code : pru (.polled g l) = .access (.pru (.iep_adj_time l.ts l.host_ts)) fun _ =>
        .access (.pru .iep_get_time) fun last_ts => .ret (.pru (.adjusted g { l with last_ts := last_ts })) := by
      simp only [pru,MeasureSync.body,done,ne_eq,not_true_eq_false,↓reduceIte]
      rfl
    rw [code]
    simp only [PruKnows,done,↓reduceIte] at knows
    exact adjust_sat knows
  · simp only [pru,ne_eq,done,not_false_eq_true,↓reduceIte]
    simp only [PruKnows,done,↓reduceIte] at knows
    exact take_sat knows

/-! ### The thread of the host -/

/-- The thread has read an event of channel 0 and not yet sent its timestamp. -/
def Writing (w : World) : Prop :=
  w.taken ≤ w.queue.length ∧ w.handled ++ [w.last_event] = channel 0 (w.queue.take w.taken)

theorem rely_taken (relied : Rely .send w w') (few : w.taken ≤ w.queue.length) :
    w'.taken ≤ w'.queue.length ∧ w'.queue.take w'.taken = w.queue.take w.taken := by
  obtain ⟨taken,_,_,_,⟨more,queue⟩,_⟩ := relied
  rw [taken,← queue]
  constructor
  · rw [List.length_append]
    omega
  · exact List.take_append_of_le_length few

theorem handled_rely (relied : Rely .send w w') (handled : Handled w) : Handled w' := by
  obtain ⟨few,same⟩ := rely_taken relied handled.1
  refine ⟨few,?_⟩
  rw [same,relied.2.2.1]
  exact handled.2

theorem writing_rely (relied : Rely .send w w') (writing : Writing w) : Writing w' := by
  obtain ⟨few,same⟩ := rely_taken relied writing.1
  refine ⟨few,?_⟩
  rw [same,relied.2.2.1,relied.2.1]
  exact writing.2

theorem take_concat {α : Type} {n : Nat} {xs ys : List α} (same : xs.take n = ys.take n) (x : α) :
    (xs ++ [x]).take n = (ys ++ [x]).take n := by
  have lengths := congrArg List.length same
  rw [List.length_take,List.length_take] at lengths
  have rest : n - xs.length = n - ys.length := by omega
  rw [List.take_append,List.take_append,same,rest]

/-- A timestamp is refused only when many others wait. -/
theorem wrote_keeps {m : rbuffer} {i : Int32} {status : Int16} (inv : Inv w) (writing : Writing w)
    (wrote : Wrote (words w.last_event.nano_ts) w.rbuf status m) :
    let b := Block.wrote i w.last_event.nano_ts status
    Inv (enter b { w with rbuf := m }) ∧ (∀ j, j ≠ .send → Rely j w (enter b { w with rbuf := m })) ∧
      Handled (enter b { w with rbuf := m }) := by
  obtain ⟨few,last⟩ := writing
  have handled_first : w.handled ++ [w.last_event] <+: channel 0 w.queue := by
    rw [last]
    exact (List.take_prefix _ _).filter _
  rcases carries_wrote inv.carries wrote with ⟨rfl,carries,fills⟩ | ⟨rfl,rfl,full⟩
  · rw [← List.map_singleton,← List.map_append] at carries
    refine ⟨⟨carries,?_,handled_first,inv.edges,inv.consumed_first⟩,?_,few,last⟩
    · exact take_concat inv.first_two w.last_event
    · exact seen_by_pru ⟨rfl,rfl,rfl,rfl,fills⟩
  · have many : 2 ≤ w.handled.length := by
      obtain ⟨waiting,_⟩ := carries_queued inv.carries
      have lengths := congrArg List.length inv.first_two
      rw [List.length_take,List.length_take] at lengths
      rw [List.length_map] at waiting
      omega
    refine ⟨⟨inv.carries,?_,handled_first,inv.edges,inv.consumed_first⟩,?_,few,last⟩
    · show w.sent.take 2 = (w.handled ++ [w.last_event]).take 2
      rw [List.take_append_of_le_length many]
      exact inv.first_two
    · exact seen_by_pru (outline.refl .pru w)

/-- The ring buffer to the PRU as the host reaches it. -/
def writer : Component system Rbuffer.Access.Answer rbuffer :=
  .of World.rbuf (fun w m => { w with rbuf := m }) (fun _ _ => rfl) Access.ring memory (fun _ _ _ => rfl)

theorem write_sat {i : Int32} {nano_ts : UInt64} (writing : Writing w) (value : w.last_event.nano_ts = nano_ts) :
    outline.Sat .send ((rbuf_write_uint64 nano_ts).embed Access.ring (fun _ r => r) >>=
      fun status => .ret (.wrote i nano_ts status)) w := by
  refine outline.sat_call writer (fun w => Writing w ∧ w.last_event.nano_ts = nano_ts) ?_ ?_ ?_ _
    (rbuf_write_uint64_atomic nano_ts w.rbuf) ⟨writing,value⟩
  · rintro w w' ⟨writing,value⟩ relied inv
    refine ⟨⟨writing_rely relied writing,?_⟩,relied.2.2.2.2.2,inv.carries.inBounds⟩
    rw [relied.2.1]
    exact value
  · rintro a w m here inv unseen
    refine ⟨here,⟨carries_unseen inv.carries unseen,inv.first_two,inv.handled_first,inv.edges,inv.consumed_first⟩,?_⟩
    exact seen_by_pru ⟨rfl,rfl,rfl,rfl,unseen_fills unseen⟩
  · rintro status a w m ⟨writing,rfl⟩ inv ⟨_,wrote⟩
    exact wrote_keeps (i := i) inv writing wrote

theorem toInt32_eq_zero {index : UInt32} : index.toInt32 = 0 ↔ index = 0 := by
  constructor
  · intro same
    exact congrArg Int32.toUInt32 same
  · rintro rfl
    rfl

/-- The events of a channel among one event more. -/
theorem channel_take {queue : List Capture} {taken : Nat} {capture : Capture} (here : queue[taken]? = some capture)
    (index : UInt32) :
    channel index (queue.take (taken + 1)) =
      channel index (queue.take taken) ++ if capture.event.index = index then [capture] else [] := by
  unfold channel
  rw [List.take_add_one,here,List.filter_append]
  by_cases same : capture.event.index = index
  · simp [same]
  · simp [same]

/-- The thread takes the next event. -/
theorem send_sat {i : Int32} (handled : Handled w) : outline.Sat .send (send_pru_thread i) w := by
  intro w₁ _ r t relied (inv₁ : Inv w₁) acted
  obtain ⟨few,all⟩ := handled_rely relied handled
  simp only [system,act] at acted
  cases here : w₁.queue[w₁.taken]? with
  | none => simp [here] at acted
  | some capture =>
    rw [here] at acted
    cases acted
    have more := channel_take here 0
    have inside : w₁.taken + 1 ≤ w₁.queue.length := (List.getElem?_eq_some_iff.mp here).1
    have inv : Inv { w₁ with taken := w₁.taken + 1, last_event := capture } :=
      ⟨inv₁.carries,inv₁.first_two,inv₁.handled_first,inv₁.edges,inv₁.consumed_first⟩
    have others : ∀ j, j ≠ .send → Rely j w₁ { w₁ with taken := w₁.taken + 1, last_event := capture } :=
      seen_by_pru ⟨rfl,rfl,rfl,rfl,fills_refl _⟩
    have channel_zero : capture.event.index.toInt32 = 0 ↔ capture.event.index = 0 := toInt32_eq_zero
    simp only [send_pru_thread,Prog.bind]
    by_cases sync : capture.event.index = 0
    · rw [if_pos (channel_zero.mpr sync)]
      rw [if_pos sync,← all] at more
      exact ⟨inv,others,write_sat ⟨inside,more.symm⟩ rfl⟩
    · rw [if_neg (mt channel_zero.mp sync)]
      rw [if_neg sync,List.append_nil,← all] at more
      by_cases report : capture.event.index.toInt32 = 1
      · rw [if_pos report]
        exact ⟨inv,others,inside,more.symm⟩
      · rw [if_neg report]
        exact ⟨inv,others,inside,more.symm⟩

theorem edge_sat : outline.Sat .edges (body .edge) w := by
  intro w₁ input _ t _ (inv₁ : Inv w₁) acted
  cases acted
  have same : ∀ pulse rising, channel 0 (w₁.capture input.t 1 pulse rising).queue = channel 0 w₁.queue := by
    intro pulse rising
    rw [channel_capture]
    exact List.append_nil _
  refine ⟨⟨inv₁.carries,inv₁.first_two,?_,?_,inv₁.consumed_first⟩,?_,trivial⟩
  · show w₁.handled <+: channel 0 (w₁.capture input.t 1 _ _).queue
    rw [same]
    exact inv₁.handled_first
  · intro k capture here
    exact inv₁.edges k capture ((congrArg (·[k]?) (same _ _)).symm.trans here)
  · rintro (_ | _ | _) other
    · exact ⟨rfl,rfl,rfl,same _ _,fills_refl _⟩
    · exact ⟨rfl,rfl,rfl,rfl,List.prefix_append _ _,drains_refl _⟩
    · exact absurd rfl other

theorem bodies_proved : outline.Proved := by
  intro i b w inv knows
  show outline.Sat i (body b) w
  cases i with
  | pru =>
    cases b with
    | pru b =>
      cases b with
      | main => exact main_sat knows
      | top g l => exact top_sat knows
      | test g l => exact test_sat knows
      | poll g l => exact take_sat knows
      | polled g l => exact polled_sat knows
      | adjusted g l => exact last_check_sat knows
      | halted => exact halted_sat knows
    | took g l host_ts status => exact took_sat knows
    | _ => exact knows.elim
  | send =>
    cases b with
    | send i => exact send_sat knows
    | wrote i nano_ts status => exact send_sat knows
    | _ => exact knows.elim
  | edges =>
    cases b with
    | edge => exact edge_sat
    | _ => exact knows.elim

theorem run_inv (time : Iep.iep_time) (regs : Iep.iep_regs) (schedule : List (Party × Input)) :
    Inv (system.run (system.start (initial time regs) first) schedule).shared := by
  refine (outline.sound bodies_proved ?_ ?_ schedule).inv
  · constructor
    · exact carries_fresh
    · rfl
    · exact List.prefix_rfl
    · intro _ _ here
      simp [initial,channel] at here
    · exact List.prefix_rfl
  · intro i
    cases i with
    | pru => exact ⟨rfl,rfl,rfl⟩
    | send => exact ⟨Nat.le_refl 0,rfl⟩
    | edges => exact trivial

/-! ### The edges of the pulses -/

/-- The first two timestamps are those of the two edges of the first pulse. -/
theorem sent_early (inv : Inv w) {k : Nat} {capture : Capture} (early : k < 2) (here : w.sent[k]? = some capture) :
    capture.pulse = 0 ∧ capture.rising = decide (k = 0) := by
  have handled : w.handled[k]? = some capture := by
    rw [← List.getElem?_take_of_lt early,← inv.first_two,List.getElem?_take_of_lt early]
    exact here
  have captured := List.prefix_iff_getElem?.mp inv.handled_first k (List.getElem?_eq_some_iff.mp handled).1
  rw [← List.getElem?_eq_getElem,handled] at captured
  obtain ⟨pulse,rising⟩ := inv.edges k capture captured
  constructor
  · omega
  · rw [rising]
    congr 1
    have : k % 2 = 0 ↔ k = 0 := by omega
    exact propext this

/-- What has been received are the timestamps that were sent first. -/
theorem received_sent (inv : Inv w) {k : Nat} {ts : UInt64} (here : w.received[k]? = some ts) :
    ∃ capture : Capture, w.sent[k]? = some capture ∧ capture.nano_ts = ts := by
  obtain ⟨inside,same⟩ := List.getElem?_eq_some_iff.mp here
  have sent := List.prefix_iff_getElem?.mp (carries_isPrefix inv.carries) k inside
  rw [same,List.getElem?_map] at sent
  exact Option.map_eq_some_iff.mp sent

theorem received_le (inv : Inv w) : w.received.length ≤ w.sent.length := by
  have := (carries_isPrefix inv.carries).length_le
  rwa [List.length_map] at this

/-- The first two events that are handled are both sent. -/
theorem handled_le_one (inv : Inv w) : w.handled.length ≤ 1 ↔ w.sent.length ≤ 1 := by
  have same := congrArg List.length inv.first_two
  rw [List.length_take,List.length_take] at same
  omega

/-- The falling edge of the first pulse has been taken for the second one, or waits for it. -/
theorem not_synchronised (inv : Inv w) (first_taken : 0 < w.received.length) (second_sent : 1 < w.sent.length) :
    ¬ Synchronised w := by
  intro synchronised
  obtain ⟨pulse,falling⟩ := sent_early inv (k := 1) (by omega) (List.getElem?_eq_getElem second_sent)
  by_cases taken : 1 < w.received.length
  · obtain ⟨capture,here,_,_,rising⟩ := synchronised.rounds 1 _ (List.getElem?_eq_getElem taken)
    rw [List.getElem?_eq_getElem second_sent] at here
    cases here
    rw [falling] at rising
    cases rising
  · have waits : w.sent[1] ∈ w.sent.drop w.received.length := by
      have one : w.received.length = 1 := by omega
      rw [one]
      exact List.mem_drop_iff_getElem.mpr ⟨0,by omega,rfl⟩
    have later := synchronised.none_stale _ waits
    omega

theorem early_synchronised (inv : Inv w) (early : w.received.length = 0 ∨ w.sent.length ≤ 1) : Synchronised w := by
  have received := received_le inv
  refine ⟨inv.consumed_first,?_,?_⟩
  · intro k ts here
    have inside := (List.getElem?_eq_some_iff.mp here).1
    obtain rfl : k = 0 := by omega
    obtain ⟨capture,sent,value⟩ := received_sent inv here
    obtain ⟨pulse,rising⟩ := sent_early inv (by omega) sent
    exact ⟨capture,sent,value,pulse,rising⟩
  · intro capture member
    have waits := List.length_pos_of_mem member
    rw [List.length_drop] at waits
    omega

theorem inv_synchronised_iff (inv : Inv w) : Synchronised w ↔ w.received.length = 0 ∨ w.handled.length ≤ 1 := by
  rw [handled_le_one inv]
  constructor
  · intro synchronised
    by_contra both
    obtain ⟨first_taken,second_sent⟩ := not_or.mp both
    exact not_synchronised inv (Nat.pos_of_ne_zero first_taken) (not_le.mp second_sent) synchronised
  · exact early_synchronised inv

/-- However the PRU, the host and the events interleave, the rounds are
    synchronised for as long as none has taken its timestamp, or the thread has
    come to no other event of channel 0 than the rising edge of the first pulse. -/
theorem synchronised_iff (time : Iep.iep_time) (regs : Iep.iep_regs) (schedule : List (Party × Input)) :
    let w := (system.run (system.start (initial time regs) first) schedule).shared
    Synchronised w ↔ w.received.length = 0 ∨ w.handled.length ≤ 1 :=
  inv_synchronised_iff (run_inv time regs schedule)

/-- Some turns of a party, with the counter and the time of an edge at `t`. -/
def turns (n : Nat) (party : Party) (iep_cnt : UInt32) (t : ptp_clock_time) : List (Party × Input) :=
  List.replicate n (party,⟨⟨iep_cnt,0,fun a => (memory a fresh).1⟩,t⟩)

/-- A pulse of which the host sends both timestamps, the round that takes the
    first, and 12 s on the start of the next round. -/
def two_rounds : List (Party × Input) :=
  turns 6 .pru 0 ⟨1425252214,579058961⟩ ++ turns 2 .pru 20000 ⟨1425252214,579159002⟩ ++
    turns 14 .send 0 ⟨0,0⟩ ++ turns 10 .pru 20000 ⟨0,0⟩ ++
    turns 2 .pru 800000000 ⟨0,0⟩ ++ turns 2 .pru 1600000000 ⟨0,0⟩ ++
    turns 10 .pru 2400000000 ⟨1425252226,579058961⟩

def late : World := (system.run (system.start (initial ⟨0,0,0⟩ ⟨0,0⟩) first) two_rounds).shared

/-- The second round takes the falling edge of the first pulse. -/
theorem falling_edge_taken : ¬ Synchronised late := by
  intro synchronised
  obtain ⟨capture,here,_,_,rising⟩ := synchronised.rounds 1 1425252214579159002 (by decide +kernel)
  have falling : late.sent[1]? = some ⟨⟨⟨1425252214,579159002⟩,0⟩,0,false⟩ := by decide +kernel
  rw [falling] at here
  cases here
  cases rising

end NeslPru.MeasureSyncEdges
