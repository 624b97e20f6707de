import NeslPru.Alone
import NeslPru.ReportPairs

/-!
The handlers of `ReportPairs` load by load and store by store. Nothing keeps one
thread of the host from running into the handler of the other. As long as none
does, the variables and the lines are those of the handlers one after the other
(`threads_settle`).
-/
namespace NeslPru.ReportThreads
open NeslPru.Access NeslPru.RelyGuarantee NeslPru.Alone NeslPru.ReportPairs
set_option linter.unusedSimpArgs false

/-! ### The handlers -/

/-- A load or a store of a variable, or a line. -/
inductive Vars where
  | load_ts_ready
  | store_ts_ready (v : Int32)
  | load_last_pru_ts
  | store_last_pru_ts (v : UInt64)
  | load_last_host_ts
  | store_last_host_ts (v : UInt64)
  | printf (row : Row)

@[reducible] def Vars.Answer : Vars → Type
  | .load_ts_ready => Int32
  | .store_ts_ready _ => Unit
  | .load_last_pru_ts => UInt64
  | .store_last_pru_ts _ => Unit
  | .load_last_host_ts => UInt64
  | .store_last_host_ts _ => Unit
  | .printf _ => Unit

/-- The variables, and what has been printed. -/
structure Memory where
  shared : Shared
  rows : List Row

def device : (a : Vars) → Memory → a.Answer × Memory
  | .load_ts_ready, m => (m.shared.ts_ready,m)
  | .store_ts_ready v, m => ((),{ m with shared.ts_ready := v })
  | .load_last_pru_ts, m => (m.shared.last_pru_ts,m)
  | .store_last_pru_ts v, m => ((),{ m with shared.last_pru_ts := v })
  | .load_last_host_ts, m => (m.shared.last_host_ts,m)
  | .store_last_host_ts v, m => ((),{ m with shared.last_host_ts := v })
  | .printf row, m => ((),{ m with rows := m.rows ++ [row] })

open Prog (call)

/-- A handler after the store of its timestamp, as with `DEBUG`. -/
def finish (bit : Int32) : Prog Vars Vars.Answer Unit := do
  let ts_ready : Int32 ← call Vars.load_ts_ready
  call (Vars.store_ts_ready (ts_ready ||| bit))
  let ts_ready : Int32 ← call Vars.load_ts_ready
  if ts_ready = 0x3 then do
    call (Vars.store_ts_ready 0)
    let last_host_ts : UInt64 ← call Vars.load_last_host_ts
    let last_pru_ts : UInt64 ← call Vars.load_last_pru_ts
    let minuend : UInt64 ← call Vars.load_last_pru_ts
    let subtrahend : UInt64 ← call Vars.load_last_host_ts
    call (Vars.printf ⟨last_host_ts.toInt64,last_pru_ts.toInt64,(minuend - subtrahend).toInt64⟩)
  else return ()

/-- Undisturbed, the end of a handler is one step. -/
theorem finish_exec (bit : Int32) (m : Memory) :
    (finish bit).exec device m =
      let r := report { m.shared with ts_ready := m.shared.ts_ready ||| bit }
      ((),⟨r.1,m.rows ++ r.2.toList⟩) := by
  unfold finish report
  by_cases both : m.shared.ts_ready ||| bit = 0x3
  · simp [Prog.exec,device,both,row]
    simp [call,Prog.exec,device]
  · simp [Prog.exec,device,both]

/-! ### The threads -/

inductive Party where
  | receive
  | send
deriving DecidableEq

def Party.other : Party → Party
  | .receive => .send
  | .send => .receive

/-- What the thread that receives gets from the ring buffer, and the other one from the events. -/
structure Event where
  channel : Int32
  nano_ts : UInt64

inductive Access where
  | read_report
  | read_event
  | vars (a : Vars)

@[reducible] def Access.Answer : Access → Type
  | .read_report => UInt64
  | .read_event => Event
  | .vars a => a.Answer

/-- `received` and `rising` are followed by the first store of a handler,
    `stored_pru` and `stored_host` by the rest of it. -/
inductive Block where
  | receive
  | received (data : UInt64)
  | stored_pru (data : UInt64)
  | handled_report (data : UInt64)
  | send (i : Int32)
  | rising (i : Int32) (nano_ts : UInt64)
  | stored_host (i : Int32) (nano_ts : UInt64)
  | handled_edge (i : Int32) (nano_ts : UInt64)
  | falling (i : Int32) (nano_ts : UInt64)

def onVars {α : Type} (p : Prog Vars Vars.Answer α) : Prog Access Access.Answer α := p.embed .vars (fun _ r => r)

def receive : Prog Access Access.Answer Block := do
  let data : UInt64 ← call Access.read_report
  return .received data

/-- What follows an event. -/
def sort (i : Int32) (event : Event) : Block :=
  if event.channel = 0 then .send i
  else if event.channel = 1 then
    if i % 2 ≠ 0 then .rising (i + 1) event.nano_ts else .falling (i + 1) event.nano_ts
  else .send i

def send (i : Int32) : Prog Access Access.Answer Block := do
  let event : Event ← call Access.read_event
  return sort i event

def body : Block → Prog Access Access.Answer Block
  | .receive => receive
  | .received data => do
    call (Access.vars (.store_last_pru_ts data.toInt64.toUInt64))
    return .stored_pru data
  | .stored_pru data => onVars (finish 0x1) >>= fun _ => .ret (.handled_report data)
  | .handled_report _ => receive
  | .send i => send i
  | .rising i nano_ts => do
    call (Access.vars (.store_last_host_ts nano_ts))
    return .stored_host i nano_ts
  | .stored_host i nano_ts => onVars (finish 0x2) >>= fun _ => .ret (.handled_edge i nano_ts)
  | .handled_edge i _ => send i
  | .falling i _ => send i

/-- A timestamp that a thread has handled. -/
structure Handled where
  thread : Party
  ts : UInt64
deriving DecidableEq

/-- `reports` and `edges` are the timestamps that the threads have got, `handled`
    those that they have done with. `receiving` and `sending` say that a thread is
    between the first and the last access of its handler, `overlapped` that both
    have been so at once. -/
structure World where
  memory : Memory
  reports : List UInt64
  edges : List UInt64
  handled : List Handled
  receiving : Bool
  sending : Bool
  overlapped : Bool

def World.busy (w : World) : Party → Bool
  | .receive => w.receiving
  | .send => w.sending

def World.got (w : World) : Party → List UInt64
  | .receive => w.reports
  | .send => w.edges

/-- A thread gets a timestamp, makes the first access of its handler, is done with
    the timestamp. -/
def World.take (w : World) (ts : UInt64) : Party → World
  | .receive => { w with reports := w.reports ++ [ts] }
  | .send => { w with edges := w.edges ++ [ts] }

def World.begin (w : World) : Party → World
  | .receive => { w with receiving := true, overlapped := w.overlapped || w.sending }
  | .send => { w with sending := true, overlapped := w.overlapped || w.receiving }

def World.done (w : World) (ts : UInt64) : Party → World
  | .receive => { w with receiving := false, handled := w.handled ++ [⟨.receive,ts⟩] }
  | .send => { w with sending := false, handled := w.handled ++ [⟨.send,ts⟩] }

structure Input where
  data : UInt64
  event : Event

def act : (a : Access) → Input → World → Option (a.Answer × World)
  | .read_report, input, w => some (input.data,w)
  | .read_event, input, w => some (input.event,w)
  | .vars a, _, w => some ((device a w.memory).1,{ w with memory := (device a w.memory).2 })

def enter : Block → World → World
  | .received data, w => w.take data .receive
  | .stored_pru _, w => w.begin .receive
  | .handled_report data, w => w.done data .receive
  | .rising _ nano_ts, w => w.take nano_ts .send
  | .stored_host _ _, w => w.begin .send
  | .handled_edge _ nano_ts, w => w.done nano_ts .send
  | .falling _ nano_ts, w => (w.take nano_ts .send).done nano_ts .send
  | _, w => w

def system : System Access Access.Answer Block Input World where
  act := act
  body := body
  enter := enter
  starts := by
    intro b
    cases b <;> rfl

def first : Party → Block
  | .receive => .receive
  | .send => .send 1

def initial : World := ⟨⟨⟨0,0,0⟩,[]⟩,[],[],[],false,false,false⟩

/-! ### One handler after the other -/

/-- The variables of both threads, and what has been printed. -/
structure Outcome where
  memory : Memory
  i : Int32

def handle (o : Outcome) (h : Handled) : Outcome :=
  match h.thread with
  | .receive =>
    let (g,row) := receive_pru o.memory.shared h.ts 0
    ⟨⟨g,o.memory.rows ++ row.toList⟩,o.i⟩
  | .send =>
    let passed := send_pru o.memory.shared o.i 1 h.ts
    ⟨⟨passed.shared,o.memory.rows ++ passed.row.toList⟩,passed.i⟩

def outcome (handled : List Handled) : Outcome := handled.foldl handle ⟨⟨⟨0,0,0⟩,[]⟩,1⟩

/-- The timestamps that a thread has handled. -/
def of (i : Party) (handled : List Handled) : List UInt64 := (handled.filter (·.thread = i)).map Handled.ts

theorem outcome_concat (handled : List Handled) (h : Handled) : outcome (handled ++ [h]) = handle (outcome handled) h := by
  simp [outcome]

theorem of_same (i : Party) (handled : List Handled) (ts : UInt64) : of i (handled ++ [⟨i,ts⟩]) = of i handled ++ [ts] := by
  simp [of]

theorem of_other {i j : Party} (other : j ≠ i) (handled : List Handled) (ts : UInt64) :
    of i (handled ++ [⟨j,ts⟩]) = of i handled := by
  simp [of,other]

/-- `i` counts the events of channel 1. -/
theorem outcome_i (handled : List Handled) : (outcome handled).i = (of .send handled).foldl (fun i _ => i + 1) 1 := by
  induction handled using List.reverseRecOn with
  | nil => rfl
  | append_singleton handled h ih =>
    obtain ⟨thread,ts⟩ := h
    rw [outcome_concat]
    cases thread with
    | receive =>
      rw [of_other (by decide)]
      exact ih
    | send =>
      rw [of_same,List.foldl_append,← ih]
      unfold handle send_pru
      by_cases odd : (outcome handled).i % 2 ≠ 0
      · simp [odd]
      · simp [odd]

/-- The first store of a handler, and its flag. -/
def Party.store : Party → UInt64 → Vars
  | .receive, ts => .store_last_pru_ts ts.toInt64.toUInt64
  | .send, ts => .store_last_host_ts ts

def Party.bit : Party → Int32
  | .receive => 0x1
  | .send => 0x2

/-- A handler of which nothing is skipped is its store and the rest of it. -/
theorem handle_exec {i : Party} {o : Outcome} (ts : UInt64) (handles : i = .send → o.i % 2 ≠ 0) :
    (finish i.bit).exec device (device (i.store ts) o.memory).2 = ((),(handle o ⟨i,ts⟩).memory) := by
  rw [finish_exec]
  cases i with
  | receive => simp [handle,receive_pru,Party.bit,Party.store,device]
  | send => simp [handle,send_pru,Party.bit,Party.store,device,handles rfl]

theorem handle_congr {i : Party} {o o' : Outcome} {ts : UInt64} (same : o.memory = o'.memory)
    (handles : i = .send → o.i % 2 ≠ 0) (handles' : i = .send → o'.i % 2 ≠ 0) :
    (handle o ⟨i,ts⟩).memory = (handle o' ⟨i,ts⟩).memory := by
  have first := handle_exec ts handles
  rw [same,handle_exec ts handles'] at first
  exact (congrArg Prod.snd first).symm

theorem handle_falling {o : Outcome} (ts : UInt64) (falling : ¬ o.i % 2 ≠ 0) : (handle o ⟨.send,ts⟩).memory = o.memory := by
  simp [handle,send_pru,falling]

/-! ### The outline -/

/-- Unless handlers have overlapped, the memory is what the handled timestamps
    have made of it, except in the middle of a handler. -/
structure Inv (w : World) : Prop where
  handled_first : ∀ i, of i w.handled <+: w.got i
  apart : w.overlapped = false → ¬ (w.receiving = true ∧ w.sending = true)
  settled : w.overlapped = false → w.receiving = false → w.sending = false → w.memory = (outcome w.handled).memory

/-- What the other thread may do. -/
def Rely (i : Party) (w w' : World) : Prop :=
  w'.busy i = w.busy i ∧ w'.got i = w.got i ∧ of i w'.handled = of i w.handled ∧
    (w'.overlapped = false → w.overlapped = false ∧ (w.busy i = true → w.busy i.other = false →
      w'.busy i.other = false ∧ w'.memory = w.memory ∧ (outcome w'.handled).memory = (outcome w.handled).memory))

/-- Where in its code a thread makes an access. -/
def Place (i : Party) (a : Access) (w : World) : Prop := (∀ v, a ≠ .vars v) → w.busy i = false ∧ w.got i = of i w.handled

/-- Before a timestamp. -/
def Free (i : Party) (w : World) : Prop := w.busy i = false ∧ w.got i = of i w.handled

/-- With a timestamp that is still to be handled, and not to be skipped. -/
def Holding (i : Party) (ts : UInt64) (w : World) : Prop :=
  w.got i = of i w.handled ++ [ts] ∧ (i = .send → (outcome w.handled).i % 2 ≠ 0)

/-- After the first store of a handler. -/
def Inside (i : Party) (ts : UInt64) (w : World) : Prop :=
  w.busy i = true ∧ Holding i ts w ∧
    (w.overlapped = false → w.busy i.other = false ∧ w.memory = (device (i.store ts) (outcome w.handled).memory).2)

/-- What a thread knows at the start of a block. -/
def Knows : Party → Block → World → Prop
  | .receive, .receive, w => Free .receive w
  | .receive, .received data, w => w.receiving = false ∧ Holding .receive data w
  | .receive, .stored_pru data, w => Inside .receive data w
  | .receive, .handled_report _, w => Free .receive w
  | .send, .send i, w => Free .send w ∧ i = (outcome w.handled).i
  | .send, .rising i ts, w => w.sending = false ∧ Holding .send ts w ∧ i = (outcome w.handled).i + 1
  | .send, .stored_host i ts, w => Inside .send ts w ∧ i = (outcome w.handled).i + 1
  | .send, .handled_edge i _, w => Free .send w ∧ i = (outcome w.handled).i
  | .send, .falling i _, w => Free .send w ∧ i = (outcome w.handled).i
  | _, _, _ => False

def outline : Outline Party system where
  inv := Inv
  rely := Rely
  guar i a w w' := Place i a w ∧ ∀ j, j ≠ i → Rely j w w'
  pre := Knows
  refl i w := ⟨rfl,rfl,rfl,fun clean => ⟨clean,fun _ alone => ⟨alone,rfl,rfl⟩⟩⟩
  trans i w w' w'' := by
    rintro ⟨busy,got,handled,clean⟩ ⟨busy',got',handled',clean'⟩
    refine ⟨busy'.trans busy,got'.trans got,handled'.trans handled,fun last => ?_⟩
    obtain ⟨between,later⟩ := clean' last
    obtain ⟨before,earlier⟩ := clean between
    refine ⟨before,fun inside alone => ?_⟩
    obtain ⟨alone',memory,outcome⟩ := earlier inside alone
    obtain ⟨alone'',memory',outcome'⟩ := later (busy.trans inside) alone'
    exact ⟨alone'',memory'.trans memory,outcome'.trans outcome⟩
  compat other kept := kept.2 _ (Ne.symm other)

variable {w w' : World}

/-- The variables as a part of the world. -/
def component : Component system Vars.Answer Memory :=
  .of World.memory (fun w m => { w with memory := m }) (fun _ _ => rfl) Access.vars device (fun _ _ _ => rfl)

@[simp] theorem component_put (w : World) (m : Memory) : component.put w m = { w with memory := m } := rfl

theorem other_ne {i j : Party} (other : j ≠ i) : j = i.other := by
  cases i <;> cases j <;> first | rfl | exact absurd rfl other

theorem count_rely (relied : Rely .send w w') : (outcome w'.handled).i = (outcome w.handled).i := by
  rw [outcome_i,outcome_i,relied.2.2.1]

theorem free_rely {i : Party} (relied : Rely i w w') (free : Free i w) : Free i w' := by
  obtain ⟨busy,got,handled,_⟩ := relied
  refine ⟨busy.trans free.1,?_⟩
  rw [got,handled]
  exact free.2

theorem holding_rely {i : Party} {ts : UInt64} (relied : Rely i w w') (holding : Holding i ts w) : Holding i ts w' := by
  obtain ⟨in_hand,odd⟩ := holding
  have count := relied
  obtain ⟨_,got,handled,_⟩ := relied
  refine ⟨by rw [got,handled]; exact in_hand,?_⟩
  rintro rfl
  rw [count_rely count]
  exact odd rfl

/-! ### Steps of the handlers -/

section
variable (w) (ts : UInt64) (i : Party)

@[simp] theorem take_got : (w.take ts i).got i = w.got i ++ [ts] := by cases i <;> rfl
@[simp] theorem take_got_other : (w.take ts i).got i.other = w.got i.other := by cases i <;> rfl
@[simp] theorem take_busy (j : Party) : (w.take ts i).busy j = w.busy j := by cases i <;> cases j <;> rfl
@[simp] theorem take_memory : (w.take ts i).memory = w.memory := by cases i <;> rfl
@[simp] theorem take_handled : (w.take ts i).handled = w.handled := by cases i <;> rfl
@[simp] theorem take_overlapped : (w.take ts i).overlapped = w.overlapped := by cases i <;> rfl

@[simp] theorem begin_got (j : Party) : (w.begin i).got j = w.got j := by cases i <;> cases j <;> rfl
@[simp] theorem begin_busy : (w.begin i).busy i = true := by cases i <;> rfl
@[simp] theorem begin_busy_other : (w.begin i).busy i.other = w.busy i.other := by cases i <;> rfl
@[simp] theorem begin_memory : (w.begin i).memory = w.memory := by cases i <;> rfl
@[simp] theorem begin_handled : (w.begin i).handled = w.handled := by cases i <;> rfl
@[simp] theorem begin_overlapped : (w.begin i).overlapped = (w.overlapped || w.busy i.other) := by cases i <;> rfl

@[simp] theorem done_got (j : Party) : (w.done ts i).got j = w.got j := by cases i <;> cases j <;> rfl
@[simp] theorem done_busy : (w.done ts i).busy i = false := by cases i <;> rfl
@[simp] theorem done_busy_other : (w.done ts i).busy i.other = w.busy i.other := by cases i <;> rfl
@[simp] theorem done_memory : (w.done ts i).memory = w.memory := by cases i <;> rfl
@[simp] theorem done_handled : (w.done ts i).handled = w.handled ++ [⟨i,ts⟩] := by cases i <;> rfl
@[simp] theorem done_overlapped : (w.done ts i).overlapped = w.overlapped := by cases i <;> rfl

@[simp] theorem memory_got (m : Memory) : ({ w with memory := m } : World).got i = w.got i := by cases i <;> rfl
@[simp] theorem memory_busy (m : Memory) : ({ w with memory := m } : World).busy i = w.busy i := by cases i <;> rfl

@[simp] theorem other_other : i.other.other = i := by cases i <;> rfl

end

theorem other_ne_self (i : Party) : i.other ≠ i := by cases i <;> decide

/-- The two threads, one of them named. -/
theorem forall_party {p : Party → Prop} (i : Party) : (∀ j, p j) ↔ p i ∧ p i.other := by
  constructor
  · exact fun all => ⟨all _,all _⟩
  · rintro ⟨mine,theirs⟩ j
    by_cases same : j = i
    · exact same ▸ mine
    · exact other_ne same ▸ theirs

theorem inv_iff (i : Party) : Inv w ↔ (of i w.handled <+: w.got i ∧ of i.other w.handled <+: w.got i.other) ∧
    (w.overlapped = false → ¬ (w.busy i = true ∧ w.busy i.other = true)) ∧
    (w.overlapped = false → w.busy i = false → w.busy i.other = false → w.memory = (outcome w.handled).memory) := by
  rw [← forall_party (p := fun i => of i w.handled <+: w.got i) i]
  cases i with
  | receive => exact ⟨fun inv => ⟨inv.1,inv.2,inv.3⟩,fun ⟨first,apart,settled⟩ => ⟨first,apart,settled⟩⟩
  | send =>
    constructor
    · exact fun inv => ⟨inv.1,fun clean both => inv.2 clean both.symm,fun clean mine theirs => inv.3 clean theirs mine⟩
    · exact fun ⟨first,apart,settled⟩ =>
        ⟨first,fun clean both => apart clean both.symm,fun clean theirs mine => settled clean mine theirs⟩

/-- Only the other thread has to be told. -/
theorem seen_by_other {i : Party} (seen : Rely i.other w w') : ∀ j, j ≠ i → Rely j w w' :=
  fun _ other => other_ne other ▸ seen

variable {i : Party} {ts : UInt64}

theorem take_keeps (inv : Inv w) (free : Free i w) (odd : i = .send → (outcome w.handled).i % 2 ≠ 0) :
    Inv (w.take ts i) ∧ Rely i.other w (w.take ts i) ∧ Holding i ts (w.take ts i) := by
  obtain ⟨⟨mine,theirs⟩,apart,settled⟩ := (inv_iff i).mp inv
  refine ⟨(inv_iff i).mpr ⟨⟨?_,by simpa using theirs⟩,by simpa using apart,by simpa using settled⟩,?_,?_⟩
  · simpa using mine.trans (List.prefix_append _ _)
  · exact ⟨by simp,by simp,by simp,by simp +contextual⟩
  · exact ⟨by simp [free.2],by simpa using odd⟩

theorem begin_keeps (inv : Inv w) (idle : w.busy i = false) (holding : Holding i ts w) :
    Inv ({ w with memory := (device (i.store ts) w.memory).2 }.begin i) ∧
      Rely i.other w ({ w with memory := (device (i.store ts) w.memory).2 }.begin i) ∧
      Inside i ts ({ w with memory := (device (i.store ts) w.memory).2 }.begin i) := by
  obtain ⟨⟨mine,theirs⟩,apart,settled⟩ := (inv_iff i).mp inv
  refine ⟨(inv_iff i).mpr ⟨⟨by simpa using mine,by simpa using theirs⟩,?_,by simp⟩,?_,?_⟩
  · simp
  · refine ⟨by simp,by simp,by simp,fun clean => ?_⟩
    obtain ⟨before,alone⟩ : w.overlapped = false ∧ w.busy i.other = false := by simpa using clean
    exact ⟨before,fun inside => by simp [alone] at inside⟩
  · refine ⟨by simp,⟨by simpa using holding.1,by simpa using holding.2⟩,fun clean => ?_⟩
    obtain ⟨before,alone⟩ : w.overlapped = false ∧ w.busy i.other = false := by simpa using clean
    exact ⟨by simpa using alone,by simp [settled before idle alone]⟩

/-- In the middle of a handler any access of its own is allowed. -/
theorem vars_keeps (inv : Inv w) (inside : w.busy i = true) (alone : w.overlapped = false → w.busy i.other = false) (m : Memory) :
    Inv { w with memory := m } ∧ Rely i.other w { w with memory := m } := by
  obtain ⟨⟨mine,theirs⟩,apart,settled⟩ := (inv_iff i).mp inv
  refine ⟨(inv_iff i).mpr ⟨⟨by simpa using mine,by simpa using theirs⟩,by simpa using apart,by simp [inside]⟩,?_⟩
  refine ⟨by simp,by simp,rfl,fun clean => ⟨clean,fun theirs => ?_⟩⟩
  rw [alone clean] at theirs
  cases theirs

theorem done_keeps (inv : Inv w) (holding : Holding i ts w) (alone : w.overlapped = false → w.busy i.other = false)
    (memory : w.overlapped = false → w.memory = (handle (outcome w.handled) ⟨i,ts⟩).memory) :
    Inv (w.done ts i) ∧ Rely i.other w (w.done ts i) ∧ Free i (w.done ts i) := by
  obtain ⟨⟨mine,theirs⟩,apart,settled⟩ := (inv_iff i).mp inv
  have handled : of i (w.done ts i).handled = w.got i := by rw [done_handled,of_same,holding.1]
  have others : of i.other (w.done ts i).handled = of i.other w.handled := by
    rw [done_handled,of_other (Ne.symm (other_ne_self i))]
  refine ⟨(inv_iff i).mpr ⟨⟨?_,?_⟩,by simp,?_⟩,?_,?_⟩
  · rw [handled,done_got]
  · rw [others,done_got]
    exact theirs
  · intro clean _ _
    rw [done_handled,outcome_concat,done_memory]
    exact memory (by simpa using clean)
  · refine ⟨by simp,by simp,others,fun clean => ⟨by simpa using clean,fun theirs => ?_⟩⟩
    rw [alone (by simpa using clean)] at theirs
    cases theirs
  · exact ⟨by simp,by rw [done_got,handled]⟩

/-- The falling edge of a pulse is handled as soon as it is there. -/
theorem falling_keeps (inv : Inv w) (free : Free .send w) (even : ¬ (outcome w.handled).i % 2 ≠ 0) :
    Inv ((w.take ts .send).done ts .send) ∧ Rely .receive w ((w.take ts .send).done ts .send) ∧
      Free .send ((w.take ts .send).done ts .send) := by
  obtain ⟨⟨mine,theirs⟩,apart,settled⟩ := (inv_iff .send).mp inv
  have same : (outcome (w.handled ++ [⟨.send,ts⟩])).memory = (outcome w.handled).memory := by
    rw [outcome_concat,handle_falling ts even]
  have others : of .receive (w.handled ++ [⟨.send,ts⟩]) = of .receive w.handled := of_other (by decide) _ _
  have got : of .send (w.handled ++ [⟨.send,ts⟩]) = w.edges ++ [ts] := by rw [of_same,← free.2]; rfl
  refine ⟨(inv_iff .send).mpr ⟨⟨?_,?_⟩,?_,?_⟩,?_,rfl,got.symm⟩
  · rw [show ((w.take ts .send).done ts .send).handled = w.handled ++ [⟨.send,ts⟩] from rfl,got]
    exact List.prefix_refl _
  · exact others ▸ theirs
  · rintro - ⟨mine,-⟩
    cases mine
  · intro clean _ alone
    exact (settled clean free.1 alone).trans same.symm
  · exact ⟨rfl,rfl,others,fun clean => ⟨clean,fun inside alone => ⟨rfl,rfl,same⟩⟩⟩

/-! ### The threads -/

theorem receive_sat (free : Free .receive w) : outline.Sat .receive receive w := by
  intro w₁ input r t relied (inv : Inv w₁) acted
  have free₁ := free_rely relied free
  cases acted
  obtain ⟨inv',seen,holding⟩ := @take_keeps w₁ .receive input.data inv free₁ nofun
  exact ⟨inv',⟨fun _ => free₁,seen_by_other seen⟩,free₁.1,holding⟩

/-- What follows an event leads to the block that it should. -/
theorem sort_keeps (event : Event) (inv : Inv w) (free : Free .send w) :
    Inv (enter (sort (outcome w.handled).i event) w) ∧ Rely .receive w (enter (sort (outcome w.handled).i event) w) ∧
      Knows .send (sort (outcome w.handled).i event) (enter (sort (outcome w.handled).i event) w) := by
  by_cases edge : event.channel = 1
  · by_cases odd : (outcome w.handled).i % 2 ≠ 0
    · have rises : sort (outcome w.handled).i event = .rising ((outcome w.handled).i + 1) event.nano_ts := by
        simp [sort,edge,odd]
      rw [rises]
      obtain ⟨inv',seen,holding⟩ := @take_keeps w .send event.nano_ts inv free (fun _ => odd)
      exact ⟨inv',seen,free.1,holding,rfl⟩
    · have falls : sort (outcome w.handled).i event = .falling ((outcome w.handled).i + 1) event.nano_ts := by
        simp [sort,edge,odd]
      rw [falls]
      obtain ⟨inv',seen,free'⟩ := @falling_keeps w event.nano_ts inv free odd
      refine ⟨inv',seen,free',?_⟩
      show (outcome w.handled).i + 1 = (outcome (w.handled ++ [⟨.send,event.nano_ts⟩])).i
      rw [outcome_i,outcome_i,of_same,List.foldl_append]
      rfl
  · have again : sort (outcome w.handled).i event = .send (outcome w.handled).i := by
      simp [sort,edge]
    rw [again]
    exact ⟨inv,outline.refl .receive w,free,rfl⟩

theorem send_sat (free : Free .send w) : outline.Sat .send (send (outcome w.handled).i) w := by
  intro w₁ input r t relied (inv : Inv w₁) acted
  have free₁ := free_rely relied free
  cases acted
  rw [← count_rely relied]
  obtain ⟨inv',seen,knows⟩ := sort_keeps input.event inv free₁
  exact ⟨inv',⟨fun _ => free₁,seen_by_other seen⟩,knows⟩

/-- The first access of a handler. -/
theorem store_sat {b : Block} (K : World → Prop) (enters : ∀ w, enter b w = w.begin i)
    (stable : ∀ {w w'}, Rely i w w' → K w → K w') (keeps : ∀ {w m}, K w → K ({ w with memory := m }.begin i))
    (knows : ∀ w, Inside i ts w → K w → Knows i b w) (idle : w.busy i = false) (holding : Holding i ts w) (known : K w) :
    outline.Sat i (call (Access.vars (i.store ts)) >>= fun _ => .ret b) w := by
  intro w₁ input r t relied (inv : Inv w₁) acted
  obtain ⟨inv',seen,inside⟩ := begin_keeps inv (relied.1.trans idle) (holding_rely relied holding)
  have known' : K ({ w₁ with memory := (device (i.store ts) w₁.memory).2 }.begin i) := keeps (stable relied known)
  cases acted
  rw [← enters] at inv' seen inside known'
  exact ⟨inv',⟨fun other => absurd rfl (other _),seen_by_other seen⟩,knows _ inside known'⟩

/-- The rest of it. -/
theorem finish_sat {b : Block} (K : World → Prop) (enters : ∀ w, enter b w = w.done ts i)
    (stable : ∀ {w w'}, Rely i w w' → K w → K w') (keeps : ∀ {w m}, K w → K { w with memory := m })
    (knows : ∀ w, Free i (w.done ts i) → K w → Knows i b (w.done ts i)) (inside : Inside i ts w) (known : K w) :
    outline.Sat i (onVars (finish i.bit) >>= fun _ => .ret b) w := by
  obtain ⟨busy,holding,alone⟩ := inside
  have odd := holding.2
  refine sat_unless outline component ((),(handle (outcome w.handled) ⟨i,ts⟩).memory)
    (fun w' => w'.busy i = true ∧ Holding i ts w' ∧ K w' ∧ (w'.overlapped = false → w'.busy i.other = false ∧
      (outcome w'.handled).memory = (outcome w.handled).memory))
    (fun w' => w'.overlapped = true) ?_ ?_ ?_ ?_ _ rfl ⟨busy,holding,known,fun clean => ⟨(alone clean).1,rfl⟩⟩ ?_
  · rintro w₁ w₂ ⟨busy,holding,known,apart⟩ relied -
    refine ⟨⟨relied.1.trans busy,holding_rely relied holding,stable relied known,fun clean => ?_⟩,fun clean => ?_⟩
    · obtain ⟨before,kept⟩ := relied.2.2.2 clean
      obtain ⟨other,same⟩ := apart before
      obtain ⟨other',_,outcome'⟩ := kept busy other
      exact ⟨other',outcome'.trans same⟩
    · obtain ⟨before,kept⟩ := relied.2.2.2 (by simpa using clean)
      exact ⟨by simpa using before,(kept busy (apart before).1).2.1⟩
  · rintro a w₁ m ⟨busy,holding,known,apart⟩ inv
    obtain ⟨inv',seen⟩ := vars_keeps inv busy (fun clean => (apart clean).1) m
    refine ⟨⟨by simpa using busy,⟨by simpa using holding.1,holding.2⟩,keeps known,by simpa using apart⟩,inv',?_⟩
    exact ⟨fun other => absurd rfl (other a),seen_by_other seen⟩
  · exact fun _ _ spoiled => spoiled
  · rintro _ a w₁ m ⟨busy,holding,known,apart⟩ inv ends
    obtain ⟨inv₁,seen₁⟩ := vars_keeps inv busy (fun clean => (apart clean).1) m
    have memory : w₁.overlapped = false → m = (handle (outcome w₁.handled) ⟨i,ts⟩).memory := by
      intro clean
      rw [handle_congr (apart clean).2 holding.2 odd]
      exact congrArg Prod.snd (ends (by simpa using clean))
    obtain ⟨inv₂,seen₂,free⟩ := @done_keeps { w₁ with memory := m } i ts inv₁
      ⟨by simpa using holding.1,holding.2⟩ (by simpa using fun clean => (apart clean).1) memory
    have known' : K { w₁ with memory := m } := keeps known
    have ended := knows _ free known'
    rw [← enters] at inv₂ seen₂ ended
    exact ⟨inv₂,⟨fun other => absurd rfl (other a),seen_by_other (outline.trans _ seen₁ seen₂)⟩,ended⟩
  · intro clean
    have clean' : w.overlapped = false := by simpa using clean
    show (finish i.bit).exec device w.memory = _
    rw [(alone clean').2]
    exact handle_exec ts odd

theorem bodies_proved : outline.Proved := by
  intro i b w inv knows
  cases i with
  | receive =>
    cases b with
    | receive => exact receive_sat knows
    | received data =>
      exact store_sat (i := .receive) (fun _ => True) (fun _ => rfl) (fun _ _ => trivial) (fun _ => trivial)
        (fun _ inside _ => inside) knows.1 knows.2 trivial
    | stored_pru data =>
      exact finish_sat (i := .receive) (fun _ => True) (fun _ => rfl) (fun _ _ => trivial) (fun _ => trivial)
        (fun _ free _ => free) knows trivial
    | handled_report data => exact receive_sat knows
    | _ => exact knows.elim
  | send =>
    have stable : ∀ {i : Int32} {w w' : World}, Rely .send w w' → i = (outcome w.handled).i + 1 → i = (outcome w'.handled).i + 1 :=
      fun relied count => by rw [count_rely relied]; exact count
    cases b with
    | send i =>
      obtain ⟨free,rfl⟩ := knows
      exact send_sat free
    | rising i ts =>
      exact store_sat (i := .send) (fun w => i = (outcome w.handled).i + 1) (fun _ => rfl) stable id
        (fun _ inside count => ⟨inside,count⟩) knows.1 knows.2.1 knows.2.2
    | stored_host i ts =>
      refine finish_sat (i := .send) (fun w => i = (outcome w.handled).i + 1) (fun _ => rfl) stable id ?_ knows.1 knows.2
      rintro w free rfl
      refine ⟨free,?_⟩
      rw [done_handled,outcome_i,outcome_i,of_same,List.foldl_append]
      rfl
    | handled_edge i ts =>
      obtain ⟨free,rfl⟩ := knows
      exact send_sat free
    | falling i ts =>
      obtain ⟨free,rfl⟩ := knows
      exact send_sat free
    | _ => exact knows.elim

/-- What the threads have got they handle in order, they wait with nothing in
    hand, and what is handled one after the other is remembered and printed so. -/
structure Settles (c : Config Party Access Access.Answer Block World) : Prop where
  handled_first : ∀ i, of i c.shared.handled <+: c.shared.got i
  waits : ∀ i a next, c.code i = .access a next → (∀ v, a ≠ .vars v) → c.shared.got i = of i c.shared.handled
  one_by_one : c.shared.overlapped = false → c.shared.receiving = false → c.shared.sending = false →
    c.shared.memory = (outcome c.shared.handled).memory

theorem holds_settles {c : Config Party Access Access.Answer Block World} (holds : outline.Holds c) : Settles c := by
  refine ⟨holds.inv.handled_first,?_,holds.inv.settled⟩
  intro i a next at_access waits
  have sat : outline.Sat i (.access a next) c.shared := at_access ▸ holds.sat i
  have acts : ∃ r t, system.act a ⟨0,⟨0,0⟩⟩ c.shared = some (r,t) := by
    cases a with
    | read_report => exact ⟨_,_,rfl⟩
    | read_event => exact ⟨_,_,rfl⟩
    | vars v => exact absurd rfl (waits v)
  obtain ⟨r,t,acted⟩ := acts
  have guar := (sat c.shared _ r t (outline.refl i _) holds.inv acted).2.1
  exact (guar.1 waits).2

theorem threads_settle (schedule : List (Party × Input)) : Settles (system.run (system.start initial first) schedule) := by
  apply holds_settles
  refine outline.sound bodies_proved ?_ ?_ schedule
  · exact ⟨fun _ => List.nil_prefix,fun _ => nofun,fun _ _ _ => rfl⟩
  · intro i
    cases i with
    | receive => exact ⟨rfl,rfl⟩
    | send => exact ⟨⟨rfl,rfl⟩,rfl⟩

/-! ### The lines -/

def move (h : Handled) : Move :=
  match h.thread with
  | .receive => .receive
  | .send => .capture

/-- Pulses with these reports and edges. -/
def pulsesOf (reports edges : List UInt64) (k : Nat) : Pulse :=
  ⟨reports.getD k 0,edges.getD (2 * k) 0,edges.getD (2 * k + 1) 0⟩

theorem getElem_first {α : Type} {l l' : List α} {k : Nat} {x : α} (first : l <+: l') (here : l[k]? = some x) :
    l'[k]? = some x := by
  obtain ⟨inside,rfl⟩ := List.getElem?_eq_some_iff.mp here
  exact List.prefix_iff_getElem?.mp first k inside

/-- The pulses are those that have been handled. -/
structure Agree (pulses : Nat → Pulse) (handled : List Handled) : Prop where
  reports : ∀ (k : Nat) (ts : UInt64), (of .receive handled)[k]? = some ts → (pulses k).pru_ts = ts
  edges : ∀ (n : Nat) (ts : UInt64), (of .send handled)[n]? = some ts → edge_ts pulses n = ts

theorem pulsesOf_agree {reports edges : List UInt64} {handled : List Handled} (received : of .receive handled <+: reports)
    (captured : of .send handled <+: edges) : Agree (pulsesOf reports edges) handled := by
  constructor
  · intro k ts here
    show reports.getD k 0 = ts
    rw [List.getD_eq_getElem?_getD,getElem_first received here]
    rfl
  · intro n ts here
    have there := getElem_first captured here
    by_cases rising : n % 2 = 0
    · have even : 2 * (n / 2) = n := by omega
      simp [edge_ts,rising,pulsesOf,even,there]
    · have odd : 2 * (n / 2) + 1 = n := by omega
      simp [edge_ts,rising,pulsesOf,odd,there]

theorem agree_concat {pulses : Nat → Pulse} {handled : List Handled} {h : Handled} (agree : Agree pulses (handled ++ [h])) :
    Agree pulses handled := by
  have first : ∀ i, of i handled <+: of i (handled ++ [h]) := by
    intro i
    simp [of]
  exact ⟨fun k ts here => agree.reports k ts (getElem_first (first .receive) here),
    fun n ts here => agree.edges n ts (getElem_first (first .send) here)⟩

theorem print_rows (w : ReportPairs.World) (line : Option Row) :
    (w.print line).printed.map Printed.row = w.printed.map Printed.row ++ line.toList := by
  cases line <;> simp

/-- The same run of `ReportPairs`. -/
structure Same (w : ReportPairs.World) (handled : List Handled) : Prop where
  shared : w.shared = (outcome handled).memory.shared
  i : w.i = (outcome handled).i
  rows : w.printed.map Printed.row = (outcome handled).memory.rows
  received : w.received = (of .receive handled).length
  captured : w.captured = (of .send handled).length

theorem run_same {pulses : Nat → Pulse} {handled : List Handled} (agree : Agree pulses handled) :
    Same (run pulses (handled.map move)) handled := by
  induction handled using List.reverseRecOn with
  | nil => exact ⟨rfl,rfl,rfl,rfl,rfl⟩
  | append_singleton handled h ih =>
    obtain ⟨shared,i,rows,received,captured⟩ := ih (agree_concat agree)
    obtain ⟨thread,ts⟩ := h
    rw [List.map_append,List.map_singleton,run_concat]
    cases thread with
    | receive =>
      have here : (pulses (run pulses (handled.map move)).received).pru_ts = ts := by
        rw [received]
        apply agree.reports
        rw [of_same,List.getElem?_concat_length]
      generalize run pulses (handled.map move) = w at *
      have stepped : step pulses w .receive =
          { w with shared := (receive_pru w.shared ts 0).1, received := w.received + 1 }.print (receive_pru w.shared ts 0).2 := by
        simp only [step,here]
      rw [show move ⟨.receive,ts⟩ = .receive from rfl,stepped,shared]
      refine ⟨?_,?_,?_,?_,?_⟩
      · rw [outcome_concat]
        rfl
      · rw [outcome_concat]
        exact i
      · rw [outcome_concat,print_rows,rows]
        rfl
      · rw [of_same,List.length_append,← received]
        rfl
      · rw [of_other (by decide)]
        exact captured
    | send =>
      have here : edge_ts pulses (run pulses (handled.map move)).captured = ts := by
        rw [captured]
        apply agree.edges
        rw [of_same,List.getElem?_concat_length]
      generalize run pulses (handled.map move) = w at *
      have stepped : step pulses w .capture =
          { w with
            shared := (send_pru w.shared w.i 1 ts).shared
            i := (send_pru w.shared w.i 1 ts).i
            captured := w.captured + 1 }.print (send_pru w.shared w.i 1 ts).row := by
        simp only [step,here]
      rw [show move ⟨.send,ts⟩ = .capture from rfl,stepped,shared,i]
      refine ⟨?_,?_,?_,?_,?_⟩
      · rw [outcome_concat]
        rfl
      · rw [outcome_concat]
        rfl
      · rw [outcome_concat,print_rows,rows]
        rfl
      · rw [of_other (by decide)]
        exact received
      · rw [of_same,List.length_append,← captured]
        rfl

/-- In step, the lines pair the reports with the rising edges. -/
theorem rows_in_step {reports edges : List UInt64} {handled : List Handled} (received : of .receive handled <+: reports)
    (captured : of .send handled <+: edges) (in_step : InStep (handled.map move)) :
    (outcome handled).memory.rows = (List.range (min (of .receive handled).length (((of .send handled).length + 1) / 2))).map
      fun k => row (edges.getD (2 * k) 0) (reports.getD k 0) := by
  have same := run_same (pulsesOf_agree received captured)
  have paired : Paired (pulsesOf reports edges) (run (pulsesOf reports edges) (handled.map move)) := run_paired in_step
  rw [← same.rows,paired.printed,same.received,ReportPairs.World.risen,same.captured,pairs,List.map_map]
  rfl

end NeslPru.ReportThreads
