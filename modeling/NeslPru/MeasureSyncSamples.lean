import NeslPru.MeasureSync
import NeslPru.RbufferChannel

/-!
The samples of `measure_time_sync`: the PRU looks at its pin again and again and
reports the time of each rising edge, while the host reads the reports. A report
that the full ring buffer refuses is counted like the others.
-/
namespace NeslPru.MeasureSyncSamples
open NeslPru.Access NeslPru.RelyGuarantee NeslPru.Iep NeslPru.RbufferQueue NeslPru.RbufferAtomic
open NeslPru.RbufferChannel NeslPru.MeasureSync
open NeslPru.Rbuffer hiding Access
set_option linter.unusedSimpArgs false

inductive Party where
  | pru
  | host
deriving DecidableEq

inductive Block where
  | check (g : Globals)
  | wrote (g : Globals) (ts : UInt64) (status : Int16)
  | host
  | read (data : UInt64) (status : Int16)

open Prog (call)

/-- A call of `check_input_pin` up to the end of its write, and the start of the
    next call where it writes nothing. -/
def sample (g : Globals) : Prog Access Access.Answer Block := do
  let pin : UInt32 ← call (Access.read_pin P8_45)
  if g.input_high = false then
    if pin ≠ 0 then
      let ts : UInt64 ← call Access.iep_get_time
      let status ← onSend (rbuf_write_uint64 ts)
      return .wrote g ts status
    else
      return .check g
  else if pin = 0 then
    return .check { g with input_high := false }
  else
    return .check g

/-- A read of the host, with the status that it starts with. -/
def read : Prog Access Access.Answer Block := do
  let (data,status) ← onSend (rbuf_read_uint64 (some 0))
  return .read data (status.getD 0)

def body : Block → Prog Access Access.Answer Block
  | .check g => sample g
  | .wrote g _ _ => do
    call (Access.trig_intc 3)
    return .check { g with input_high := true, num_samples := g.num_samples - 1 }
  | .host => read
  | .read _ _ => read

/-- Where the call is cut makes no difference to what it does. -/
theorem check_input_pin_cut (g : Globals) :
    check_input_pin g >>= (fun g => .ret (.check g)) =
      sample g >>= fun b => match b with
        | .wrote g ts status => body (.wrote g ts status)
        | b => .ret b := by
  simp only [check_input_pin,sample,Prog.call_bind,Prog.access_bind]
  congr 1
  funext pin
  split
  · split
    · simp only [Prog.access_bind]
      congr 1
      funext ts
      rw [Prog.bind_assoc,Prog.bind_assoc]
      rfl
    · rfl
  · split
    · rfl
    · rfl

/-- A report, and how many reports before it the host had still to read. -/
structure Report where
  value : UInt64
  accepted : Bool
  unread : Nat
deriving DecidableEq

/-- A finished call: the level of the pin, the reading of the clock and the report. -/
structure Call where
  level : Bool
  reading : Option UInt64
  report : Option Report
deriving DecidableEq

/-- The ring buffer, the clock and a record of the calls. `level`, `reading` and
    `report` are those of the call that is being made. -/
structure World where
  rbuf : rbuffer
  time : iep_time
  level : Bool
  reading : Option UInt64
  report : Option Report
  calls : List Call
  num_samples : Int32
  accepted : List UInt64
  delivered : List UInt64

/-- The counter and the pins. -/
structure Input where
  iep_cnt : UInt32
  r31 : UInt32

def act : (a : Access) → Input → World → Option (a.Answer × World)
  | .read_pin pin, input, w => some (input.r31 &&& pin,{ w with level := input.r31 &&& pin ≠ 0, reading := none })
  | .iep_get_time, input, w =>
    let (ts,time) := iep_get_time w.time input.iep_cnt
    some (ts,{ w with time := time, reading := some ts })
  | .trig_intc _, _, w => some ((),w)
  | .send a, _, w => some ((memory a w.rbuf).1,{ w with rbuf := (memory a w.rbuf).2 })
  | _, _, _ => none

def enter : Block → World → World
  | .check g, w =>
    { w with calls := w.calls ++ [⟨w.level,w.reading,w.report⟩], report := none, num_samples := g.num_samples }
  | .wrote _ ts status, w =>
    { w with
      report := some ⟨ts,status = 0,w.accepted.length - w.delivered.length⟩
      accepted := if status = 0 then w.accepted ++ [ts] else w.accepted }
  | .read data status, w => if status = 0 then { w with delivered := w.delivered ++ [data] } else w
  | .host, w => w

def system : System Access Access.Answer Block Input World where
  act := act
  body := body
  enter := enter
  starts := by
    intro b
    cases b <;> rfl

def first : Party → Block
  | .pru => .check ⟨8000,false⟩
  | .host => .host

/-- The ring buffer has been initialised. -/
def initial (time : iep_time) : World where
  rbuf := fresh
  time := time
  level := false
  reading := none
  report := none
  calls := []
  num_samples := 8000
  accepted := []
  delivered := []

/-- The level before the first call counts as low. -/
def low : Call := ⟨false,none,none⟩

/-- A call reports the reading that it has made if the level has risen since the
    call before it, and nothing else. -/
def Samples (before call : Call) : Prop :=
  call.report.isSome = (call.level && !before.level) ∧ call.report.map Report.value = call.reading

/-- The reports of some calls, and the values of those that the ring buffer has taken. -/
def reports (calls : List Call) : List Report := calls.filterMap Call.report
def taken (reports : List Report) : List UInt64 := (reports.filter Report.accepted).map Report.value

/-- Every call samples the pin as it should, what the host has read and can read
    begins with the reports that were taken, and `num_samples` counts these. -/
structure Counts (w : World) : Prop where
  edges : (low :: w.calls).IsChain Samples
  readable : Carries w.rbuf w.accepted w.delivered
  in_order : taken (reports w.calls) <+: w.accepted
  num_samples : w.num_samples = 8000 - Int32.ofNat (taken (reports w.calls)).length

/-- A report is taken unless the host has left 127 others unread. -/
def Room (report : Report) : Prop := report.accepted = decide (report.unread < 127)

/-- `num_samples` counts the reports that were made. -/
structure Inv (w : World) : Prop where
  edges : (low :: w.calls).IsChain Samples
  carries : Carries w.rbuf w.accepted w.delivered
  accepted : w.accepted = taken (reports w.calls ++ w.report.toList)
  room : ∀ report ∈ reports w.calls, Room report
  num_samples : w.num_samples = 8000 - Int32.ofNat (reports w.calls).length

/-- What the other party may do. -/
def Rely : Party → World → World → Prop
  | .pru, w, w' => w' = { w with rbuf := w'.rbuf, delivered := w'.delivered } ∧ Drains w.rbuf w'.rbuf
  | .host, w, w' => w'.delivered = w.delivered ∧ Fills w.rbuf w'.rbuf

/-- Between two calls the variables are those that the record says. -/
def Between (g : Globals) (w : World) : Prop :=
  w.report = none ∧ w.num_samples = g.num_samples ∧ ∀ last ∈ (low :: w.calls).getLast?, last.level = g.input_high

/-- In a call that has found the level risen. -/
def Risen (g : Globals) (w : World) : Prop :=
  w.level = true ∧ w.num_samples = g.num_samples ∧ ∀ last ∈ (low :: w.calls).getLast?, last.level = false

/-- What a party knows at the start of a block. -/
def Knows : Party → Block → World → Prop
  | .pru, .check g, w => Between g w
  | .pru, .wrote g ts _, w => Risen g w ∧ w.reading = some ts ∧ ∃ report, w.report = some report ∧ report.value = ts ∧ Room report
  | .host, .host, _ => True
  | .host, .read _ _, _ => True
  | _, _, _ => False

def outline : Outline Party system where
  inv := Inv
  rely := Rely
  guar i _ w w' := ∀ j, j ≠ i → Rely j w w'
  pre := Knows
  refl i w := by cases i <;> simp [Rely,fills_refl,drains_refl]
  trans i w w' w'' := by
    cases i
    · rintro ⟨same,drains⟩ ⟨same',drains'⟩
      refine ⟨?_,drains_trans drains drains'⟩
      rw [same',same]
    · rintro ⟨same,fills⟩ ⟨same',fills'⟩
      exact ⟨same'.trans same,fills_trans fills fills'⟩
  compat other kept := kept _ (Ne.symm other)

/-- The ring buffer as a part of the world. -/
def component : Component system Rbuffer.Access.Answer rbuffer :=
  .of World.rbuf (fun w m => { w with rbuf := m }) (fun _ _ => rfl) Access.send memory (fun _ _ _ => rfl)

variable {w w' : World} {g : Globals}

/-! ### The PRU -/

theorem between_rely (relied : Rely .pru w w') (between : Between g w) : Between g w' := by
  rw [relied.1]
  exact between

theorem reports_concat (calls : List Call) (call : Call) : reports (calls ++ [call]) = reports calls ++ call.report.toList := by
  unfold reports
  rw [List.filterMap_append]
  cases report : call.report with
  | none => simp [report]
  | some r => simp [report]

/-- A finished call joins the record. -/
theorem finish_keeps (g' : Globals) (inv : Inv w)
    (samples : ∀ last ∈ (low :: w.calls).getLast?, Samples last ⟨w.level,w.reading,w.report⟩)
    (room : ∀ report ∈ w.report, Room report) (level : w.level = g'.input_high)
    (counted : g'.num_samples = w.num_samples - Int32.ofNat w.report.toList.length) :
    Inv (enter (.check g') w) ∧ Between g' (enter (.check g') w) := by
  have more := reports_concat w.calls ⟨w.level,w.reading,w.report⟩
  refine ⟨⟨?_,inv.carries,?_,?_,?_⟩,rfl,rfl,?_⟩
  · show (low :: (w.calls ++ [_])).IsChain Samples
    rw [← List.cons_append,List.isChain_append]
    refine ⟨inv.edges,List.isChain_singleton _,?_⟩
    intro last member call here
    obtain rfl : _ = call := by simpa using here
    exact samples last member
  · show w.accepted = taken (reports (w.calls ++ [_]) ++ [])
    rw [more,List.append_nil]
    exact inv.accepted
  · intro report member
    rw [show (enter (.check g') w).calls = w.calls ++ [⟨w.level,w.reading,w.report⟩] from rfl,more] at member
    rcases List.mem_append.mp member with before | last
    · exact inv.room report before
    · exact room report (by simpa using last)
  · show g'.num_samples = 8000 - Int32.ofNat (reports (w.calls ++ [_])).length
    rw [more,List.length_append,Int32.ofNat_add,counted,inv.num_samples]
    grind
  · intro last member
    have here : (low :: (w.calls ++ [⟨w.level,w.reading,w.report⟩])).getLast? = some last := member
    rw [← List.cons_append,List.getLast?_concat,Option.some.injEq] at here
    rw [← here]
    exact level

/-- A call that does not find the level risen. -/
theorem quiet_finish (g' : Globals) (inv : Inv w) (between : Between g w) (silent : w.reading = none)
    (level : w.level = g'.input_high) (same : g'.num_samples = g.num_samples)
    (not_risen : g.input_high = true ∨ w.level = false) :
    Inv (enter (.check g') w) ∧ Between g' (enter (.check g') w) := by
  obtain ⟨none_yet,num_samples,before⟩ := between
  refine finish_keeps g' inv ?_ ?_ level ?_
  · intro last member
    rw [Samples,none_yet,silent,before last member]
    rcases not_risen with high | falls
    · simp [high]
    · simp [falls]
  · simp [none_yet]
  · rw [none_yet,same,num_samples]
    simp

/-- A report is taken as long as there is room for it, and is in the ring buffer then. -/
theorem wrote_keeps {m : rbuffer} {ts : UInt64} {status : Int16} (inv : Inv w) (none_yet : w.report = none)
    (wrote : Wrote (words ts) w.rbuf status m) :
    Inv (enter (.wrote g ts status) { w with rbuf := m }) ∧ Fills w.rbuf m ∧
      ∃ report, (enter (.wrote g ts status) { w with rbuf := m }).report = some report ∧ report.value = ts ∧ Room report := by
  have accepted : w.accepted = taken (reports w.calls) := by
    rw [inv.accepted,none_yet,Option.toList_none,List.append_nil]
  rcases carries_wrote inv.carries wrote with ⟨rfl,carries,fills⟩ | ⟨rfl,rfl,full⟩
  · obtain ⟨many,_⟩ := carries_queued carries
    have := queued_lt m
    rw [List.length_append,List.length_singleton] at many
    refine ⟨⟨inv.edges,carries,?_,inv.room,inv.num_samples⟩,fills,_,rfl,rfl,?_⟩
    · show w.accepted ++ [ts] = taken (reports w.calls ++ [_])
      rw [accepted]
      simp [taken]
    · have few : w.accepted.length - w.delivered.length < 127 := by omega
      simp [Room,few]
  · obtain ⟨many,_⟩ := carries_queued inv.carries
    refine ⟨⟨inv.edges,inv.carries,?_,inv.room,inv.num_samples⟩,fills_refl _,_,rfl,rfl,?_⟩
    · show w.accepted = taken (reports w.calls ++ [_])
      rw [accepted]
      simp [taken]
    · have too_many : ¬ w.accepted.length - w.delivered.length < 127 := by omega
      simp [Room,too_many]

/-- The host sees of the PRU only the ring buffer. -/
theorem seen_by_host (delivered : w'.delivered = w.delivered) (fills : Fills w.rbuf w'.rbuf) :
    ∀ j, j ≠ Party.pru → Rely j w w' := by
  rintro (_ | _) other
  · exact absurd rfl other
  · exact ⟨delivered,fills⟩

/-- Before the write of a report. -/
def Reporting (g : Globals) (ts : UInt64) (w : World) : Prop := Risen g w ∧ w.reading = some ts ∧ w.report = none

theorem write_sat {ts : UInt64} (reporting : Reporting g ts w) :
    outline.Sat .pru (onSend (rbuf_write_uint64 ts) >>= fun status => .ret (.wrote g ts status)) w := by
  refine outline.sat_call component (Reporting g ts) ?_ ?_ ?_ _ (rbuf_write_uint64_atomic ts w.rbuf) reporting
  · rintro w w' reporting ⟨same,drains⟩ inv
    refine ⟨?_,drains,inv.carries.inBounds⟩
    rw [same]
    exact reporting
  · rintro a w m reporting inv unseen
    refine ⟨reporting,⟨inv.edges,carries_unseen inv.carries unseen,inv.accepted,inv.room,inv.num_samples⟩,?_⟩
    exact seen_by_host rfl (unseen_fills unseen)
  · rintro status a w m ⟨risen,reading,none_yet⟩ inv ⟨_,wrote⟩
    obtain ⟨inv',fills,report⟩ := wrote_keeps (g := g) inv none_yet wrote
    exact ⟨inv',seen_by_host rfl fills,risen,reading,report⟩

theorem others_keep (delivered : w'.delivered = w.delivered) (rbuf : w'.rbuf = w.rbuf) :
    ∀ j, j ≠ Party.pru → Rely j w w' := by
  apply seen_by_host delivered
  rw [rbuf]
  exact fills_refl _

/-- A call that has found the level risen reads the clock and writes a report. -/
theorem report_sat (between : Between g w) (level : w.level = true) (low_before : g.input_high = false) :
    outline.Sat .pru (.access Access.iep_get_time fun ts =>
      onSend (rbuf_write_uint64 ts) >>= fun status => .ret (.wrote g ts status)) w := by
  intro w₁ input r t relied (inv₁ : Inv w₁) acted
  cases acted
  obtain ⟨none_yet,num_samples,before⟩ := between_rely relied between
  have level₁ : w₁.level = true := by
    rw [relied.1]
    exact level
  have still_low : ∀ last ∈ (low :: w₁.calls).getLast?, last.level = false := by
    intro last member
    rw [← low_before]
    exact before last member
  refine ⟨⟨inv₁.edges,inv₁.carries,inv₁.accepted,inv₁.room,inv₁.num_samples⟩,others_keep rfl rfl,?_⟩
  exact write_sat ⟨⟨level₁,num_samples,still_low⟩,rfl,none_yet⟩

/-- A call starts with the level of the pin. -/
theorem read_pin_keeps {input : Input} {pin r : UInt32} (inv : Inv w) (between : Between g w)
    (acted : act (.read_pin pin) input w = some (r,w')) :
    Inv w' ∧ Between g w' ∧ w'.reading = none ∧ w'.level = decide (r ≠ 0) ∧ w'.delivered = w.delivered ∧
      w'.rbuf = w.rbuf := by
  cases acted
  exact ⟨⟨inv.edges,inv.carries,inv.accepted,inv.room,inv.num_samples⟩,between,rfl,rfl,rfl,rfl⟩

theorem sample_sat (between : Between g w) : outline.Sat .pru (sample g) w := by
  simp only [sample,Prog.call_bind,Prog.pure_eq]
  intro w₁ input pin t relied inv₁ acted
  obtain ⟨inv,here,silent,level,delivered,rbuf⟩ := read_pin_keeps inv₁ (between_rely relied between) acted
  by_cases high : g.input_high = true
  · simp only [high,Bool.true_eq_false,↓reduceIte]
    by_cases up : pin = 0
    · have fallen : t.level = false := by simp [level,up]
      obtain ⟨inv',between'⟩ := quiet_finish { g with input_high := false } inv here silent fallen rfl (.inl high)
      rw [if_pos up]
      exact ⟨inv',others_keep delivered rbuf,between'⟩
    · have still : t.level = true := by simp [level,up]
      obtain ⟨inv',between'⟩ := quiet_finish g inv here silent (still.trans high.symm) rfl (.inl high)
      rw [if_neg up]
      exact ⟨inv',others_keep delivered rbuf,between'⟩
  · have was_low : g.input_high = false := by simpa using high
    simp only [was_low,↓reduceIte]
    by_cases up : pin = 0
    · have still : t.level = false := by simp [level,up]
      obtain ⟨inv',between'⟩ := quiet_finish g inv here silent (still.trans was_low.symm) rfl (.inr still)
      rw [if_neg (not_not.mpr up)]
      exact ⟨inv',others_keep delivered rbuf,between'⟩
    · have risen : t.level = true := by simp [level,up]
      rw [if_pos up]
      exact ⟨inv,others_keep delivered rbuf,report_sat here risen was_low⟩

/-- After the interrupt the call is finished. -/
theorem wrote_sat (ts : UInt64) (status : Int16) (knows : Knows .pru (.wrote g ts status) w) :
    outline.Sat .pru (body (.wrote g ts status)) w := by
  intro w₁ _ r t relied (inv₁ : Inv w₁) acted
  cases acted
  have knows₁ : Knows .pru (.wrote g ts status) w₁ := by
    rw [relied.1]
    exact knows
  obtain ⟨⟨level,num_samples,before⟩,reading,report,here,value,room⟩ := knows₁
  have finished := finish_keeps { g with input_high := true, num_samples := g.num_samples - 1 } inv₁ ?_ ?_ level ?_
  · exact ⟨finished.1,others_keep rfl rfl,finished.2⟩
  · intro last member
    simp [Samples,here,reading,level,before last member,value]
  · intro report' is
    rw [here,Option.mem_some_iff] at is
    rwa [← is]
  · rw [here,num_samples]
    rfl

/-! ### The host -/

/-- A read delivers the next report, or finds none. -/
theorem read_sat : outline.Sat .host read w := by
  refine outline.sat_call component (fun _ => True) ?_ ?_ ?_ _ (rbuf_read_uint64_atomic (some 0) w.rbuf) trivial
  · rintro w w' _ ⟨_,fills⟩ inv
    exact ⟨trivial,fills,inv.carries.inBounds⟩
  · rintro a w m _ inv ⟨rfl,_⟩
    exact ⟨trivial,inv,fun j _ => outline.refl j w⟩
  · rintro ⟨data,status⟩ a w m _ inv ⟨_,read⟩
    rcases carries_read inv.carries read with ⟨value,same,carries,drains⟩ | ⟨same,rfl,_⟩
    · cases same
      refine ⟨⟨inv.edges,carries,inv.accepted,inv.room,inv.num_samples⟩,?_,trivial⟩
      rintro (_ | _) other
      · exact ⟨rfl,drains⟩
      · exact absurd rfl other
    · cases same
      exact ⟨inv,fun j _ => outline.refl j w,trivial⟩

theorem bodies_proved : outline.Proved := by
  intro i b w inv knows
  cases i with
  | pru =>
    cases b with
    | check g => exact sample_sat knows
    | wrote g ts status => exact wrote_sat ts status knows
    | _ => exact knows.elim
  | host =>
    cases b with
    | host => exact read_sat
    | read data status => exact read_sat
    | _ => exact knows.elim

theorem run_inv (time : iep_time) (schedule : List (Party × Input)) :
    Inv (system.run (system.start (initial time) first) schedule).shared := by
  refine (outline.sound bodies_proved ⟨?_,carries_fresh,rfl,?_,?_⟩ ?_ schedule).inv
  · exact List.isChain_singleton _
  · intro report member
    simp [initial,reports] at member
  · show (8000 : Int32) = 8000 - Int32.ofNat 0
    decide
  · intro i
    cases i with
    | pru =>
      refine ⟨rfl,rfl,?_⟩
      rintro last member
      obtain rfl : low = last := by simpa [initial] using member
      rfl
    | host => exact trivial

/-- Reports that all find room are all taken. -/
theorem all_taken {reports : List Report} (room : ∀ report ∈ reports, Room report)
    (unread : ∀ report ∈ reports, report.unread < 127) : taken reports = reports.map Report.value := by
  have all : ∀ report ∈ reports, report.accepted = true := by
    intro report member
    rw [room report member]
    exact decide_eq_true (unread report member)
  rw [taken,List.filter_eq_self.mpr all]

/-- However the calls and the reads interleave, and whatever the pin and the
    counter are, the samples are counted as long as each report is written while
    fewer than 127 are unread. -/
theorem samples_counted (time : iep_time) (schedule : List (Party × Input))
    (unread : ∀ report ∈ reports (system.run (system.start (initial time) first) schedule).shared.calls, report.unread < 127) :
    Counts (system.run (system.start (initial time) first) schedule).shared := by
  have inv := run_inv time schedule
  generalize (system.run (system.start (initial time) first) schedule).shared = w at unread inv
  have all := all_taken inv.room unread
  refine ⟨inv.edges,inv.carries,?_,?_⟩
  · rw [inv.accepted,taken,taken,List.filter_append,List.map_append]
    exact List.prefix_append _ _
  · rw [inv.num_samples,all,List.length_map]

/-- A pulse on the pin that is long enough for a report. -/
def pulse : List (Party × Input) := List.replicate 9 (.pru,⟨0,1⟩) ++ [(.pru,⟨0,0⟩)]

/-- Two pulses, of which the host reads the first report in between. -/
def alternating : List (Party × Input) := pulse ++ List.replicate 8 (.host,⟨0,0⟩) ++ pulse

theorem samples_counted_alternating : Counts (system.run (system.start (initial ⟨0,0,0⟩) first) alternating).shared :=
  samples_counted ⟨0,0,0⟩ alternating (by decide +kernel)

/-- The host reads nothing during 128 pulses. -/
def flooded : World := (system.run (system.start (initial ⟨0,0,0⟩) first) (List.replicate 128 pulse).flatten).shared

/-- The last report is lost, and counted. -/
theorem lost_report_counted : ¬ Counts flooded := by
  intro counts
  have lost : flooded.num_samples ≠ 8000 - Int32.ofNat (taken (reports flooded.calls)).length := by decide +kernel
  exact lost counts.num_samples

end NeslPru.MeasureSyncSamples
