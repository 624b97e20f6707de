import Mathlib.Algebra.Order.Ring.Nat
import NeslPru.Alone
import NeslPru.Gpio

/-!
What the examples `gpio` and `pwm` put on their output pin, along every run beside
the host and whatever the input pins do: each pass goes on with the shape of the
program from where the last one has left it (`Shaped`), so that the segments of the
output are those of the shape however many passes there are (`example_runs`).
-/
namespace NeslPru.Waveform
open NeslPru.Access NeslPru.RelyGuarantee NeslPru.Alone NeslPru.Signal NeslPru.Gpio
open NeslPru.MeasureSync (P8_45 P8_46)
open Prog (call)

/-! ### The waits -/

/-- The cycles of a wait for `t` units. -/
def waited (once each : Nat) (t : UInt32) : Nat := if t = 0 then 0 else if t = 1 then once else t.toNat * each

variable {shape : Nat → Segment UInt32} {o : Output UInt32}

theorem delays_ensures (cycles n : Nat) (follows : Follows shape o)
    (fits : o.cycles + n * cycles ≤ (o.now shape).cycles) :
    Ensures device (Follows shape) (fun _ o' => o' = o.hold (n * cycles)) (delays cycles n) o := by
  induction n generalizing o with
  | zero =>
    show o = o.hold (0 * cycles)
    rw [Nat.zero_mul,hold_zero]
  | succ n ih =>
    rw [Nat.succ_mul] at fits
    have held : Follows shape (o.hold cycles) := follows_hold follows (by omega)
    refine ⟨held,?_⟩
    have rest := @ih (o.hold cycles) held (by simp only [hold_cycles,hold_now]; omega)
    refine ensures_mono rest (fun _ same => same) ?_
    rintro _ o' rfl
    rw [hold_hold,Nat.succ_mul,Nat.add_comm]

/-- A wait holds the level for its cycles, in whatever delays. -/
theorem wait_ensures (once each : Nat) (t : UInt32) (follows : Follows shape o)
    (fits : o.cycles + waited once each t ≤ (o.now shape).cycles) :
    Ensures device (Follows shape) (fun _ o' => o' = o.hold (waited once each t)) (wait once each t) o := by
  unfold wait waited at *
  by_cases one : t = 1
  · subst one
    exact ⟨follows_hold follows fits,rfl⟩
  · by_cases none : t = 0
    · subst none
      exact rfl
    · have some : t > 0 := UInt32.pos_iff_ne_zero.mpr none
      have more : 1 < t.toNat := by
        have : t.toNat ≠ 1 := fun same => one (UInt32.toNat_inj.mp same)
        have : 0 < t.toNat := UInt32.lt_iff_toNat_lt.mp some
        omega
      have passes : (t - 1).toNat + 1 = t.toNat := by
        have at_least : 1 ≤ t := UInt32.le_iff_toNat_le.mpr (by simpa using Nat.le_of_lt more)
        rw [UInt32.toNat_sub_of_le _ _ at_least]
        exact Nat.sub_add_cancel (Nat.le_of_lt more)
      have total : t.toNat * each = (t - 1).toNat * each + each := by rw [← passes,Nat.succ_mul]
      simp only [if_neg one,if_neg none,if_pos some] at fits ⊢
      refine ensures_bind (delays_ensures each _ follows (by omega)) ?_
      rintro _ o' rfl
      have last : (o.hold ((t - 1).toNat * each)).hold each = o.hold (t.toNat * each) := by rw [hold_hold,total]
      refine ⟨?_,last⟩
      show Follows shape ((o.hold ((t - 1).toNat * each)).hold each)
      rw [last]
      exact follows_hold follows fits

/-- A wait after a switch is a segment. -/
theorem segment_ensures (once each : Nat) (t : UInt32) {n : Nat} {level : UInt32} (ends : Ends shape n o)
    (next : shape (n + 1) = ⟨level,waited once each t⟩) :
    Follows shape (o.switch level) ∧
    Ensures device (Follows shape) (fun _ o' => Ends shape (n + 1) o') (wait once each t) (o.switch level) := by
  obtain ⟨follows,segment,spent⟩ := ends
  have switched : Follows shape (o.switch level) := follows_switch follows spent (by rw [segment,next])
  have now : (o.switch level).now shape = ⟨level,waited once each t⟩ := by
    rw [Output.now,switch_length,segment,next]
  have fits : (o.switch level).cycles + waited once each t = ((o.switch level).now shape).cycles := by
    rw [now,switch_cycles,Nat.zero_add]
  refine ⟨switched,ensures_mono (wait_ensures once each t switched (Nat.le_of_eq fits)) (fun _ => id) ?_⟩
  rintro _ o' rfl
  exact ⟨follows_hold switched (Nat.le_of_eq fits),by rw [hold_past,switch_length,segment],fits⟩

/-! ### A program that makes passes -/

/-- The register as the PRU finds it. -/
def start (r30 : UInt32) : Output UInt32 := ⟨[],r30,0⟩

/-- Each part of the program keeps to the shape, or ends as `Ended` says; `Whole`
    holds between two passes. -/
structure Shaped (e : Example) (r30 : UInt32) (shape : Nat → Segment UInt32) (Whole Ended : Output UInt32 → Prop) : Prop where
  level : (shape 0).level = r30
  before : Ensures device (Follows shape) (fun _ o => Whole o) e.before (start r30)
  whole : ∀ o, Whole o → Follows shape o
  pass : ∀ o, Whole o → Ensures device (Follows shape) (fun _ o' => Whole o') e.pass o
  after : ∀ o, Whole o → Ensures device (fun o => Follows shape o ∨ Ended o) (fun _ o' => Ended o') e.after o

/-- The output keeps to the shape, and has ended once the PRU reports it, which it
    does before the host does. -/
structure Runs (shape : Nat → Segment UInt32) (Ended : Output UInt32 → Prop) (w : World) : Prop where
  allowed : Follows shape w.out ∨ Ended w.out
  ended : w.evtout_0 = true → Ended w.out
  completed : w.completed = true → w.evtout_0 = true

def Rely : Party → World → World → Prop
  | .host, w, w' => w'.completed = w.completed ∧ (w.evtout_0 = true → w'.evtout_0 = true)
  | .pru, w, w' => w'.out = w.out ∧ w'.evtout_0 = w.evtout_0

variable {e : Example} {r30 : UInt32} {Whole Ended : Output UInt32 → Prop} {w w' : World}

/-- What a party knows at the start of a block. -/
def Pre (r30 : UInt32) (Whole : Output UInt32 → Prop) : Party → Block → World → Prop
  | .host, .main, _ => True
  | .host, .returned, _ => True
  | .pru, .pru, w => w.evtout_0 = false ∧ w.out = start r30
  | .pru, .test, w => w.evtout_0 = false ∧ Whole w.out
  | .pru, .halted, _ => True
  | _, _, _ => False

def outline (e : Example) (r30 : UInt32) (shape : Nat → Segment UInt32) (Whole Ended : Output UInt32 → Prop) :
    Outline Party (system e) where
  inv := Runs shape Ended
  rely := Rely
  guar i _ w w' := ∀ j, j ≠ i → Rely j w w'
  pre := Pre r30 Whole
  refl i w := by cases i <;> simp [Rely]
  trans i w w' w'' := by
    cases i
    · rintro ⟨completed,event⟩ ⟨completed',event'⟩
      exact ⟨completed'.trans completed,event' ∘ event⟩
    · rintro ⟨out,event⟩ ⟨out',event'⟩
      exact ⟨out'.trans out,event'.trans event⟩
  compat other := fun kept => kept _ (Ne.symm other)

theorem host_guar (others : Rely .pru w w') : ∀ j, j ≠ .host → Rely j w w' := by
  intro j other
  cases j with
  | host => exact absurd rfl other
  | pru => exact others

theorem pru_guar (others : Rely .host w w') : ∀ j, j ≠ .pru → Rely j w w' := by
  intro j other
  cases j with
  | host => exact others
  | pru => exact absurd rfl other

/-- An access that only looks. -/
theorem same_sat {i : Party} {a : Access} {f : a.Answer → Code} {K : World → Prop} (knows : K w)
    (stable : ∀ {w w'}, K w → Rely i w w' → K w')
    (next : ∀ input w r t, K w → act a input w = some (r,t) → t = w ∧ (outline e r30 shape Whole Ended).Sat i (f r) w) :
    (outline e r30 shape Whole Ended).Sat i (.access a f) w := by
  intro w₁ input r t relied (runs : Runs shape Ended w₁) acted
  obtain ⟨rfl,sat⟩ := next input w₁ r t (stable knows relied) acted
  have settled : (system e).settle (f r) t = t := by cases f r <;> rfl
  show Runs shape Ended ((system e).settle (f r) t) ∧ (∀ j, j ≠ i → Rely j t ((system e).settle (f r) t)) ∧ _
  rw [settled]
  exact ⟨runs,fun j _ => (outline e r30 shape Whole Ended).refl j t,sat⟩

theorem look_sat {i : Party} {a : Access} {f : a.Answer → Code}
    (next : ∀ input w r t, act a input w = some (r,t) → t = w ∧ (outline e r30 shape Whole Ended).Sat i (f r) w) :
    (outline e r30 shape Whole Ended).Sat i (.access a f) w :=
  same_sat (K := fun _ => True) trivial (fun _ _ => trivial) (fun input w r t _ => next input w r t)

/-! ### The host -/

theorem check_sat {f : Gpio.Call} {next : Code} (sat : ∀ w, (outline e r30 shape Whole Ended).Sat .host next w) :
    (outline e r30 shape Whole Ended).Sat .host (check f next) w := by
  refine look_sat fun input w r t acted => ?_
  cases acted
  refine ⟨rfl,?_⟩
  show (outline e r30 shape Whole Ended).Sat .host (if input.result ≠ 0 then .ret .returned else next) w
  by_cases failed : input.result ≠ 0
  · rw [if_pos failed]
    exact trivial
  · rw [if_neg failed]
    exact sat w

theorem main_sat : (outline e r30 shape Whole Ended).Sat .host main w := by
  refine check_sat fun w => check_sat fun w => ?_
  intro w₁ input r t relied (runs : Runs shape Ended w₁) acted
  cases acted
  refine ⟨⟨runs.allowed,runs.ended,runs.completed⟩,host_guar ⟨rfl,rfl⟩,?_⟩
  refine look_sat fun input w r t acted => ?_
  simp only [act] at acted
  split at acted
  · rename_i event
    cases acted
    refine ⟨rfl,?_⟩
    intro w₂ input r t relied (runs : Runs shape Ended w₂) acted
    cases acted
    exact ⟨⟨runs.allowed,runs.ended,fun _ => relied.2 event⟩,host_guar ⟨rfl,rfl⟩,trivial⟩
  · cases acted

/-! ### The PRU -/

/-- The register as a part of the world. -/
def component (e : Example) : Component (system e) Out.Answer (Output UInt32) :=
  .of World.out (fun w o => { w with out := o }) (fun _ _ => rfl) Access.out device (fun _ _ _ => rfl)

/-- The part of a program between two accesses that are not to the register. -/
theorem out_sat {P : Output UInt32 → Prop} {p : OutProg Unit} {next : Code}
    (running : w.evtout_0 = false) (allowed : Follows shape w.out ∨ Ended w.out)
    (ensures : Ensures device (fun o => Follows shape o ∨ Ended o) (fun _ o => P o) p w.out)
    (sat : ∀ w, w.evtout_0 = false → (Follows shape w.out ∨ Ended w.out) → P w.out →
      (outline e r30 shape Whole Ended).Sat .pru next w) :
    (outline e r30 shape Whole Ended).Sat .pru (onOut p >>= fun _ => next) w := by
  cases p with
  | ret v => exact sat w running allowed ensures
  | access a more =>
    have settled : ∀ w, (system e).settle next w = w := by
      intro w
      cases next <;> rfl
    have kept : ∀ w o, w.evtout_0 = false → Runs shape Ended w → (Follows shape o ∨ Ended o) →
        Runs shape Ended { w with out := o } ∧ ∀ j, j ≠ .pru → Rely j w { w with out := o } := by
      intro w o running runs allowed
      exact ⟨⟨allowed,fun event => absurd (running.symm.trans event) (by simp),runs.completed⟩,pru_guar ⟨rfl,id⟩⟩
    refine sat_ensures (outline e r30 shape Whole Ended) (component e) (fun w => w.evtout_0 = false) ?_ ?_ ?_
      (.access a more) rfl running allowed ensures
    · rintro w w' running _ ⟨out,event⟩ _
      exact ⟨event.trans running,out⟩
    · intro a w o running runs allowed
      obtain ⟨runs',others⟩ := kept w o running runs allowed
      exact ⟨running,runs',others⟩
    · intro v a w o running runs allowed whole
      obtain ⟨runs',others⟩ := kept w o running runs allowed
      rw [settled]
      exact ⟨runs',others,sat _ running allowed whole⟩

theorem halted_sat : (outline e r30 shape Whole Ended).Sat .pru (body e .halted) w := by
  refine look_sat fun input w r t acted => ?_
  cases acted
  exact ⟨rfl,trivial⟩

/-- The interrupt, once the program has ended. -/
theorem trig_sat (ended : Ended w.out) :
    (outline e r30 shape Whole Ended).Sat .pru (call (Access.trig_intc 3) >>= fun _ => .ret .halted) w := by
  intro w₁ input r t relied (runs : Runs shape Ended w₁) acted
  cases acted
  have ended₁ : Ended w₁.out := by
    rw [relied.1]
    exact ended
  exact ⟨⟨runs.allowed,fun _ => ended₁,fun _ => Bool.or_true _⟩,pru_guar ⟨rfl,fun _ => Bool.or_true _⟩,trivial⟩

theorem between_stable {K : Output UInt32 → Prop} {w w' : World} (knows : w.evtout_0 = false ∧ K w.out)
    (relied : Rely .pru w w') : w'.evtout_0 = false ∧ K w'.out := by
  obtain ⟨running,here⟩ := knows
  obtain ⟨out,event⟩ := relied
  exact ⟨event.trans running,by rwa [out]⟩

theorem test_sat (shaped : Shaped e r30 shape Whole Ended) (running : w.evtout_0 = false) (whole : Whole w.out) :
    (outline e r30 shape Whole Ended).Sat .pru (test e) w := by
  refine same_sat (K := fun w => w.evtout_0 = false ∧ Whole w.out) ⟨running,whole⟩ between_stable
    (fun input w r t knows acted => ?_)
  obtain ⟨running,whole⟩ := knows
  cases acted
  refine ⟨rfl,?_⟩
  have allowed : Follows shape w.out ∨ Ended w.out := .inl (shaped.whole _ whole)
  show (outline e r30 shape Whole Ended).Sat .pru
    (if read_pin input.r31 e.stop = 0 then onOut e.pass >>= fun _ => .ret .test
      else onOut e.after >>= fun _ => call (Access.trig_intc 3) >>= fun _ => .ret .halted) w
  by_cases again : read_pin input.r31 e.stop = 0
  · rw [if_pos again]
    exact out_sat running allowed (ensures_mono (shaped.pass _ whole) (fun _ => .inl) (fun _ _ => id))
      (fun _ running _ whole => ⟨running,whole⟩)
  · rw [if_neg again]
    exact out_sat running allowed (shaped.after _ whole) (fun _ _ _ ended => trig_sat ended)

theorem pru_sat (shaped : Shaped e r30 shape Whole Ended) (running : w.evtout_0 = false) (fresh : w.out = start r30) :
    (outline e r30 shape Whole Ended).Sat .pru (body e .pru) w := by
  refine same_sat (K := fun w => w.evtout_0 = false ∧ w.out = start r30) ⟨running,fresh⟩
    (between_stable (K := fun o => o = start r30)) (fun input w r t knows acted => ?_)
  obtain ⟨running,fresh⟩ := knows
  simp only [act] at acted
  split at acted
  · cases acted
    refine ⟨rfl,?_⟩
    have allowed : Follows shape w.out ∨ Ended w.out := by
      rw [fresh,start,← shaped.level]
      exact .inl follows_start
    refine out_sat running allowed ?_ (fun _ running _ whole => ⟨running,whole⟩)
    rw [fresh]
    exact ensures_mono shaped.before (fun _ => .inl) (fun _ _ => id)
  · cases acted

theorem bodies_proved (shaped : Shaped e r30 shape Whole Ended) : (outline e r30 shape Whole Ended).Proved := by
  intro i b w _ pre
  cases i with
  | host =>
    cases b with
    | main => exact main_sat
    | returned =>
      refine look_sat fun input w r t acted => ?_
      cases acted
      exact ⟨rfl,trivial⟩
    | _ => exact pre.elim
  | pru =>
    cases b with
    | pru => exact pru_sat shaped pre.1 pre.2
    | test => exact test_sat shaped pre.1 pre.2
    | halted => exact halted_sat
    | _ => exact pre.elim

/-- A program whose parts keep to a shape keeps to it in every run. -/
theorem example_runs (shaped : Shaped e r30 shape Whole Ended) (schedule : List (Party × Input)) :
    Runs shape Ended ((system e).run ((system e).start (initial r30) first) schedule).shared := by
  have allowed : Follows shape (start r30) ∨ Ended (start r30) := by
    rw [start,← shaped.level]
    exact .inl follows_start
  have runs : Runs shape Ended (initial r30) := by
    refine ⟨allowed,?_,?_⟩
    · simp [initial]
    · simp [initial]
  refine ((outline e r30 shape Whole Ended).sound (bodies_proved shaped) runs ?_ schedule).inv
  intro i
  cases i with
  | host => trivial
  | pru => exact ⟨rfl,rfl⟩

/-! ### Pins -/

variable {r pin : UInt32}

theorem same_bits {a b : UInt32} (bits : ∀ i, (_ : i < 32) → a.toBitVec[i] = b.toBitVec[i]) : a = b :=
  UInt32.toBitVec_inj.mp (BitVec.eq_of_getElem_eq bits)

theorem deassert_assert (r pin : UInt32) : (r &&& ~~~pin) ||| pin = r ||| pin := by
  refine same_bits fun i _ => ?_
  simp only [UInt32.toBitVec_or,UInt32.toBitVec_and,UInt32.toBitVec_not,BitVec.getElem_or,BitVec.getElem_and,BitVec.getElem_not]
  cases r.toBitVec[i] <;> cases pin.toBitVec[i] <;> rfl

theorem assert_deassert (r pin : UInt32) : (r ||| pin) &&& ~~~pin = r &&& ~~~pin := by
  refine same_bits fun i _ => ?_
  simp only [UInt32.toBitVec_or,UInt32.toBitVec_and,UInt32.toBitVec_not,BitVec.getElem_or,BitVec.getElem_and,BitVec.getElem_not]
  cases r.toBitVec[i] <;> cases pin.toBitVec[i] <;> rfl

theorem deassert_deassert (r pin : UInt32) : (r &&& ~~~pin) &&& ~~~pin = r &&& ~~~pin := by
  rw [UInt32.and_assoc,UInt32.and_self]

theorem deassert_toggle (r pin : UInt32) : (r &&& ~~~pin) ^^^ pin = r ||| pin := by
  refine same_bits fun i _ => ?_
  simp only [UInt32.toBitVec_or,UInt32.toBitVec_and,UInt32.toBitVec_not,UInt32.toBitVec_xor,BitVec.getElem_or,
    BitVec.getElem_and,BitVec.getElem_not,BitVec.getElem_xor]
  cases r.toBitVec[i] <;> cases pin.toBitVec[i] <;> rfl

theorem assert_toggle (r pin : UInt32) : (r ||| pin) ^^^ pin = r &&& ~~~pin := by
  rw [← deassert_toggle,UInt32.xor_assoc,UInt32.xor_self,UInt32.xor_zero]

/-! ### The example `pwm` -/

/-- The register as it is found, and from then on high and low in turn. -/
def pwmShape (r30 pin period_us pulse_width_us : UInt32) : Nat → Segment UInt32
  | 0 => ⟨r30,0⟩
  | n + 1 =>
    if n % 2 = 0 then ⟨r30 ||| pin,waited 199 193 pulse_width_us⟩
    else ⟨r30 &&& ~~~pin,waited 199 193 (period_us - pulse_width_us)⟩

/-- After a whole number of periods. -/
structure Periods (r30 pin period_us pulse_width_us : UInt32) (o : Output UInt32) : Prop where
  follows : Follows (pwmShape r30 pin period_us pulse_width_us) o
  even : o.past.length % 2 = 0
  spent : o.cycles = (o.now (pwmShape r30 pin period_us pulse_width_us)).cycles

variable {period_us pulse_width_us : UInt32}

theorem pwm_high {n : Nat} (even : n % 2 = 0) :
    pwmShape r30 pin period_us pulse_width_us (n + 1) = ⟨r30 ||| pin,waited 199 193 pulse_width_us⟩ := if_pos even

theorem pwm_low {n : Nat} (even : n % 2 = 0) :
    pwmShape r30 pin period_us pulse_width_us (n + 2) = ⟨r30 &&& ~~~pin,waited 199 193 (period_us - pulse_width_us)⟩ :=
  if_neg (by omega)

/-- Between two periods the register is low, and as it was found before the first one. -/
theorem periods_level (periods : Periods r30 pin period_us pulse_width_us o) :
    o.level = if o.past.length = 0 then r30 else r30 &&& ~~~pin := by
  obtain ⟨follows,even,_⟩ := periods
  have level := follows.level
  rw [Output.now] at level
  cases length : o.past.length with
  | zero =>
    rw [length] at level
    exact level
  | succ n =>
    obtain ⟨m,rfl⟩ : ∃ m, n = m + 1 := ⟨n - 1,by omega⟩
    rw [length,pwm_low (by omega)] at level
    exact level

theorem periods_assert (periods : Periods r30 pin period_us pulse_width_us o) : assert_pin o.level pin = r30 ||| pin := by
  rw [periods_level periods]
  by_cases none : o.past.length = 0
  · rw [if_pos none]
    rfl
  · rw [if_neg none]
    exact deassert_assert r30 pin

/-- One period. -/
theorem pwm_pass (periods : Periods r30 pin period_us pulse_width_us o) :
    Ensures device (Follows (pwmShape r30 pin period_us pulse_width_us))
      (fun _ o' => Periods r30 pin period_us pulse_width_us o') (pwm pin period_us pulse_width_us).pass o := by
  have high := periods_assert periods
  obtain ⟨follows,even,spent⟩ := periods
  obtain ⟨up,pulse⟩ := segment_ensures 199 193 pulse_width_us ⟨follows,rfl,spent⟩
    (show _ = (⟨assert_pin o.level pin,_⟩ : Segment UInt32) by rw [high,pwm_high even])
  refine ⟨up,?_⟩
  show Ensures device _ _ (wait 199 193 pulse_width_us >>= fun _ => call (Out.deassert_pin pin) >>= fun _ =>
    wait 199 193 (period_us - pulse_width_us)) (o.switch (assert_pin o.level pin))
  refine ensures_bind pulse fun _ o₁ raised => ?_
  have low : deassert_pin o₁.level pin = r30 &&& ~~~pin := by
    rw [raised.level,pwm_high even]
    exact assert_deassert r30 pin
  obtain ⟨down,pause⟩ := segment_ensures 199 193 (period_us - pulse_width_us) raised
    (show _ = (⟨deassert_pin o₁.level pin,_⟩ : Segment UInt32) by rw [low,pwm_low even])
  refine ⟨down,ensures_mono pause (fun _ => id) ?_⟩
  rintro _ o₂ ⟨follows₂,segment₂,spent₂⟩
  exact ⟨follows₂,by omega,spent₂⟩

theorem pwm_shaped (r30 pin period_us pulse_width_us : UInt32) :
    Shaped (pwm pin period_us pulse_width_us) r30 (pwmShape r30 pin period_us pulse_width_us)
      (Periods r30 pin period_us pulse_width_us) (Periods r30 pin period_us pulse_width_us) where
  level := rfl
  before := ⟨follows_start,rfl,rfl⟩
  whole _ periods := periods.follows
  pass _ periods := pwm_pass periods
  after _ periods := periods

theorem pwm_pins (n : Nat) : (pwmShape r30 pin period_us pulse_width_us n).level &&& ~~~pin = r30 &&& ~~~pin := by
  cases n with
  | zero => rfl
  | succ n =>
    by_cases even : n % 2 = 0
    · rw [pwm_high even]
      exact assert_deassert r30 pin
    · obtain ⟨m,rfl⟩ : ∃ m, n = m + 1 := ⟨n - 1,by omega⟩
      rw [pwm_low (by omega)]
      exact deassert_deassert r30 pin

/-- What a run of `pwm` comes to. The output goes through the pulses and pauses, of
    which only the last may not be over; the other pins stay as they are; and it
    ends after a whole number of periods, low or as it was found if that is none,
    before the host says so. -/
structure PwmRun (r30 pin period_us pulse_width_us : UInt32) (w : World) : Prop where
  shape : Follows (pwmShape r30 pin period_us pulse_width_us) w.out
  other_pins : w.out.level &&& ~~~pin = r30 &&& ~~~pin
  ended : w.evtout_0 = true → Periods r30 pin period_us pulse_width_us w.out ∧
    w.out.level = if w.out.past.length = 0 then r30 else r30 &&& ~~~pin
  completed : w.completed = true → w.evtout_0 = true

/-- What a wait of a single microsecond takes beyond the 193 cycles of each. -/
def extra (t : UInt32) : Nat := if t = 1 then 6 else 0

/-- The cycles of a pulse and of the pause after it. A pulse width beyond the period
    makes the pause that of a difference modulo `2^32`. -/
structure PwmTimes (period_us pulse_width_us : UInt32) (pulse pause : Nat) : Prop where
  high : pulse = pulse_width_us.toNat * 193 + extra pulse_width_us
  period : pulse_width_us ≤ period_us →
    pulse + pause = period_us.toNat * 193 + extra pulse_width_us + extra (period_us - pulse_width_us)
  wrapped : period_us < pulse_width_us →
    pulse + pause = (period_us.toNat + 2^32) * 193 + extra pulse_width_us + extra (period_us - pulse_width_us)

theorem waited_us (t : UInt32) : waited 199 193 t = t.toNat * 193 + extra t := by
  unfold waited extra
  by_cases none : t = 0
  · subst none
    rfl
  · by_cases one : t = 1
    · subst one
      rfl
    · rw [if_neg none,if_neg one,if_neg one]
      rfl

theorem pwm_times (period_us pulse_width_us : UInt32) :
    PwmTimes period_us pulse_width_us (waited 199 193 pulse_width_us) (waited 199 193 (period_us - pulse_width_us)) := by
  have difference : (period_us - pulse_width_us).toNat = (2^32 - pulse_width_us.toNat + period_us.toNat) % 2^32 :=
    UInt32.toNat_sub period_us pulse_width_us
  have period_lt := period_us.toNat_lt
  have width_lt := pulse_width_us.toNat_lt
  rw [waited_us,waited_us]
  refine ⟨rfl,?_,?_⟩
  · intro inside
    rw [UInt32.le_iff_toNat_le] at inside
    have pause : (period_us - pulse_width_us).toNat = period_us.toNat - pulse_width_us.toNat := by omega
    rw [pause]
    omega
  · intro beyond
    rw [UInt32.lt_iff_toNat_lt] at beyond
    have pause : (period_us - pulse_width_us).toNat = period_us.toNat + 2^32 - pulse_width_us.toNat := by omega
    rw [pause]
    omega

/-- Whatever the register holds at the start and the input pins do, and however
    the host and the PRU interleave. -/
theorem pwm_waveform (r30 pin period_us pulse_width_us : UInt32) (schedule : List (Party × Input)) :
    PwmRun r30 pin period_us pulse_width_us ((system (pwm pin period_us pulse_width_us)).run
      ((system (pwm pin period_us pulse_width_us)).start (initial r30) first) schedule).shared ∧
    PwmTimes period_us pulse_width_us (pwmShape r30 pin period_us pulse_width_us 1).cycles
      (pwmShape r30 pin period_us pulse_width_us 2).cycles := by
  obtain ⟨allowed,ended,completed⟩ := example_runs (pwm_shaped r30 pin period_us pulse_width_us) schedule
  refine ⟨?_,pwm_times period_us pulse_width_us⟩
  have follows := allowed.elim id Periods.follows
  refine ⟨follows,?_,fun event => ⟨ended event,periods_level (ended event)⟩,completed⟩
  rw [follows.level]
  exact pwm_pins _

/-- The delays of the half second in `main`. -/
example : (pwmShape 0 P8_46 1000000 500000 1).cycles = 96500000 := by decide

/-! ### The example `gpio` -/

/-- High at first, but only until the pass that follows, and then low and high in turn. -/
def blinkShape (r30 out : UInt32) : Nat → Segment UInt32
  | 0 => ⟨r30,0⟩
  | 1 => ⟨r30 ||| out,0⟩
  | n + 2 =>
    if n % 2 = 0 then ⟨r30 &&& ~~~out,waited 199999 199993 500⟩
    else ⟨r30 ||| out,waited 199999 199993 500⟩

/-- After a whole number of passes. -/
structure Passes (r30 out : UInt32) (o : Output UInt32) : Prop where
  follows : Follows (blinkShape r30 out) o
  begun : 0 < o.past.length
  spent : o.cycles = (o.now (blinkShape r30 out)).cycles

/-- Low at last, after segments that are all of the full length. -/
structure BlinkEnded (r30 out : UInt32) (o : Output UInt32) : Prop where
  begun : 1 < o.past.length
  past : o.past = (List.range o.past.length).map (blinkShape r30 out)
  level : o.level = r30 &&& ~~~out

variable {out : UInt32}

theorem blink_low {n : Nat} (even : n % 2 = 0) :
    blinkShape r30 out (n + 2) = ⟨r30 &&& ~~~out,waited 199999 199993 500⟩ := if_pos even

theorem blink_high {n : Nat} (odd : n % 2 = 1) :
    blinkShape r30 out (n + 2) = ⟨r30 ||| out,waited 199999 199993 500⟩ := if_neg (by omega)

/-- The pin of each segment from the first one of the program on. -/
theorem blink_level (n : Nat) :
    (blinkShape r30 out (n + 1)).level = if n % 2 = 0 then r30 ||| out else r30 &&& ~~~out := by
  cases n with
  | zero => rfl
  | succ n =>
    by_cases even : n % 2 = 0
    · rw [blink_low even,if_neg (by omega)]
    · rw [blink_high (by omega),if_pos (by omega)]

theorem blink_toggles (n : Nat) :
    toggle_pin (blinkShape r30 out (n + 1)).level out = (blinkShape r30 out (n + 2)).level := by
  rw [blink_level,blink_level]
  by_cases even : n % 2 = 0
  · rw [if_pos even,if_neg (by omega)]
    exact assert_toggle r30 out
  · rw [if_neg even,if_pos (by omega)]
    exact deassert_toggle r30 out

theorem blink_cycles (n : Nat) : (blinkShape r30 out (n + 2)).cycles = waited 199999 199993 500 := by
  by_cases even : n % 2 = 0
  · rw [blink_low even]
  · rw [blink_high (by omega)]

theorem blink_pins (n : Nat) : (blinkShape r30 out n).level &&& ~~~out = r30 &&& ~~~out := by
  cases n with
  | zero => rfl
  | succ n =>
    rw [blink_level]
    by_cases even : n % 2 = 0
    · rw [if_pos even]
      exact assert_deassert r30 out
    · rw [if_neg even]
      exact deassert_deassert r30 out

/-- One pass. -/
theorem blink_pass {stop : UInt32} (passes : Passes r30 out o) :
    Ensures device (Follows (blinkShape r30 out)) (fun _ o' => Passes r30 out o') (blink out stop).pass o := by
  obtain ⟨follows,begun,spent⟩ := passes
  obtain ⟨n,length⟩ : ∃ n, o.past.length = n + 1 := ⟨o.past.length - 1,by omega⟩
  have next : blinkShape r30 out (n + 2) = ⟨toggle_pin o.level out,waited 199999 199993 500⟩ := by
    rw [follows.level,Output.now,length,blink_toggles,← blink_cycles n]
  obtain ⟨toggled,later⟩ := segment_ensures 199999 199993 500 ⟨follows,length,spent⟩ next
  refine ⟨toggled,ensures_mono later (fun _ => id) ?_⟩
  rintro _ o' ⟨follows',segment',spent'⟩
  exact ⟨follows',by omega,spent'⟩

theorem blink_shaped (r30 out stop : UInt32) :
    Shaped (blink out stop) r30 (blinkShape r30 out) (Passes r30 out) (BlinkEnded r30 out) where
  level := rfl
  before := by
    have fresh : Follows (blinkShape r30 out) (start r30) := follows_start
    have raised : Follows (blinkShape r30 out) ((start r30).switch (assert_pin r30 out)) :=
      follows_switch fresh rfl rfl
    exact ⟨raised,raised,Nat.one_pos,rfl⟩
  whole _ passes := passes.follows
  pass _ passes := blink_pass passes
  after o passes := by
    obtain ⟨follows,begun,spent⟩ := passes
    have ended : BlinkEnded r30 out (o.switch (deassert_pin o.level out)) := by
      constructor
      · rw [switch_length]
        exact Nat.succ_lt_succ begun
      · rw [switch_past follows spent,List.length_map,List.length_range]
      · show o.level &&& ~~~out = r30 &&& ~~~out
        rw [follows.level]
        exact blink_pins _
    exact ⟨.inr ended,ended⟩

/-- What a run of `gpio` comes to. The output goes through the shape, of which only
    the last segment may not be over, or has ended low; the other pins stay as they
    are; and it has ended before the host says so. -/
structure BlinkRun (r30 out : UInt32) (w : World) : Prop where
  shape : Follows (blinkShape r30 out) w.out ∨ BlinkEnded r30 out w.out
  other_pins : w.out.level &&& ~~~out = r30 &&& ~~~out
  ended : w.evtout_0 = true → BlinkEnded r30 out w.out
  completed : w.completed = true → w.evtout_0 = true

theorem blink_run (r30 out stop : UInt32) (schedule : List (Party × Input)) :
    BlinkRun r30 out ((system (blink out stop)).run ((system (blink out stop)).start (initial r30) first) schedule).shared := by
  obtain ⟨allowed,ended,completed⟩ := example_runs (blink_shaped r30 out stop) schedule
  refine ⟨allowed,?_,ended,completed⟩
  rcases allowed with follows | ended
  · rw [follows.level]
    exact blink_pins _
  · rw [ended.level]
    exact deassert_deassert r30 out

/-- On either PRU, whatever its register holds at the start and its input pins do. -/
theorem gpio_blinks (PRU_NUM : Nat) (r30 : UInt32) (schedule : List (Party × Input)) :
    BlinkRun r30 (if PRU_NUM = 0 then P9_27 else P8_46)
      ((system (gpio_main PRU_NUM)).run ((system (gpio_main PRU_NUM)).start (initial r30) first) schedule).shared := by
  unfold gpio_main
  by_cases zero : PRU_NUM = 0
  · rw [if_pos zero,if_pos zero]
    exact blink_run r30 P9_27 P9_28 schedule
  · rw [if_neg zero,if_neg zero]
    exact blink_run r30 P8_46 P8_45 schedule

end NeslPru.Waveform
