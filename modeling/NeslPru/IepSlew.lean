import NeslPru.Iep
import NeslPru.PruTimeOffset

/-!
The `slew_cc` of the example programs, which has the hardware count slower or
faster for some cycles instead of setting the clock. It or-s the increment into
`IEP_REG`, so that increments pile up from call to call (`all_fresh_iff`), and
the cycle that counts faster replaces an increment of one that it was to add to
(`slewed_iff`).
-/
namespace NeslPru.IepSlew
open NeslPru.Iep
open NeslPru.PruTime (s64)
open NeslPru.PruTimeOffset (toInt_eq_bmod)
set_option linter.unusedSimpArgs false

/-- The registers that `slew_cc` writes. -/
structure comp_regs where
  IEP_REG : UInt32
  IEP_COMPEN : UInt32
deriving DecidableEq

def SET_IEP_COMP_INC (regs : comp_regs) (val : UInt32) : comp_regs :=
  { regs with IEP_REG := regs.IEP_REG ||| (val <<< 8) }

/-- The absolute value of the least number is that number. -/
def llabs (delta : s64) : s64 := if delta < 0 then -delta else delta

def slew_cc (delta : s64) (regs : comp_regs) : Int32 × comp_regs :=
  let abs_delta : UInt64 := (llabs delta).toUInt64
  if abs_delta < 100 then
    let (comp_cycles,comp_inc) : UInt8 × UInt8 :=
      if delta < 0 then
        -- PRU clock was too fast
        ((abs_delta / 5).toUInt8,0)
      else
        -- PRU clock was too slow
        (1,(abs_delta / 5).toUInt8)
    let regs := SET_IEP_COMP_INC regs comp_inc.toUInt32
    (1,{ regs with IEP_COMPEN := comp_cycles.toUInt32 })
  else
    (0,regs)

/-- The registers once the timer has been enabled. -/
def enabled (regs : iep_regs) (compen : UInt32) : comp_regs :=
  ⟨(ENABLE_IEP_TMR (DISABLE_IEP_TMR regs)).IEP_REG,compen⟩

/-! ### One call -/

/-- Whether a call takes the delta on. -/
def Accepted (delta : s64) : Prop := |delta.toInt| < 100

instance (delta : s64) : Decidable (Accepted delta) := inferInstanceAs (Decidable (_ < _))

/-- The increment and the number of cycles that a delta asks for. -/
def increment (delta : s64) : UInt32 := if delta.toInt < 0 then 0 else UInt32.ofNat (delta.toInt.natAbs / 5)
def cycles (delta : s64) : UInt32 := if delta.toInt < 0 then UInt32.ofNat (delta.toInt.natAbs / 5) else 1

theorem llabs_toNat (delta : s64) : (llabs delta).toUInt64.toNat = delta.toInt.natAbs := by
  have signed := toInt_eq_bmod delta
  have small := delta.toUInt64.toNat_lt
  have negated : (-delta).toUInt64.toNat = (2^64 - delta.toUInt64.toNat) % 2^64 := UInt64.toNat_neg delta.toUInt64
  have negative : delta < 0 ↔ delta.toInt < 0 := Int64.lt_iff_toInt_lt
  rw [Int.bmod] at signed
  unfold llabs
  by_cases fast : delta.toInt < 0
  · rw [if_pos (negative.mpr fast),negated]
    omega
  · rw [if_neg (mt negative.mp fast)]
    omega

theorem byte_word {x : UInt64} {n : Nat} (is : x.toNat = n) (small : n < 100) :
    (x / 5).toUInt8.toUInt32 = UInt32.ofNat (n / 5) := by
  apply UInt32.toNat_inj.mp
  rw [UInt8.toNat_toUInt32,UInt64.toNat_toUInt8,UInt64.toNat_div,is,UInt32.toNat_ofNat']
  have five : (5 : UInt64).toNat = 5 := rfl
  rw [five]
  omega

theorem slew_cc_accepted {delta : s64} (accepted : Accepted delta) (regs : comp_regs) :
    slew_cc delta regs = (1,⟨regs.IEP_REG ||| (increment delta <<< 8),cycles delta⟩) := by
  have small : delta.toInt.natAbs < 100 := by
    have := abs_lt.mp accepted
    omega
  have taken : (llabs delta).toUInt64 < 100 := by
    rw [UInt64.lt_iff_toNat_lt,llabs_toNat]
    exact small
  have negative : delta < 0 ↔ delta.toInt < 0 := Int64.lt_iff_toInt_lt
  simp only [slew_cc,taken,↓reduceIte,SET_IEP_COMP_INC]
  by_cases fast : delta.toInt < 0
  · simp only [negative.mpr fast,↓reduceIte,byte_word (llabs_toNat delta) small,increment,cycles,fast]
    rfl
  · simp only [mt negative.mp fast,↓reduceIte,byte_word (llabs_toNat delta) small,increment,cycles,fast]
    rfl

theorem slew_cc_rejected {delta : s64} (rejected : ¬ Accepted delta) (regs : comp_regs) : slew_cc delta regs = (0,regs) := by
  have large : ¬ (llabs delta).toUInt64 < 100 := by
    rw [UInt64.lt_iff_toNat_lt,llabs_toNat]
    intro small
    have is_small : delta.toInt.natAbs < 100 := small
    exact rejected (abs_lt.mpr ⟨by omega,by omega⟩)
  simp only [slew_cc,large,↓reduceIte]

/-! ### The increments of many calls -/

/-- The registers once the increments `field` have been or-ed in. -/
def Programmed (field : UInt32) (regs : comp_regs) : Prop := regs.IEP_REG = (0x11 : UInt32) ||| (field <<< 8)

/-- A call programs the registers as if it were the first one, or leaves them alone. -/
def Fresh (delta : s64) (before : comp_regs) (called : Int32 × comp_regs) : Prop :=
  if Accepted delta then
    called.1 = 1 ∧ called.2.IEP_REG >>> 8 = increment delta ∧ called.2.IEP_REG &&& 0xff = 0x11 ∧
      called.2.IEP_COMPEN = cycles delta
  else called = (0,before)

/-- Every call of a sequence does so. -/
def AllFresh : comp_regs → List s64 → Prop
  | _, [] => True
  | regs, delta :: rest => Fresh delta regs (slew_cc delta regs) ∧ AllFresh (slew_cc delta regs).2 rest

theorem increment_small {delta : s64} (accepted : Accepted delta) : (increment delta).toNat < 32 := by
  have := abs_lt.mp accepted
  unfold increment
  split
  · decide
  · rw [UInt32.toNat_ofNat']
    omega

theorem enabled_programmed (regs : iep_regs) (compen : UInt32) : Programmed 0 (enabled regs compen) := by
  simp [Programmed,enabled,ENABLE_IEP_TMR,DISABLE_IEP_TMR]

theorem programmed_field {field : UInt32} {regs : comp_regs} (programmed : Programmed field regs) (small : field.toNat < 32) :
    regs.IEP_REG >>> 8 = field ∧ regs.IEP_REG &&& 0xff = 0x11 := by
  have word : regs.IEP_REG.toNat = field.toNat * 256 + 17 := by
    have shifted : (field <<< 8).toNat = field.toNat <<< 8 :=
      (UInt32.toNat_shiftLeft field 8).trans (Nat.mod_eq_of_lt (by rw [Nat.shiftLeft_eq]; show field.toNat * 256 < 2^32; omega))
    rw [programmed,UInt32.toNat_or,shifted,Nat.or_comm]
    exact (Nat.shiftLeft_add_eq_or_of_lt (b := 17) (i := 8) (by decide) field.toNat).symm.trans
      (by rw [Nat.shiftLeft_eq])
  constructor
  · apply UInt32.toNat_inj.mp
    calc (regs.IEP_REG >>> 8).toNat = regs.IEP_REG.toNat >>> 8 := UInt32.toNat_shiftRight regs.IEP_REG 8
      _ = field.toNat := by rw [word,Nat.shiftRight_eq_div_pow]; omega
  · apply UInt32.toNat_inj.mp
    calc (regs.IEP_REG &&& 0xff).toNat = regs.IEP_REG.toNat % 2^8 := Nat.and_two_pow_sub_one_eq_mod _ 8
      _ = 17 := by rw [word]; omega

theorem slew_programmed {field : UInt32} {regs : comp_regs} {delta : s64} (programmed : Programmed field regs)
    (accepted : Accepted delta) : Programmed (field ||| increment delta) (slew_cc delta regs).2 := by
  rw [slew_cc_accepted accepted,Programmed,programmed,UInt32.shiftLeft_or,UInt32.or_assoc]

theorem or_small {field : UInt32} {delta : s64} (small : field.toNat < 32) (accepted : Accepted delta) :
    (field ||| increment delta).toNat < 32 := by
  rw [UInt32.toNat_or]
  exact Nat.or_lt_two_pow (n := 5) small (increment_small accepted)

/-- A call that is taken on is fresh when its increment covers the bits that are set already. -/
theorem fresh_iff {field : UInt32} {regs : comp_regs} {delta : s64} (programmed : Programmed field regs)
    (small : field.toNat < 32) (accepted : Accepted delta) :
    Fresh delta regs (slew_cc delta regs) ↔ field ||| increment delta = increment delta := by
  have programmed' := slew_programmed programmed accepted
  obtain ⟨set,low⟩ := programmed_field programmed' (or_small small accepted)
  simp only [Fresh,accepted,↓reduceIte,set,low,true_and]
  constructor
  · rintro ⟨-,covers,-⟩
    exact covers
  · intro covers
    exact ⟨by rw [slew_cc_accepted accepted],covers,by rw [slew_cc_accepted accepted]⟩

/-- What covers an increment covers all that the increment covers. -/
theorem covers_trans {a b c : UInt32} (first : a ||| b = b) (second : b ||| c = c) : a ||| c = c := by
  rw [← second,← UInt32.or_assoc,first]

theorem programmed_all_fresh_iff {field : UInt32} {regs : comp_regs} {deltas : List s64}
    (programmed : Programmed field regs) (small : field.toNat < 32) :
    AllFresh regs deltas ↔
      (∀ delta ∈ deltas.filter Accepted, field ||| increment delta = increment delta) ∧
        (deltas.filter Accepted).Pairwise fun earlier later => increment earlier ||| increment later = increment later := by
  induction deltas generalizing field regs with
  | nil => simp [AllFresh]
  | cons delta rest ih =>
    by_cases accepted : Accepted delta
    · have later := ih (slew_programmed programmed accepted) (or_small small accepted)
      simp only [AllFresh,fresh_iff programmed small accepted,later,List.filter_cons,accepted,decide_true,↓reduceIte,
        List.forall_mem_cons,List.pairwise_cons]
      constructor
      · rintro ⟨covers,field_covers,pairwise⟩
        rw [covers] at field_covers
        exact ⟨⟨covers,fun d member => covers_trans covers (field_covers d member)⟩,field_covers,pairwise⟩
      · rintro ⟨⟨covers,-⟩,field_covers,pairwise⟩
        rw [covers]
        exact ⟨rfl,field_covers,pairwise⟩
    · have unchanged := slew_cc_rejected accepted regs
      have fresh : Fresh delta regs (0,regs) := by simp [Fresh,accepted]
      simp only [AllFresh,unchanged,fresh,true_and,ih programmed small,List.filter_cons,accepted,decide_false,
        Bool.false_eq_true,↓reduceIte]

/-- From the enabled timer on, every call programs the registers afresh exactly
    when the increment of each accepted delta has all the bits of those before it. -/
theorem all_fresh_iff (regs : iep_regs) (compen : UInt32) (deltas : List s64) :
    AllFresh (enabled regs compen) deltas ↔
      (deltas.filter Accepted).Pairwise fun earlier later => increment earlier ||| increment later = increment later := by
  rw [programmed_all_fresh_iff (enabled_programmed regs compen) (by decide)]
  simp

/-- The increment of 10 for a clock 50 ns too slow is still there when the clock is 10 ns too fast. -/
theorem stale_increment : ¬ AllFresh (enabled ⟨0,0⟩ 0) [50,-10] := by
  rintro ⟨-,second,-⟩
  exact absurd second.2.1 (by decide)

/-! ### The counter -/

/-- The timer at a true count. -/
structure Timer where
  regs : comp_regs
  count : Nat

namespace Timer

/-- One clock cycle. -/
def tick (t : Timer) : Timer :=
  if 0 < t.regs.IEP_COMPEN then
    ⟨{ t.regs with IEP_COMPEN := t.regs.IEP_COMPEN - 1 },t.count + (t.regs.IEP_REG >>> 8).toNat⟩
  else { t with count := t.count + 1 }

def ticks : Nat → Timer → Timer
  | 0, t => t
  | n + 1, t => ticks n t.tick

def slew (delta : s64) (t : Timer) : Timer := { t with regs := (slew_cc delta t.regs).2 }

/-- A call and the cycles until the next one, many times over. -/
def play (t : Timer) : List (s64 × Nat) → Timer
  | [] => t
  | (delta,n) :: rest => play (ticks n (t.slew delta)) rest

end Timer

/-- Every call is taken on, and done with before the next one. -/
def Settles : Timer → List (s64 × Nat) → Prop
  | _, [] => True
  | t, (delta,n) :: rest =>
    Accepted delta ∧ (Timer.ticks n (t.slew delta)).regs.IEP_COMPEN = 0 ∧ Settles (Timer.ticks n (t.slew delta)) rest

/-- What the counter advances by: the cycles, and the counts that the deltas ask for. -/
def due (history : List (s64 × Nat)) : Int := (history.map fun (delta,n) => n + delta.toInt.tdiv 5).sum

/-- The cycles that are left of a call run down, each with the increment that has been set. -/
theorem ticks_spec (n : Nat) (t : Timer) :
    (Timer.ticks n t).regs.IEP_REG = t.regs.IEP_REG ∧
      (Timer.ticks n t).regs.IEP_COMPEN.toNat = t.regs.IEP_COMPEN.toNat - n ∧
      (Timer.ticks n t).count = t.count + (t.regs.IEP_REG >>> 8).toNat * min n t.regs.IEP_COMPEN.toNat +
        (n - t.regs.IEP_COMPEN.toNat) := by
  induction n generalizing t with
  | zero => simp [Timer.ticks]
  | succ n ih =>
    simp only [Timer.ticks]
    by_cases compensating : 0 < t.regs.IEP_COMPEN
    · have ticked : t.tick = ⟨⟨t.regs.IEP_REG,t.regs.IEP_COMPEN - 1⟩,t.count + (t.regs.IEP_REG >>> 8).toNat⟩ :=
        if_pos compensating
      have positive : 0 < t.regs.IEP_COMPEN.toNat := compensating
      have one_less : (t.regs.IEP_COMPEN - 1).toNat = t.regs.IEP_COMPEN.toNat - 1 :=
        UInt32.toNat_sub_of_le _ _ (UInt32.le_iff_toNat_le.mpr positive)
      have one_more : min (n + 1) t.regs.IEP_COMPEN.toNat = min n (t.regs.IEP_COMPEN.toNat - 1) + 1 := by omega
      obtain ⟨field,left,count⟩ := ih t.tick
      simp only [ticked,one_less] at field left count
      rw [ticked,field,left,count,one_more,Nat.mul_succ]
      exact ⟨rfl,by omega,by omega⟩
    · have ticked : t.tick = { t with count := t.count + 1 } := if_neg compensating
      have done : t.regs.IEP_COMPEN.toNat = 0 := Nat.eq_zero_of_not_pos compensating
      obtain ⟨field,left,count⟩ := ih t.tick
      simp only [ticked,done] at field left count
      rw [ticked,field,left,count,done]
      exact ⟨rfl,by omega,by simp; omega⟩

/-- A call that is done with has gained its cycles with the increment that has
    been set, in place of as many cycles with an increment of one. -/
theorem slew_spec {field : UInt32} {t : Timer} {delta : s64} {n : Nat} (programmed : Programmed field t.regs)
    (small : field.toNat < 32) (accepted : Accepted delta) (done : (Timer.ticks n (t.slew delta)).regs.IEP_COMPEN = 0) :
    Programmed (field ||| increment delta) (Timer.ticks n (t.slew delta)).regs ∧
      ((Timer.ticks n (t.slew delta)).count : Int) = t.count + n +
        ((field ||| increment delta).toNat * (cycles delta).toNat - (cycles delta).toNat) := by
  obtain ⟨same_field,left,count⟩ := ticks_spec n (t.slew delta)
  have programmed' := slew_programmed programmed accepted
  obtain ⟨set,-⟩ := programmed_field programmed' (or_small small accepted)
  have compen : (t.slew delta).regs.IEP_COMPEN = cycles delta := by
    simp only [Timer.slew,slew_cc_accepted accepted]
  have enough : (cycles delta).toNat ≤ n := by
    rw [done,compen] at left
    have : (0 : UInt32).toNat = 0 := rfl
    omega
  constructor
  · rw [Programmed,same_field]
    exact programmed'
  · have field_set : (t.slew delta).regs.IEP_REG >>> 8 = field ||| increment delta := set
    have counted : (t.slew delta).count = t.count := rfl
    rw [count,field_set,compen,counted,Nat.min_eq_right enough]
    push_cast
    omega

/-- A quotient that is cut off is that of the absolute value, with the sign. -/
theorem tdiv_natAbs (x : Int) : x.tdiv 5 = if x < 0 then -((x.natAbs / 5 : Nat) : Int) else (x.natAbs / 5 : Nat) := by
  split
  · rename_i negative
    rw [← neg_neg x,Int.neg_tdiv,Int.tdiv_eq_ediv_of_nonneg (by omega)]
    omega
  · rw [Int.tdiv_eq_ediv_of_nonneg (by omega)]
    omega

/-- With no increment set before, a clock that is too fast loses what it should,
    and one that is too slow gains one count too few. -/
theorem slew_clear {t : Timer} {delta : s64} {n : Nat} (programmed : Programmed 0 t.regs) (accepted : Accepted delta)
    (done : (Timer.ticks n (t.slew delta)).regs.IEP_COMPEN = 0) :
    ((Timer.ticks n (t.slew delta)).count : Int) = t.count + (n + delta.toInt.tdiv 5) - (if delta < 0 then 0 else 1) ∧
      (delta < 0 → Programmed 0 (Timer.ticks n (t.slew delta)).regs) := by
  obtain ⟨programmed',count⟩ := slew_spec programmed (by decide) accepted done
  rw [UInt32.zero_or] at programmed' count
  have range := abs_lt.mp accepted
  have negative : delta < 0 ↔ delta.toInt < 0 := Int64.lt_iff_toInt_lt
  by_cases fast : delta.toInt < 0
  · have none_set : increment delta = 0 := if_pos fast
    have lost : ((cycles delta).toNat : Int) = -delta.toInt.tdiv 5 := by
      rw [cycles,if_pos fast,UInt32.toNat_ofNat',tdiv_natAbs,if_pos fast]
      omega
    rw [none_set] at programmed' count
    rw [if_pos (negative.mpr fast),count,lost]
    exact ⟨by simp; omega,fun _ => programmed'⟩
  · have gained : ((increment delta).toNat : Int) = delta.toInt.tdiv 5 := by
      rw [increment,if_neg fast,UInt32.toNat_ofNat',tdiv_natAbs,if_neg fast]
      omega
    have once : cycles delta = 1 := if_neg fast
    rw [if_neg (mt negative.mp fast),count,gained,once]
    exact ⟨by simp; omega,fun fast' => absurd (negative.mp fast') fast⟩

/-- From a timer without an increment on, the counter is exact at every pause as
    long as every clock is too fast. -/
theorem slewed_clear_iff {t : Timer} {history : List (s64 × Nat)} (programmed : Programmed 0 t.regs)
    (settles : Settles t history) :
    (∀ before, before <+: history → ((t.play before).count : Int) = t.count + due before) ↔
      ∀ slewed ∈ history, slewed.1 < 0 := by
  induction history generalizing t with
  | nil => simp [Timer.play,due]
  | cons slewed rest ih =>
    obtain ⟨delta,n⟩ := slewed
    obtain ⟨accepted,done,settles'⟩ := settles
    obtain ⟨count,still_clear⟩ := slew_clear programmed accepted done
    have due_cons : ∀ before, due ((delta,n) :: before) = (n + delta.toInt.tdiv 5) + due before := fun _ => rfl
    simp only [List.forall_mem_cons]
    constructor
    · intro exact_count
      have first := exact_count [(delta,n)] (List.prefix_append [(delta,n)] rest)
      have fast : delta < 0 := by
        by_contra slow
        have nothing : due [] = 0 := rfl
        rw [due_cons,nothing,Timer.play,Timer.play,count,if_neg slow] at first
        omega
      refine ⟨fast,(ih (still_clear fast) settles').mp fun before started => ?_⟩
      have later := exact_count ((delta,n) :: before) (List.cons_prefix_cons.mpr ⟨rfl,started⟩)
      simp only [Timer.play,due_cons] at later
      rw [later,count,if_pos fast]
      omega
    · rintro ⟨fast,rest_fast⟩ before started
      have exact_count := (ih (still_clear fast) settles').mpr rest_fast
      cases before with
      | nil => simp [Timer.play,due]
      | cons first before =>
        obtain ⟨rfl,started'⟩ := List.cons_prefix_cons.mp started
        rw [Timer.play,exact_count before started',count,if_pos fast,due_cons]
        omega

/-- From the enabled timer on, the counter has advanced at every pause by the
    cycles and by what the deltas ask for exactly when every delta is negative. -/
theorem slewed_iff (regs : iep_regs) (compen : UInt32) (count : Nat) (history : List (s64 × Nat))
    (settles : Settles ⟨enabled regs compen,count⟩ history) :
    (∀ before, before <+: history →
      ((Timer.play ⟨enabled regs compen,count⟩ before).count : Int) = count + due before) ↔
      ∀ slewed ∈ history, slewed.1 < 0 :=
  slewed_clear_iff (enabled_programmed regs compen) settles

/-- A clock 10 ns too slow gains one count in 8 cycles, and not two; one that is
    3 ns too slow loses one. -/
theorem one_count_short : Settles ⟨enabled ⟨0,0⟩ 0,0⟩ [(10,8)] ∧ Settles ⟨enabled ⟨0,0⟩ 0,0⟩ [(3,8)] ∧
    ¬ ((Timer.play ⟨enabled ⟨0,0⟩ 0,0⟩ [(10,8)]).count : Int) = 0 + due [(10,8)] ∧
    ¬ ((Timer.play ⟨enabled ⟨0,0⟩ 0,0⟩ [(3,8)]).count : Int) = 0 + due [(3,8)] := by
  simp only [Settles]
  decide

/-- Clocks that are too fast by 10, 24 and 3 ns. -/
theorem slewed_fast : ((Timer.play ⟨enabled ⟨0,0⟩ 0,1000⟩ [(-10,3),(-24,4),(-3,2)]).count : Int) =
    1000 + due [(-10,3),(-24,4),(-3,2)] :=
  (slewed_iff ⟨0,0⟩ 0 1000 [(-10,3),(-24,4),(-3,2)] (by simp only [Settles]; decide)).mpr (by decide) _ List.prefix_rfl

end NeslPru.IepSlew
