import NeslPru.PruTimeExact

/-!
The offset of the clock of `nesl_pru_time.h`: what `adj_pru_time` adds to it is
what it returns and hands to `slew_cc`, and what `init_pru_time` starts it with
is a number of counts where the readings are nanoseconds.
-/
namespace NeslPru.PruTimeOffset
open NeslPru.Counter NeslPru.PruTime NeslPru.PruTimeExact NeslPru.Calls
set_option linter.unusedSimpArgs false

variable {σ : Type}

/-! ### Setting the clock -/

/-- `slew_cc`, and a list of what it has been called with. -/
def recording (slew_cc : s64 → σ → Int32 × σ) (delta : s64) (s : σ × List s64) : Int32 × (σ × List s64) :=
  ((slew_cc delta s.1).1,((slew_cc delta s.1).2,s.2 ++ [delta]))

/-- The clock jumped from one time to another. -/
def jumped (time : pru_time σ) (ts_pru ts_host : u64) : pru_time σ :=
  { time with tc := { time.tc with nsec := time.tc.nsec + ts_host - ts_pru } }

/-- The signed reading of 64 bits. -/
theorem toInt_eq_bmod (x : s64) : x.toInt = (x.toUInt64.toNat : Int).bmod (2^64) :=
  BitVec.toInt_eq_toNat_bmod x.toBitVec

/-- The sign of a difference survives as long as it fits. -/
theorem adj_delta_toInt {ts_pru ts_host : u64} (fits : |(ts_host.toNat : Int) - ts_pru.toNat| < 2^63) :
    (adj_delta ts_pru ts_host).toInt = ts_host.toNat - ts_pru.toNat := by
  have modulo : ((ts_host - ts_pru).toNat : Int) = ((ts_host.toNat : Int) - ts_pru.toNat) % (2^64 : Nat) := by
    rw [← ofInt_difference,toNat_ofInt]
    rfl
  rw [abs_lt] at fits
  rw [toInt_eq_bmod,adj_delta_toUInt64,modulo,Int.emod_bmod]
  exact Int.bmod_eq_of_le (by omega) (by omega)

/-- Adding the delta to the time is the jump, also where its sign is lost. -/
theorem adjtime_jumped (time : pru_time σ) (ts_pru ts_host : u64) :
    { time with tc := timecounter_adjtime time.tc (adj_delta ts_pru ts_host) } = jumped time ts_pru ts_host := by
  unfold jumped timecounter_adjtime
  rw [adj_delta_toUInt64,UInt64.sub_eq_add_neg,UInt64.sub_eq_add_neg,UInt64.add_assoc]

/-- The returned delta is the difference of the times wherever it fits, and it is
    what `slew_cc` is called with, once. The clock jumps by the difference, which
    changes nothing else, unless `slew_cc` returns non-zero: then it stays. -/
theorem adj_pru_time_applies (time : pru_time (σ × List s64)) (slew_cc : Option (s64 → σ → Int32 × σ))
    (ts_pru ts_host : u64) (s : σ) (called : List s64) :
    let before := { time with slew_cc := slew_cc.map recording }
    let (delta,after,s') := adj_pru_time before ts_pru ts_host (s,called)
    (|(ts_host.toNat : Int) - ts_pru.toNat| < 2^63 → delta.toInt = ts_host.toNat - ts_pru.toNat) ∧
      match slew_cc with
      | none => after = jumped before ts_pru ts_host ∧ s' = (s,called)
      | some slew_cc =>
        after = (if (slew_cc delta s).1 = 0 then jumped before ts_pru ts_host else before) ∧
          s' = ((slew_cc delta s).2,called ++ [delta]) := by
  intro before
  cases slew_cc with
  | none =>
    refine ⟨adj_delta_toInt,?_,rfl⟩
    exact adjtime_jumped before ts_pru ts_host
  | some slew_cc =>
    simp only [adj_pru_time,before,Option.map_some,recording]
    by_cases declines : (slew_cc (adj_delta ts_pru ts_host) s).1 = 0
    · simp only [declines,↓reduceIte,and_true]
      exact ⟨adj_delta_toInt,adjtime_jumped before ts_pru ts_host⟩
    · simp only [declines,↓reduceIte,and_true]
      exact adj_delta_toInt

/-- A clock behind the host, that is slewed back and refuses to. -/
theorem adj_pru_time_declined :
    (adj_pru_time ({ (init_pru_time 5 0 32 (fun _ => 7) none 0 ((),[])).2 with
      slew_cc := some (recording fun _ _ => (0,())) } : pru_time (Unit × List s64)) 1000 400 ((),[])).1.toInt = -600 :=
  (adj_pru_time_applies (init_pru_time 5 0 32 (fun _ => 7) none 0 ((),[])).2 (some fun _ _ => (0,())) 1000 400 () []).1
    (by decide)

/-! ### The start of the clock -/

/-- The readings at some counts, one after the other. -/
def readings (t : pru_time Nat) (counts : List Nat) : List Reply :=
  (clock Nat).replies t (counts.map .read_pru_time)

@[simp] theorem readings_nil (t : pru_time Nat) : readings t [] = [] := rfl
@[simp] theorem readings_cons (t : pru_time Nat) (T : Nat) (counts : List Nat) :
    readings t (T :: counts) = .time (read_pru_time t T).1 :: readings (read_pru_time t T).2 counts := rfl

/-- Readings that are close enough show the exact time. -/
theorem readings_exact {e : Exact} {t : pru_time Nat} {T : Nat} {counts : List Nat} (tracks : Tracks id 32 e t T)
    (spaced : Spaced (2^32) T counts) : readings t counts = counts.map fun T => .time (UInt64.ofInt (e.time T)) := by
  induction counts generalizing t T with
  | nil => rfl
  | cons n rest ih =>
    obtain ⟨within,spaced'⟩ := spaced_cons.mp spaced
    obtain ⟨shown,tracks'⟩ := read_tracks tracks within
    simp only [readings_cons,List.map_cons,shown,ih tracks' spaced']
    rfl

/-- The clock of the programs as it is started at a count, for any multiplier. -/
def pruStart (mult : u32) (T₀ : Nat) : pru_time Nat := (init_pru_time mult 0 32 read_cc none (IEP_CNT T₀) T₀).2

theorem start_tracks (mult : u32) {T₀ : Nat} (first_round : T₀ < 2^32) :
    Tracks id 32 ⟨mult.toNat,0,T₀,T₀⟩ (pruStart mult T₀) T₀ := by
  have reads : ∀ n, (read_cc n).toNat = id n % 2^(32 : u32).toNat := fun n => UInt32.toNat_ofNat'
  have tracks := @init_tracks Nat id mult 0 32 read_cc (IEP_CNT T₀) T₀ (by decide) (by decide) reads
  have stamp : (IEP_CNT T₀).toNat = T₀ := by
    rw [IEP_CNT,UInt32.toNat_ofNat']
    exact Nat.mod_eq_of_lt first_round
  rw [stamp] at tracks
  exact tracks

/-- Counts where nanoseconds belong are right when both are none, or the same. -/
theorem stamp_in_ns_iff {mult T₀ T : Nat} (small : mult < 2^32) (first_round : T₀ < 2^32) (later : T₀ ≤ T) :
    UInt64.ofInt (T₀ + mult * (T - T₀ : Nat)) = UInt64.ofInt (mult * T) ↔ T₀ = 0 ∨ mult = 1 := by
  have whole : (mult : Int) * T = mult * T₀ + mult * (T - T₀ : Nat) := by
    rw [← Int.mul_add]
    congr 1
    omega
  rw [whole,UInt64.ofInt_add,UInt64.ofInt_add,UInt64.add_left_inj]
  have product : mult * T₀ < 2^64 := by
    calc mult * T₀ < 2^32 * 2^32 := Nat.mul_lt_mul'' small first_round
      _ = 2^64 := by decide
  constructor
  · intro same
    have shown := congrArg (fun x : UInt64 => (x.toNat : Int)) same
    simp only [toNat_ofInt] at shown
    have exact_same : T₀ * 1 = T₀ * mult := by
      rw [Nat.mul_comm T₀ mult]
      push_cast at *
      omega
    rcases Nat.eq_zero_or_pos T₀ with zero | positive
    · exact Or.inl zero
    · exact Or.inr (Nat.eq_of_mul_eq_mul_left positive exact_same).symm
  · rintro (zero | one)
    · simp [zero]
    · simp [one]

/-- Readings made close enough together show `mult` nanoseconds for each count
    exactly when the clock was started at count 0 or counts are nanoseconds. -/
theorem nanoseconds_iff (mult : u32) (T₀ : Nat) (counts : List Nat) (first_round : T₀ < 2^32)
    (spaced : Spaced (2^32) T₀ counts) :
    readings (pruStart mult T₀) counts = (counts.map fun T => .time (UInt64.ofNat (mult.toNat * T))) ↔
      T₀ = 0 ∨ mult = 1 ∨ counts = [] := by
  have later : ∀ T ∈ counts, T₀ ≤ T := fun T member => spaced_later spaced member
  rw [readings_exact (start_tracks mult first_round) spaced,List.map_inj_left]
  have each : ∀ T ∈ counts, (Reply.time (UInt64.ofInt (Exact.time ⟨mult.toNat,0,T₀,T₀⟩ T)) =
      .time (UInt64.ofNat (mult.toNat * T)) ↔ T₀ = 0 ∨ mult.toNat = 1) := by
    intro T member
    have time : Exact.time ⟨mult.toNat,0,T₀,T₀⟩ T = T₀ + mult.toNat * (T - T₀ : Nat) := by
      simp [Exact.time,scaled]
    rw [Reply.time.injEq,time,← stamp_in_ns_iff mult.toNat_lt first_round (later T member),← ofInt_natCast]
    norm_cast
  have one : mult.toNat = 1 ↔ mult = 1 := UInt32.toNat_inj (b := 1)
  cases counts with
  | nil => simp
  | cons T rest =>
    constructor
    · intro right
      rcases (each T List.mem_cons_self).mp (right T List.mem_cons_self) with zero | same
      · exact Or.inl zero
      · exact Or.inr (Or.inl (one.mp same))
    · rintro (zero | same | empty) T member
      · exact (each T member).mpr (Or.inl zero)
      · exact (each T member).mpr (Or.inr (one.mpr same))
      · cases empty

/-- Started at count 1000, the clock shows 1000 there, and not 5000. -/
theorem counts_shown : (1000 < 2^32 ∧ Spaced (2^32) 1000 [1000]) ∧
    readings (pruStart 5 1000) [1000] ≠ [1000].map fun T => .time (UInt64.ofNat ((5 : u32).toNat * T)) := by
  refine ⟨by decide,?_⟩
  decide

/-- Started at count 0, and read across a rollover. -/
theorem nanoseconds_from_reset : readings (pruStart 5 0) [3,4294967295,4294967300] =
    [3,4294967295,4294967300].map fun T => .time (UInt64.ofNat ((5 : u32).toNat * T)) :=
  (nanoseconds_iff 5 0 [3,4294967295,4294967300] (by decide) (by decide)).mpr (Or.inl rfl)

end NeslPru.PruTimeOffset
