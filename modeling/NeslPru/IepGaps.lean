import NeslPru.ClockAgreement

/-!
The clock of `nesl_pru_iep.h` before the counter rolls over. The counts since
the last reading are multiplied in 32 bits and only then added to the 64-bit
time, so that a long gap between two readings loses its high bits for good.
-/
namespace NeslPru.IepGaps
open NeslPru.Counter NeslPru.Calls NeslPru.Iep NeslPru.ClockAgreement
open NeslPru.PruTime (IEP_CNT)
set_option linter.unusedSimpArgs false

/-- A reading has left the time of its count, and returned it with the offset. -/
def Exact (n : Nat) (read : UInt64 × iep_time) : Prop :=
  read.2.ts_ns = UInt64.ofNat (5 * n) ∧ read.1 = UInt64.ofNat (5 * n) + read.2.offset.toUInt64

/-- Every reading of some calls is exact. -/
def AllExact : iep_time → List Call → Prop
  | _, [] => True
  | time, .read n :: rest =>
    Exact n (iep_get_time time (IEP_CNT n)) ∧ AllExact (iep_get_time time (IEP_CNT n)).2 rest
  | time, .adjust ts ts_host :: rest => AllExact (iep_adj_time time ts ts_host) rest

/-- The time is that of count `T`, at which the clock has last been read. -/
structure Read (time : iep_time) (T : Nat) : Prop where
  last : time.last_iep_cnt = IEP_CNT T
  ts_ns : time.ts_ns = UInt64.ofNat (5 * T)

theorem start_read (regs : iep_regs) : Read (iepStart regs) 0 := ⟨rfl,rfl⟩

theorem adjust_read {time : iep_time} {T : Nat} (read : Read time T) (ts ts_host : UInt64) :
    Read (iep_adj_time time ts ts_host) T := ⟨read.last,read.ts_ns⟩

/-- Without a rollover the time moves on by the low 32 bits of the product. -/
theorem get_time_ts_ns {time : iep_time} {T n : Nat} (read : Read time T) (later : T ≤ n) (first_round : n < 2^32) :
    (iep_get_time time (IEP_CNT n)).2.ts_ns.toNat = 5 * T + 5 * (n - T) % 2^32 := by
  have now : (IEP_CNT n).toNat = n := UInt32.toNat_ofNat'.trans (Nat.mod_eq_of_lt first_round)
  have last : (IEP_CNT T).toNat = T := UInt32.toNat_ofNat'.trans (Nat.mod_eq_of_lt (Nat.lt_of_le_of_lt later first_round))
  have straight : ¬ IEP_CNT n < IEP_CNT T := by
    rw [UInt32.lt_iff_toNat_lt,now,last]
    omega
  have counted : (IEP_CNT n - IEP_CNT T).toNat = n - T := by
    rw [UInt32.toNat_sub,now,last]
    omega
  have product : (IEP_CNT_TO_NS (IEP_CNT n - IEP_CNT T)).toUInt64.toNat = 5 * (n - T) % 2^32 := by
    rw [UInt32.toNat_toUInt64,IEP_CNT_TO_NS,UInt32.toNat_mul,counted,Nat.mul_comm]
    rfl
  have before : (UInt64.ofNat (5 * T)).toNat = 5 * T := by
    rw [UInt64.toNat_ofNat']
    omega
  simp only [iep_get_time,read.last,read.ts_ns,straight,↓reduceIte]
  rw [UInt64.toNat_add,product,before]
  omega

theorem product_fits_iff {T n : Nat} (later : T ≤ n) : 5 * T + 5 * (n - T) % 2^32 = 5 * n ↔ n < T + 858993460 := by
  have whole : 5 * n = 5 * T + 5 * (n - T) := by omega
  rw [whole,Nat.add_left_cancel_iff,Nat.mod_eq_iff_lt (by decide)]
  omega

/-- A reading is exact when the product of its gap fits in 32 bits. -/
theorem exact_iff {time : iep_time} {T n : Nat} (read : Read time T) (later : T ≤ n) (first_round : n < 2^32) :
    Exact n (iep_get_time time (IEP_CNT n)) ↔ Within 858993460 T n := by
  have ts_ns := get_time_ts_ns read later first_round
  have right : (UInt64.ofNat (5 * n)).toNat = 5 * n := by
    rw [UInt64.toNat_ofNat']
    omega
  have shown : (iep_get_time time (IEP_CNT n)).1 =
      (iep_get_time time (IEP_CNT n)).2.ts_ns + (iep_get_time time (IEP_CNT n)).2.offset.toUInt64 := rfl
  constructor
  · rintro ⟨same,-⟩
    rw [same,right] at ts_ns
    exact ⟨later,(product_fits_iff later).mp ts_ns.symm⟩
  · rintro ⟨-,near⟩
    have same : (iep_get_time time (IEP_CNT n)).2.ts_ns = UInt64.ofNat (5 * n) := by
      apply UInt64.toNat_inj.mp
      rw [ts_ns,right,(product_fits_iff later).mpr near]
    exact ⟨same,by rw [shown,same]⟩

theorem read_all_exact_iff {time : iep_time} {T : Nat} {calls : List Call} (read : Read time T)
    (ordered : (T :: counts calls).IsChain (· ≤ ·)) (first_round : ∀ n ∈ counts calls, n < 2^32) :
    AllExact time calls ↔ Spaced 858993460 T (counts calls) := by
  induction calls generalizing time T with
  | nil => simp [AllExact,counts,Spaced]
  | cons call rest ih =>
    cases call with
    | read n =>
      obtain ⟨later,ordered'⟩ := List.isChain_cons_cons.mp ordered
      obtain ⟨now,first_round'⟩ := List.forall_mem_cons.mp first_round
      simp only [AllExact,counts,spaced_cons,exact_iff read later now]
      constructor
      · rintro ⟨near,rest_exact⟩
        have read' : Read (iep_get_time time (IEP_CNT n)).2 n := ⟨rfl,((exact_iff read later now).mpr near).1⟩
        exact ⟨near,(ih read' ordered' first_round').mp rest_exact⟩
      · rintro ⟨near,rest_near⟩
        have read' : Read (iep_get_time time (IEP_CNT n)).2 n := ⟨rfl,((exact_iff read later now).mpr near).1⟩
        exact ⟨near,(ih read' ordered' first_round').mpr rest_near⟩
    | adjust ts ts_host => exact ih (adjust_read read ts ts_host) ordered first_round

/-- Readings at counts that do not fall, before the rollover, are all exact when
    each gap between two of them takes less than `2^32` ns. -/
theorem all_exact_iff (regs : iep_regs) (calls : List Call) (ordered : (0 :: counts calls).IsChain (· ≤ ·))
    (first_round : ∀ n ∈ counts calls, n < 2^32) :
    AllExact (iepStart regs) calls ↔ Spaced 858993460 0 (counts calls) :=
  read_all_exact_iff (start_read regs) ordered first_round

/-- The first reading comes 4.3 s after the start, and shows 4 ns. -/
theorem high_bits_lost : ((0 :: counts [.read 858993460]).IsChain (· ≤ ·) ∧ ∀ n ∈ counts [.read 858993460], n < 2^32) ∧
    (iep_get_time (iepStart ⟨0,0⟩) (IEP_CNT 858993460)).1 = 4 ∧ ¬ AllExact (iepStart ⟨0,0⟩) [.read 858993460] := by
  refine ⟨by decide,by decide,?_⟩
  rintro ⟨⟨wrapped,-⟩,-⟩
  exact absurd wrapped (by decide)

/-- The longest gap of all that is exact, before and after the clock is adjusted. -/
theorem longest_gap_exact : AllExact (iepStart ⟨0,0⟩) [.read 858993459,.adjust 7 1000,.read 1717986918] :=
  (all_exact_iff ⟨0,0⟩ [.read 858993459,.adjust 7 1000,.read 1717986918] (by decide) (by decide)).mpr (by decide)

end NeslPru.IepGaps
