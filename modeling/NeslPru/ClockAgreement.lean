import NeslPru.Iep
import NeslPru.PruTimeExact

/-!
The two clocks side by side, on the same counter. `pru_time` shows the exact
time; `iep_time` falls one count behind it at each rollover of the counter.
-/
namespace NeslPru.ClockAgreement
open NeslPru.Counter NeslPru.Calls NeslPru.Iep NeslPru.PruTime NeslPru.PruTimeExact
set_option linter.unusedSimpArgs false

/-- A reading at a count, or an adjustment. -/
inductive Call where
  | read (count : Nat)
  | adjust (ts ts_host : UInt64)

def iepClock : Machine Call (Option UInt64) iep_time where
  answer time
    | .read count => (some (iep_get_time time (IEP_CNT count)).1,(iep_get_time time (IEP_CNT count)).2)
    | .adjust ts ts_host => (none,iep_adj_time time ts ts_host)

/-- Nothing slews the counter, so that an adjustment does not depend on it. -/
def pruClock : Machine Call (Option UInt64) (pru_time Nat) where
  answer time
    | .read count => (some (read_pru_time time count).1,(read_pru_time time count).2)
    | .adjust ts ts_host => (none,(adj_pru_time time ts ts_host 0).2.1)

@[simp] theorem iepClock_read (time : iep_time) (n : Nat) :
    iepClock.answer time (.read n) = (some (iep_get_time time (IEP_CNT n)).1,(iep_get_time time (IEP_CNT n)).2) := rfl
@[simp] theorem iepClock_adjust (time : iep_time) (ts ts_host : UInt64) :
    iepClock.answer time (.adjust ts ts_host) = (none,iep_adj_time time ts ts_host) := rfl
@[simp] theorem pruClock_read (time : pru_time Nat) (n : Nat) :
    pruClock.answer time (.read n) = (some (read_pru_time time n).1,(read_pru_time time n).2) := rfl
@[simp] theorem pruClock_adjust (time : pru_time Nat) (ts ts_host : UInt64) :
    pruClock.answer time (.adjust ts ts_host) = (none,(adj_pru_time time ts ts_host 0).2.1) := rfl

/-- The counts at which the clocks are read. -/
def counts : List Call → List Nat
  | [] => []
  | .read count :: rest => count :: counts rest
  | .adjust _ _ :: rest => counts rest

/-- Both clocks have last been read at count `T`, and `iep` has missed one count for each rollover. -/
structure Behind (e : Exact) (iep : iep_time) (pru : pru_time Nat) (T : Nat) : Prop where
  mult : e.mult = 5
  shift : e.shift = 0
  tracks : Tracks id 32 e pru T
  last : iep.last_iep_cnt = UInt32.ofNat T
  shown : iep.shown = UInt64.ofInt (e.time T - 5 * (T / 2^32 : Nat))

variable {e : Exact} {iep : iep_time} {pru : pru_time Nat} {T : Nat}

theorem time_add {e : Exact} (mult : e.mult = 5) (shift : e.shift = 0) {s t : Nat} (started : e.origin ≤ s) (later : s ≤ t) :
    e.time t = e.time s + 5 * (t - s : Nat) := by
  simp only [Exact.time,scaled,mult,shift,Nat.pow_zero,Nat.div_one]
  omega

/-- A reading of each, and what they miss. -/
theorem read_behind {n : Nat} (behind : Behind e iep pru T) (within : Within 858993460 T n) :
    (read_pru_time pru n).1 = UInt64.ofInt (e.time n) ∧
      (iep_get_time iep (IEP_CNT n)).1 = UInt64.ofInt (e.time n - 5 * (n / 2^32 : Nat)) ∧
      Behind e (iep_get_time iep (IEP_CNT n)).2 (read_pru_time pru n).2 n := by
  have sooner : Within (2^32) T n := ⟨within.1,by have := within.2; omega⟩
  obtain ⟨exact_time,tracks⟩ := read_tracks behind.tracks sooner
  have shown : (iep_get_time iep (IEP_CNT n)).2.shown = UInt64.ofInt (e.time n - 5 * (n / 2^32 : Nat)) := by
    have ahead := time_add behind.mult behind.shift behind.tracks.started within.1
    have rounds : T / 2^32 ≤ n / 2^32 := Nat.div_le_div_right within.1
    calc (iep_get_time iep (IEP_CNT n)).2.shown
        = iep.ts_ns + UInt64.ofInt (5 * (n - T : Nat) - 5 * (n / 2^32 - T / 2^32 : Nat)) + iep.offset.toUInt64 :=
          congrArg (· + iep.offset.toUInt64) (iep_get_time_ts_ns behind.last within)
      _ = iep.shown + UInt64.ofInt (5 * (n - T : Nat) - 5 * (n / 2^32 - T / 2^32 : Nat)) :=
          by rw [iep_time.shown]; ac_rfl
      _ = UInt64.ofInt (e.time n - 5 * (n / 2^32 : Nat)) := by
          rw [behind.shown,← UInt64.ofInt_add]
          congr 1
          omega
  exact ⟨exact_time,shown,behind.mult,behind.shift,tracks,rfl,shown⟩

theorem adjust_behind (behind : Behind e iep pru T) (ts ts_host : UInt64) :
    Behind (e.adjust (ts_host.toNat - ts.toNat)) (iep_adj_time iep ts ts_host) (adj_pru_time pru ts ts_host 0).2.1 T := by
  refine ⟨behind.mult,behind.shift,adj_tracks behind.tracks ts ts_host 0,behind.last,?_⟩
  rw [iep_adj_time_shown,behind.shown,Exact.adjust_time,← ofInt_difference ts_host ts,← UInt64.ofInt_add]
  congr 1
  omega

/-- The clocks as they are started, with the counter at 0. -/
def iepStart (regs : iep_regs) : iep_time := (init_iep_time regs).1
def pruStart : pru_time Nat := (init_pru_time 5 0 32 read_cc none (IEP_CNT 0) 0).2

theorem start_behind (regs : iep_regs) : Behind ⟨5,0,0,0⟩ (iepStart regs) pruStart 0 := by
  have tracks : Tracks id 32 ⟨5,0,0,0⟩ pruStart 0 := iep_tracks (IEP_CNT 0) 0
  exact ⟨rfl,rfl,tracks,rfl,rfl⟩

/-- As long as the counter has not come round the clocks agree, and the first
    reading after that differs. -/
theorem replies_eq_iff {calls : List Call} (behind : Behind e iep pru T) (first_round : T < 2^32)
    (spaced : Spaced 858993460 T (counts calls)) :
    iepClock.replies iep calls = pruClock.replies pru calls ↔ ∀ n ∈ counts calls, n < 2^32 := by
  induction calls generalizing e iep pru T with
  | nil => simp [Machine.replies,counts]
  | cons call rest ih =>
    cases call with
    | read n =>
      obtain ⟨within,spaced'⟩ := spaced_cons.mp spaced
      obtain ⟨exact_time,missed,behind'⟩ := read_behind behind within
      simp only [Machine.replies_cons,iepClock_read,pruClock_read,counts,List.mem_cons,forall_eq_or_imp,
        List.cons.injEq,Option.some.injEq,exact_time,missed]
      by_cases straight : n < 2^32
      · have same_round : n / 2^32 = 0 := Nat.div_eq_of_lt straight
        have agree : UInt64.ofInt (e.time n - 5 * (n / 2^32 : Nat)) = UInt64.ofInt (e.time n) := by
          rw [same_round]
          congr 1
          omega
        simp only [agree,straight,true_and,ih behind' straight spaced']
      · have next_round : n / 2^32 = 1 := by
          have := within.2
          omega
        have apart : UInt64.ofInt (e.time n - 5 * (n / 2^32 : Nat)) ≠ UInt64.ofInt (e.time n) := by
          intro same
          have shown := congrArg (fun x : UInt64 => (x.toNat : Int)) same
          simp only [toNat_ofInt,next_round] at shown
          omega
        simp only [straight,apart,false_and]
    | adjust ts ts_host =>
      simp only [Machine.replies_cons,counts,iepClock_adjust,pruClock_adjust,List.cons.injEq,true_and]
      exact ih (adjust_behind behind ts ts_host) first_round spaced

/-- On every sequence of calls whose readings are close enough, the two clocks
    agree exactly when no reading comes after a rollover of the counter. -/
theorem clocks_agree_iff (regs : iep_regs) (calls : List Call) (spaced : Spaced 858993460 0 (counts calls)) :
    iepClock.replies (iepStart regs) calls = pruClock.replies pruStart calls ↔ ∀ n ∈ counts calls, n < 2^32 :=
  replies_eq_iff (start_behind regs) (by decide) spaced

/-- Readings all the way to the first rollover and one count further. -/
def acrossRollover : List Call :=
  [.read 858993459,.read 1717986918,.read 2576980377,.read 3435973836,.read 4294967295,.read 4294967296]

theorem clocks_disagree : Spaced 858993460 0 (counts acrossRollover) ∧
    iepClock.replies (iepStart ⟨0,0⟩) acrossRollover ≠ pruClock.replies pruStart acrossRollover := by
  refine ⟨by decide,?_⟩
  decide

/-- Below the first rollover, with an adjustment. -/
theorem clocks_agree_early : iepClock.replies (iepStart ⟨0,0⟩) [.read 40,.adjust 200 1000,.read 858993400] =
    pruClock.replies pruStart [.read 40,.adjust 200 1000,.read 858993400] :=
  (clocks_agree_iff ⟨0,0⟩ [.read 40,.adjust 200 1000,.read 858993400] (by decide)).mpr (by decide)

end NeslPru.ClockAgreement
