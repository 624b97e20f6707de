import NeslPru.PruTime

/-!
The clock of `nesl_pru_time.h` loses no time: whenever it is read, it shows what
an exact clock would show that counts without bound and divides once.
-/
namespace NeslPru.PruTimeExact
open NeslPru.Counter NeslPru.PruTime NeslPru.Calls
set_option linter.unusedSimpArgs false

variable {σ : Type} {count : σ → Nat} {bits : Nat} {e : Exact} {t : pru_time σ} {T : Nat}

/-- The clock shows what the exact clock `e` shows, and has last been read at count `T`. -/
structure Tracks (count : σ → Nat) (bits : Nat) (e : Exact) (t : pru_time σ) (T : Nat) : Prop where
  bits_le : bits ≤ 32
  shift_le : e.shift ≤ 32
  reads : ∀ s, (t.tc.cc.read s).toNat = count s % 2^bits
  mask : t.tc.cc.mask.toNat = 2^bits - 1
  mult : t.tc.cc.mult.toNat = e.mult
  shift : t.tc.cc.shift.toNat = e.shift
  carry_mask : t.tc.mask.toNat = 2^e.shift - 1
  jumps : t.slew_cc = none
  started : e.origin ≤ T
  cycle_last : t.tc.cycle_last.toNat = T % 2^bits
  frac : t.tc.frac.toNat = carry e.mult e.shift (T - e.origin)
  nsec : t.tc.nsec = UInt64.ofInt (e.time T)

theorem and_mask {x mask : u64} {k : Nat} (is_mask : mask.toNat = 2^k - 1) : (x &&& mask).toNat = x.toNat % 2^k := by
  rw [UInt64.toNat_and,is_mask,Nat.and_two_pow_sub_one_eq_mod]

theorem low_mask {k : u32} (few : k.toNat ≤ 32) : ((1 <<< k.toUInt64 : u64) - 1).toNat = 2^k.toNat - 1 := by
  have few_bits : 2^k.toNat ≤ 2^32 := Nat.pow_le_pow_right (by decide) few
  have positive := Nat.two_pow_pos k.toNat
  have shifted : (1 <<< k.toUInt64 : u64).toNat = 2^k.toNat := by
    rw [UInt64.toNat_shiftLeft,UInt32.toNat_toUInt64,Nat.mod_eq_of_lt (by omega : k.toNat < 64),UInt64.toNat_one]
    rw [Nat.one_shiftLeft]
    omega
  rw [UInt64.toNat_sub_of_le _ _ (by rw [UInt64.le_iff_toNat_le,shifted]; exact positive),shifted]
  rfl

theorem CLOCKSOURCE_MASK_toNat {bits : u32} (few : bits.toNat ≤ 32) : (CLOCKSOURCE_MASK bits).toNat = 2^bits.toNat - 1 := by
  have fewer : bits < 64 := by
    rw [UInt32.lt_iff_toNat_lt]
    exact Nat.lt_of_le_of_lt few (by decide)
  simp only [CLOCKSOURCE_MASK,fewer,↓reduceIte]
  exact low_mask few

/-- The counts since the clock was last read. -/
theorem cycle_delta {w : σ} (tracks : Tracks count bits e t T) (within : Within (2^bits) T (count w)) :
    ((t.tc.cc.read w - t.tc.cycle_last) &&& t.tc.cc.mask).toNat = count w - T := by
  have divides : 2^bits ∣ 2^64 := Nat.pow_dvd_pow 2 (by have := tracks.bits_le; omega)
  rw [and_mask tracks.mask,UInt64.toNat_sub,tracks.reads,tracks.cycle_last]
  exact masked_difference divides (Nat.two_pow_pos 64) within

/-- The product and the carry fit in 64 bits. -/
theorem no_overflow {w : σ} (tracks : Tracks count bits e t T) (within : Within (2^bits) T (count w)) :
    (count w - T) * e.mult + carry e.mult e.shift (T - e.origin) < 2^64 := by
  have carried := carry_lt e.mult e.shift (T - e.origin)
  have few_bits : 2^bits ≤ 2^32 := Nat.pow_le_pow_right (by decide) tracks.bits_le
  have few_shift : 2^e.shift ≤ 2^32 := Nat.pow_le_pow_right (by decide) tracks.shift_le
  have mult : e.mult ≤ 2^32 - 1 := by
    have := t.tc.cc.mult.toNat_lt
    rw [← tracks.mult]
    omega
  obtain ⟨later,near⟩ := within
  have product : (count w - T) * e.mult ≤ (2^32 - 1) * (2^32 - 1) := Nat.mul_le_mul (by omega) mult
  omega

/-- The time since the clock was last read, and the new carry. -/
theorem read_delta {w : σ} (tracks : Tracks count bits e t T) (within : Within (2^bits) T (count w)) :
    (timecounter_read_delta t.tc w).1.toNat =
        ((count w - T) * e.mult + carry e.mult e.shift (T - e.origin)) / 2^e.shift ∧
      (timecounter_read_delta t.tc w).2.frac.toNat = carry e.mult e.shift (count w - e.origin) := by
  have fits := no_overflow tracks within
  have ns : ((t.tc.cc.read w - t.tc.cycle_last &&& t.tc.cc.mask) * t.tc.cc.mult.toUInt64 + t.tc.frac).toNat =
      (count w - T) * e.mult + carry e.mult e.shift (T - e.origin) := by
    rw [UInt64.toNat_add,UInt64.toNat_mul,cycle_delta tracks within,UInt32.toNat_toUInt64,tracks.mult,tracks.frac]
    rw [Nat.mod_eq_of_lt (by omega : (count w - T) * e.mult < 2^64),Nat.mod_eq_of_lt fits]
  have few := tracks.shift_le
  constructor
  · simp only [timecounter_read_delta,cyclecounter_cyc2ns]
    rw [UInt64.toNat_shiftRight,ns,UInt32.toNat_toUInt64,tracks.shift,Nat.mod_eq_of_lt (by omega : e.shift < 64)]
    rw [Nat.shiftRight_eq_div_pow]
  · simp only [timecounter_read_delta,cyclecounter_cyc2ns]
    rw [and_mask tracks.carry_mask,ns,← carry_add]
    have := tracks.started
    have := within.1
    congr 1
    omega

/-- One reading shows the exact time and keeps up with the exact clock. -/
theorem read_tracks {w : σ} (tracks : Tracks count bits e t T) (within : Within (2^bits) T (count w)) :
    (read_pru_time t w).1 = UInt64.ofInt (e.time (count w)) ∧ Tracks count bits e (read_pru_time t w).2 (count w) := by
  obtain ⟨offset,frac⟩ := read_delta tracks within
  have later := within.1
  have started := tracks.started
  have elapsed : count w - e.origin = (T - e.origin) + (count w - T) := by omega
  have shown : (timecounter_read_delta t.tc w).1 + t.tc.nsec = UInt64.ofInt (e.time (count w)) := by
    have whole : e.time (count w) = ((timecounter_read_delta t.tc w).1.toNat : Int) + e.time T := by
      rw [offset]
      simp only [Exact.time,elapsed,scaled_add]
      omega
    rw [whole,UInt64.ofInt_add,tracks.nsec,ofInt_toNat]
  exact ⟨shown,tracks.bits_le,tracks.shift_le,tracks.reads,tracks.mask,tracks.mult,tracks.shift,tracks.carry_mask,
    tracks.jumps,by omega,tracks.reads w,frac,shown⟩

/-- Setting the clock from one time to another sets the exact clock forward by the difference. -/
theorem adj_tracks (tracks : Tracks count bits e t T) (ts_pru ts_host : u64) (w : σ) :
    Tracks count bits (e.adjust (ts_host.toNat - ts_pru.toNat)) (adj_pru_time t ts_pru ts_host w).2.1 T := by
  simp only [adj_pru_time,tracks.jumps]
  refine ⟨tracks.bits_le,tracks.shift_le,tracks.reads,tracks.mask,tracks.mult,tracks.shift,tracks.carry_mask,
    rfl,tracks.started,tracks.cycle_last,tracks.frac,?_⟩
  show t.tc.nsec + (adj_delta ts_pru ts_host).toUInt64 = _
  rw [Exact.adjust_time,UInt64.ofInt_add,tracks.nsec,adj_delta_toUInt64,ofInt_difference]

/-- `init_pru_time` starts with an exact clock at the sample that it takes. -/
theorem init_tracks {mult shift bits : u32} {read_cc : σ → cycle_t} {iep_cnt : UInt32} {s : σ}
    (shift_le : shift.toNat ≤ 32) (bits_le : bits.toNat ≤ 32) (reads : ∀ s, (read_cc s).toNat = count s % 2^bits.toNat) :
    Tracks count bits.toNat ⟨mult.toNat,shift.toNat,count s,iep_cnt.toNat⟩
      (init_pru_time mult shift bits read_cc none iep_cnt s).2 (count s) := by
  refine ⟨bits_le,shift_le,reads,CLOCKSOURCE_MASK_toNat bits_le,rfl,rfl,low_mask shift_le,rfl,Nat.le_refl _,reads s,?_,?_⟩
  · simp [init_pru_time,timecounter_init,carry]
  · simp only [init_pru_time,timecounter_init,Exact.time,Nat.sub_self,scaled,Nat.mul_zero,Nat.zero_div]
    exact (ofInt_toNat iep_cnt.toUInt64).symm

/-- The clock of the programs, at 5 ns for each count of the 32-bit counter. -/
theorem iep_tracks (iep_cnt : UInt32) (n : Nat) :
    Tracks id 32 ⟨5,0,n,iep_cnt.toNat⟩ (init_pru_time 5 0 32 read_cc none iep_cnt n).2 n := by
  have reads : ∀ n, (read_cc n).toNat = id n % 2^(32 : u32).toNat := fun n => UInt32.toNat_ofNat'
  have tracks : Tracks id (32 : u32).toNat ⟨(5 : u32).toNat,(0 : u32).toNat,id n,iep_cnt.toNat⟩
      (init_pru_time 5 0 32 read_cc none iep_cnt n).2 (id n) := init_tracks (by decide) (by decide) reads
  exact tracks

/-- A call of the clock, with the state of the hardware at the call. -/
inductive Call (σ : Type) where
  | read_pru_time (s : σ)
  | adj_pru_time (ts_pru ts_host : u64) (s : σ)

inductive Reply where
  | time (nsec : u64)
  | delta (delta : s64)
deriving DecidableEq

def clock (σ : Type) : Machine (Call σ) Reply (pru_time σ) where
  answer t
    | .read_pru_time s => (.time (read_pru_time t s).1,(read_pru_time t s).2)
    | .adj_pru_time ts_pru ts_host s =>
      (.delta (adj_pru_time t ts_pru ts_host s).1,(adj_pru_time t ts_pru ts_host s).2.1)

/-- The counts at which the clock is read. -/
def samples (count : σ → Nat) : List (Call σ) → List Nat
  | [] => []
  | .read_pru_time s :: rest => count s :: samples count rest
  | .adj_pru_time _ _ _ :: rest => samples count rest

/-- The sum of the adjustments. -/
def adjustments : List (Call σ) → Int
  | [] => 0
  | .read_pru_time _ :: rest => adjustments rest
  | .adj_pru_time ts_pru ts_host _ :: rest => (ts_host.toNat - ts_pru.toNat) + adjustments rest

/-- Any calls keep up with the exact clock, set forward by what they adjust. -/
theorem calls_track {calls : List (Call σ)} {later : List Nat} (tracks : Tracks count bits e t T)
    (spaced : Spaced (2^bits) T (samples count calls ++ later)) :
    ∃ T', Tracks count bits (e.adjust (adjustments calls)) ((clock σ).after t calls) T' ∧ Spaced (2^bits) T' later := by
  induction calls generalizing e t T with
  | nil => exact ⟨T,by simpa [adjustments] using tracks,spaced⟩
  | cons call rest ih =>
    cases call with
    | read_pru_time s =>
      obtain ⟨within,spaced'⟩ := spaced_cons.mp spaced
      exact ih (read_tracks tracks within).2 spaced'
    | adj_pru_time ts_pru ts_host s =>
      have tracked := ih (adj_tracks tracks ts_pru ts_host s) spaced
      rwa [Exact.adjust_adjust] at tracked

section
variable {mult shift bits : u32} {read_cc : σ → cycle_t} {iep_cnt : UInt32} {s₀ s : σ} {calls : List (Call σ)}

/-- What a reading after some calls shows depends on the adjustments only. -/
theorem reading_exact (shift_le : shift.toNat ≤ 32) (bits_le : bits.toNat ≤ 32)
    (reads : ∀ s, (read_cc s).toNat = count s % 2^bits.toNat)
    (spaced : Spaced (2^bits.toNat) (count s₀) (samples count calls ++ [count s])) :
    (read_pru_time ((clock σ).after (init_pru_time mult shift bits read_cc none iep_cnt s₀).2 calls) s).1 =
      UInt64.ofInt (iep_cnt.toNat + (mult.toNat * (count s - count s₀) / 2^shift.toNat : Nat) + adjustments calls) := by
  have initial : Tracks count bits.toNat ⟨mult.toNat,shift.toNat,count s₀,iep_cnt.toNat⟩
      (init_pru_time mult shift bits read_cc none iep_cnt s₀).2 (count s₀) := init_tracks shift_le bits_le reads
  obtain ⟨T,tracks,last⟩ := calls_track initial spaced
  rw [(read_tracks tracks (spaced_cons.mp last).1).1]
  simp only [Exact.time,Exact.adjust,scaled]
  congr 1
  omega

end

/-- Whenever the clock is read, it shows the time that it was started at, the
    time that the counts since then take, rounded down once, and the sum of the
    adjustments. The carry stays small, the product does not overflow, and other
    calls with the same adjustments lead to the same reading. -/
theorem read_pru_time_exact (count : σ → Nat) (mult shift bits : u32) (read_cc : σ → cycle_t) (iep_cnt : UInt32)
    (s₀ s : σ) (calls : List (Call σ)) (shift_le : shift.toNat ≤ 32) (bits_le : bits.toNat ≤ 32)
    (reads : ∀ s, (read_cc s).toNat = count s % 2^bits.toNat)
    (spaced : Spaced (2^bits.toNat) (count s₀) (samples count calls ++ [count s])) :
    let init := (init_pru_time mult shift bits read_cc none iep_cnt s₀).2
    let before := (clock σ).after init calls
    (read_pru_time before s).1 = UInt64.ofInt (iep_cnt.toNat +
        (mult.toNat * (count s - count s₀) / 2^shift.toNat : Nat) + adjustments calls) ∧
      before.tc.frac.toNat < 2^shift.toNat ∧ (read_pru_time before s).2.tc.frac.toNat < 2^shift.toNat ∧
      ((before.tc.cc.read s - before.tc.cycle_last) &&& before.tc.cc.mask).toNat * before.tc.cc.mult.toNat +
        before.tc.frac.toNat < 2^64 ∧
      ∀ others, Spaced (2^bits.toNat) (count s₀) (samples count others ++ [count s]) →
        adjustments others = adjustments calls →
        (read_pru_time ((clock σ).after init others) s).1 = (read_pru_time before s).1 := by
  intro init before
  have initial : Tracks count bits.toNat ⟨mult.toNat,shift.toNat,count s₀,iep_cnt.toNat⟩ init (count s₀) :=
    init_tracks shift_le bits_le reads
  obtain ⟨T,tracks,last⟩ := calls_track initial spaced
  have within := (spaced_cons.mp last).1
  refine ⟨reading_exact shift_le bits_le reads spaced,?_,?_,?_,?_⟩
  · rw [tracks.frac]
    exact carry_lt _ _ _
  · rw [(read_tracks tracks within).2.frac]
    exact carry_lt _ _ _
  · rw [cycle_delta tracks within,tracks.mult,tracks.frac]
    exact no_overflow tracks within
  · intro others spaced' same
    rw [reading_exact shift_le bits_le reads spaced',reading_exact shift_le bits_le reads spaced,same]

/-- A counter of 32 bits that comes round between the readings. -/
theorem read_pru_time_exact_rollover :
    (read_pru_time ((clock Nat).after (init_pru_time 5 0 32 (fun n => .ofNat (n % 2^32)) none 0 3).2
      [.read_pru_time 4294967000,.adj_pru_time 7 1000 4294967100]) 4294967500).1 = 21474838478 := by
  have reads : ∀ n : Nat, (UInt64.ofNat (n % 2^32)).toNat = n % 2^(32 : u32).toNat := by
    intro n
    rw [UInt64.toNat_ofNat']
    exact Nat.mod_eq_of_lt (Nat.lt_trans (Nat.mod_lt _ (by decide)) (by decide))
  have exact_time := (read_pru_time_exact id 5 0 32 _ 0 3 4294967500
    [.read_pru_time 4294967000,.adj_pru_time 7 1000 4294967100] (by decide) (by decide) reads (by decide)).1
  rw [exact_time]
  decide

end NeslPru.PruTimeExact
