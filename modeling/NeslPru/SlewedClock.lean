import NeslPru.IepSlew

/-!
The clock of `nesl_pru_time.h` with the `slew_cc` of the examples: small
adjustments go to the hardware, which counts on, and only larger ones set the
clock. So the time goes back at most where the clock is set back
(`slewed_never_back`), and a clock that is too fast meets the host's time as
closely as its counts allow, round after round (`fast_rounds`).
-/
namespace NeslPru.SlewedClock
open NeslPru.Counter NeslPru.PruTime NeslPru.PruTimeExact NeslPru.PruTimeOffset NeslPru.IepSlew NeslPru.Calls
set_option linter.unusedSimpArgs false

/-- `slew_cc` on the timer whose registers it writes. -/
def slewing (delta : s64) (t : Timer) : Int32 × Timer := ((slew_cc delta t.regs).1,t.slew delta)

structure Clock where
  time : pru_time Timer
  timer : Timer

/-- The clock of the examples with the optional `slew_cc`. -/
def start (iep_cnt : UInt32) (t : Timer) : Clock :=
  ⟨(init_pru_time 5 0 32 (fun t => read_cc t.count) (some slewing) iep_cnt t).2,t⟩

/-- The calls of the program, and the clock cycles between them. -/
inductive Call where
  | cycles (n : Nat)
  | read_pru_time
  | adj_pru_time (ts_pru ts_host : u64)
deriving DecidableEq

/-- What a reading would return. -/
def reading (c : Clock) : u64 := (read_pru_time c.time c.timer).1

def clock : Machine Call (Option Reply) Clock where
  answer c
    | .cycles n => (none,{ c with timer := Timer.ticks n c.timer })
    | .read_pru_time => (some (.time (reading c)),{ c with time := (read_pru_time c.time c.timer).2 })
    | .adj_pru_time ts_pru ts_host =>
      let (delta,time,timer) := adj_pru_time c.time ts_pru ts_host c.timer
      (some (.delta delta),⟨time,timer⟩)

/-- The counts at which the clock is read. -/
def samples (c : Clock) : List Call → List Nat
  | [] => []
  | .read_pru_time :: rest => c.timer.count :: samples (clock.answer c .read_pru_time).2 rest
  | call :: rest => samples (clock.answer c call).2 rest

/-- What a call sets the clock forward by. -/
def jump : Call → Int
  | .adj_pru_time ts_pru ts_host => if Accepted (adj_delta ts_pru ts_host) then 0 else ts_host.toNat - ts_pru.toNat
  | _ => 0

def jumps (calls : List Call) : Int := (calls.map jump).sum

variable {c : Clock} {e : Exact} {T : Nat}

/-- The clock shows what the exact clock `e` shows at the counts of the timer. -/
structure Follows (e : Exact) (c : Clock) (T : Nat) : Prop where
  slews : c.time.slew_cc = some slewing
  tracks : Tracks Timer.count 32 e { c.time with slew_cc := none } T
  reached : T ≤ c.timer.count

theorem ticks_later (n : Nat) (t : Timer) : t.count ≤ (Timer.ticks n t).count := by
  have count := (ticks_spec n t).2.2
  omega

/-- Either the timer takes the adjustment on, or the clock is set. -/
theorem adj_slewing (slews : c.time.slew_cc = some slewing) (ts_pru ts_host : u64) :
    (clock.answer c (.adj_pru_time ts_pru ts_host)).2 =
      if Accepted (adj_delta ts_pru ts_host) then ⟨c.time,c.timer.slew (adj_delta ts_pru ts_host)⟩
      else ⟨jumped c.time ts_pru ts_host,c.timer⟩ := by
  simp only [clock,adj_pru_time,slews,slewing]
  by_cases accepted : Accepted (adj_delta ts_pru ts_host)
  · simp [accepted,slew_cc_accepted accepted]
  · have jumps := adjtime_jumped c.time ts_pru ts_host
    rw [slews] at jumps
    simp only [accepted,slew_cc_rejected accepted,↓reduceIte,Timer.slew,jumps]

/-- One call moves the exact clock by its jump, and the counts only forward. -/
theorem answer_follows (call : Call) (follows : Follows e c T)
    (near : call = .read_pru_time → Within (2^32) T c.timer.count) :
    Follows (e.adjust (jump call)) (clock.answer c call).2 (if call = .read_pru_time then c.timer.count else T) ∧
      c.timer.count ≤ (clock.answer c call).2.timer.count := by
  obtain ⟨slews,tracks,reached⟩ := follows
  cases call with
  | cycles n =>
    have later := ticks_later n c.timer
    simp only [jump,Exact.adjust_zero,reduceCtorEq,↓reduceIte]
    exact ⟨⟨slews,tracks,reached.trans later⟩,later⟩
  | read_pru_time =>
    have tracks' := (read_tracks tracks (near rfl)).2
    simp only [jump,Exact.adjust_zero,↓reduceIte]
    exact ⟨⟨slews,tracks',Nat.le_refl _⟩,Nat.le_refl _⟩
  | adj_pru_time ts_pru ts_host =>
    rw [adj_slewing slews]
    by_cases accepted : Accepted (adj_delta ts_pru ts_host)
    · simp only [jump,accepted,↓reduceIte,Exact.adjust_zero,reduceCtorEq]
      exact ⟨⟨slews,tracks,reached⟩,Nat.le_refl _⟩
    · have tracks' := adj_tracks tracks ts_pru ts_host c.timer
      have jumps := adjtime_jumped { c.time with slew_cc := none } ts_pru ts_host
      simp only [adj_pru_time] at tracks'
      rw [jumps] at tracks'
      simp only [jump,accepted,↓reduceIte,reduceCtorEq]
      exact ⟨⟨slews,tracks',reached⟩,Nat.le_refl _⟩

theorem samples_cons (c : Clock) (call : Call) (rest : List Call) :
    samples c (call :: rest) =
      (if call = .read_pru_time then [c.timer.count] else []) ++ samples (clock.answer c call).2 rest := by
  cases call <;> simp [samples]

/-- So do any calls, as long as the clock is read before the counter comes round. -/
theorem calls_follow {calls : List Call} {later : List Nat} (follows : Follows e c T)
    (spaced : Spaced (2^32) T (samples c calls ++ later)) :
    ∃ T', Follows (e.adjust (jumps calls)) (clock.after c calls) T' ∧ Spaced (2^32) T' later ∧
      c.timer.count ≤ (clock.after c calls).timer.count := by
  induction calls generalizing c e T with
  | nil =>
    refine ⟨T,?_,spaced,Nat.le_refl _⟩
    simpa [jumps] using follows
  | cons call rest ih =>
    rw [samples_cons,List.append_assoc] at spaced
    have split : (call = .read_pru_time → Within (2^32) T c.timer.count) ∧
        Spaced (2^32) (if call = .read_pru_time then c.timer.count else T)
          (samples (clock.answer c call).2 rest ++ later) := by
      by_cases reads : call = .read_pru_time
      · rw [if_pos reads] at spaced ⊢
        obtain ⟨within,spaced'⟩ := spaced_cons.mp spaced
        exact ⟨fun _ => within,spaced'⟩
      · rw [if_neg reads] at spaced ⊢
        exact ⟨fun is => absurd is reads,spaced⟩
    obtain ⟨follows',forward⟩ := answer_follows call follows split.1
    obtain ⟨T',followed,spaced',forward'⟩ := ih follows' split.2
    rw [Exact.adjust_adjust] at followed
    exact ⟨T',followed,spaced',forward.trans forward'⟩

theorem start_follows (iep_cnt : UInt32) (t : Timer) :
    Follows ⟨5,0,t.count,iep_cnt.toNat⟩ (start iep_cnt t) t.count := by
  have reads : ∀ t : Timer, (read_cc t.count).toNat = t.count % 2^(32 : u32).toNat := fun t => UInt32.toNat_ofNat'
  have tracks := @init_tracks Timer Timer.count 5 0 32 (fun t => read_cc t.count) iep_cnt t (by decide) (by decide) reads
  exact ⟨rfl,tracks,Nat.le_refl _⟩

theorem Follows.reading (follows : Follows e c T) (within : Within (2^32) T c.timer.count) :
    reading c = UInt64.ofInt (e.time c.timer.count) :=
  (read_tracks follows.tracks within).1

theorem time_five {m n : Nat} (mult : e.mult = 5) (shift : e.shift = 0) (started : e.origin ≤ m) (later : m ≤ n) :
    e.time n = e.time m + 5 * (n - m : Nat) := by
  simp only [Exact.time,scaled,mult,shift,Nat.pow_zero,Nat.div_one]
  omega

theorem samples_append (c : Clock) (calls more : List Call) :
    samples c (calls ++ more) = samples c calls ++ samples (clock.after c calls) more := by
  induction calls generalizing c with
  | nil => rfl
  | cons call rest ih =>
    rw [List.cons_append,samples_cons,samples_cons,ih,List.append_assoc]
    rfl

theorem jumps_nonneg {calls : List Call} (ahead : ∀ call ∈ calls, 0 ≤ jump call) : 0 ≤ jumps calls := by
  induction calls with
  | nil => exact Int.le_refl 0
  | cons call rest ih =>
    obtain ⟨first,others⟩ := List.forall_mem_cons.mp ahead
    have := ih others
    simp only [jumps,List.map_cons,List.sum_cons] at *
    omega

/-- Every reading is the count of the timer, in nanoseconds, and the sum of the
    adjustments that were not slewed. A later reading is a later time, unless the
    clock was set back or its 64 bits have come round. -/
theorem slewed_never_back (iep_cnt : UInt32) (t : Timer) (calls more : List Call)
    (spaced : Spaced (2^32) t.count (samples (start iep_cnt t) (calls ++ .read_pru_time :: more) ++
      [(clock.after (start iep_cnt t) (calls ++ .read_pru_time :: more)).timer.count])) :
    let before := clock.after (start iep_cnt t) calls
    let later := clock.after (start iep_cnt t) (calls ++ .read_pru_time :: more)
    let elapsed : Int := 5 * (later.timer.count - before.timer.count : Nat) + jumps more
    reading before = UInt64.ofInt (iep_cnt.toNat + 5 * (before.timer.count - t.count : Nat) + jumps calls) ∧
      before.timer.count ≤ later.timer.count ∧
      reading later = reading before + UInt64.ofInt elapsed ∧
      ((∀ call ∈ more, 0 ≤ jump call) → (reading before).toNat + elapsed < 2^64 → reading before ≤ reading later) := by
  intro before later elapsed
  rw [samples_append,List.append_assoc] at spaced
  obtain ⟨T,follows,spaced',forward⟩ := calls_follow (start_follows iep_cnt t) spaced
  change Follows _ before T at follows
  have within := (spaced_cons.mp spaced').1
  have shown := follows.reading within
  have started : t.count ≤ before.timer.count := forward
  obtain ⟨T',follows',spaced'',forward'⟩ := calls_follow follows spaced'
  have later_is : later = clock.after before (.read_pru_time :: more) := clock.after_append _ _ _
  rw [← later_is] at follows' forward'
  have shown' := follows'.reading (spaced_cons.mp spaced'').1
  have jumps_cons : jumps (.read_pru_time :: more) = jumps more := by simp [jumps,jump]
  have moved : Exact.time (Exact.adjust ⟨5,0,t.count,iep_cnt.toNat⟩ (jumps calls)) later.timer.count =
      Exact.time (Exact.adjust ⟨5,0,t.count,iep_cnt.toNat⟩ (jumps calls)) before.timer.count +
        5 * (later.timer.count - before.timer.count : Nat) :=
    time_five rfl rfl forward forward'
  have advance : reading later = reading before + UInt64.ofInt elapsed := by
    rw [shown',shown,Exact.adjust_time,moved,jumps_cons,← UInt64.ofInt_add]
    congr 1
    omega
  refine ⟨?_,forward',advance,?_⟩
  · rw [shown]
    congr 1
    simp only [Exact.time,Exact.adjust,scaled,Nat.pow_zero,Nat.div_one]
    omega
  · intro ahead fits
    have positive := jumps_nonneg ahead
    rw [UInt64.le_iff_toNat_le,advance,UInt64.toNat_add]
    have small := toNat_ofInt elapsed
    omega

set_option maxRecDepth 10000 in
/-- A clock that is slewed back while the counter comes round, and then set forward. -/
theorem slewed_over_rollover : reading (clock.after (start 0 ⟨enabled ⟨0,0⟩ 0,4294967280⟩) [.cycles 10]) ≤
    reading (clock.after (start 0 ⟨enabled ⟨0,0⟩ 0,4294967280⟩) ([.cycles 10] ++ .read_pru_time ::
      [.adj_pru_time 500 420,.cycles 30,.read_pru_time,.adj_pru_time 1000 2000,.cycles 7])) :=
  (slewed_never_back 0 ⟨enabled ⟨0,0⟩ 0,4294967280⟩ [.cycles 10]
    [.adj_pru_time 500 420,.cycles 30,.read_pru_time,.adj_pru_time 1000 2000,.cycles 7] (by decide)).2.2.2
    (by decide) (by decide)

/-! ### Rounds of synchronisation -/

/-- The PRU reads its clock, sets it to the host's time and runs for some cycles. -/
def round (c : Clock) (host : u64) (n : Nat) : Clock :=
  clock.after c [.read_pru_time,.adj_pru_time (reading c) host,.cycles n]

/-- The clock is too fast by less than 100 ns, and the next round comes after the
    timer has slowed down and before it has come round. -/
def Fast (c : Clock) (host : u64) (n : Nat) : Prop :=
  host < reading c ∧ (reading c).toNat < host.toNat + 100 ∧ ((reading c).toNat - host.toNat) / 5 ≤ n ∧ n < 2^32

/-- The clock is too slow by less than 100 ns, or right. -/
def Slow (c : Clock) (host : u64) (n : Nat) : Prop :=
  reading c ≤ host ∧ host.toNat < (reading c).toNat + 100 ∧ 0 < n ∧ n < 2^32 - 19

def rounds (c : Clock) : List (u64 × Nat) → Clock
  | [] => c
  | (host,n) :: rest => rounds (round c host n) rest

def AllFast : Clock → List (u64 × Nat) → Prop
  | _, [] => True
  | c, (host,n) :: rest => Fast c host n ∧ AllFast (round c host n) rest

/-- The timer has no increment set, and will be read before it comes round. -/
structure Even (e : Exact) (c : Clock) (T : Nat) : Prop extends Follows e c T where
  mult : e.mult = 5
  shift : e.shift = 0
  clear : Programmed 0 c.timer.regs
  within : Within (2^32) T c.timer.count

theorem delta_of_near {ts_pru ts_host : u64} (near : |(ts_host.toNat : Int) - ts_pru.toNat| < 100) :
    (adj_delta ts_pru ts_host).toInt = ts_host.toNat - ts_pru.toNat ∧ Accepted (adj_delta ts_pru ts_host) := by
  have delta := @adj_delta_toInt ts_pru ts_host (by omega)
  exact ⟨delta,by rw [Accepted,delta]; exact near⟩

theorem round_timer {host : u64} {n : Nat} (follows : Follows e c T)
    (accepted : Accepted (adj_delta (reading c) host)) :
    (round c host n).timer = Timer.ticks n (c.timer.slew (adj_delta (reading c) host)) := by
  have slews : (clock.answer c .read_pru_time).2.time.slew_cc = some slewing := follows.slews
  simp only [round,Machine.after_cons,Machine.after_nil,adj_slewing slews,accepted,↓reduceIte]
  rfl

/-- What a round does, whichever way the clock is slewed. -/
theorem round_spec {host : u64} {n : Nat} (even : Even e c T) (near : |(host.toNat : Int) - (reading c).toNat| < 100)
    (enough : (cycles (adj_delta (reading c) host)).toNat ≤ n) :
    Follows e (round c host n) c.timer.count ∧ ((round c host n).timer.count : Int) = c.timer.count +
        (n + ((host.toNat : Int) - (reading c).toNat).tdiv 5) - (if host < reading c then 0 else 1) ∧
      (host < reading c → Programmed 0 (round c host n).timer.regs) := by
  obtain ⟨delta,accepted⟩ := delta_of_near near
  have timer := @round_timer c e T host n even.toFollows accepted
  have left := (ticks_spec n (c.timer.slew (adj_delta (reading c) host))).2.1
  have compen : (c.timer.slew (adj_delta (reading c) host)).regs.IEP_COMPEN = cycles (adj_delta (reading c) host) := by
    simp only [Timer.slew,slew_cc_accepted accepted]
  have done : (Timer.ticks n (c.timer.slew (adj_delta (reading c) host))).regs.IEP_COMPEN = 0 := by
    apply UInt32.toNat_inj.mp
    rw [left,compen]
    exact Nat.sub_eq_zero_of_le enough
  have fast : adj_delta (reading c) host < 0 ↔ host < reading c := by
    rw [Int64.lt_iff_toInt_lt,delta,UInt64.lt_iff_toNat_lt]
    have zero : (0 : Int64).toInt = 0 := rfl
    omega
  obtain ⟨count,clear⟩ := slew_clear even.clear accepted done
  refine ⟨?_,?_,?_⟩
  · obtain ⟨read,-⟩ := answer_follows .read_pru_time even.toFollows (fun _ => even.within)
    obtain ⟨set,-⟩ := answer_follows (.adj_pru_time (reading c) host) read (by simp)
    obtain ⟨ran,-⟩ := answer_follows (.cycles n) set (by simp)
    simp only [jump,accepted,↓reduceIte,Exact.adjust_zero,reduceCtorEq] at ran
    exact ran
  · rw [timer,count,delta]
    simp only [fast]
  · intro below
    rw [timer]
    exact clear (fast.mpr below)

/-- What a clock shows that has advanced by some counts. -/
theorem round_reading {host : u64} {n k : Nat} (even : Even e c T) (follows : Follows e (round c host n) c.timer.count)
    (count : (round c host n).timer.count = c.timer.count + k) (near : k < 2^32) :
    reading (round c host n) = UInt64.ofInt ((reading c).toNat + 5 * k) := by
  have within : Within (2^32) c.timer.count (round c host n).timer.count := ⟨by omega,by omega⟩
  have moved := time_five even.mult even.shift (even.tracks.started.trans even.within.1)
    (by omega : c.timer.count ≤ (round c host n).timer.count)
  rw [follows.reading within,moved,UInt64.ofInt_add,← even.toFollows.reading even.within,UInt64.ofInt_add,ofInt_toNat,count]
  congr 2
  omega

theorem Even.round_fast {host : u64} {n : Nat} (even : Even e c T) (fast : Fast c host n) :
    reading (round c host n) = UInt64.ofInt (host.toNat + 5 * n + ((reading c).toNat - host.toNat) % 5) ∧
      Even e (round c host n) c.timer.count := by
  obtain ⟨above,near,enough,small⟩ := fast
  rw [UInt64.lt_iff_toNat_lt] at above
  have close : |(host.toNat : Int) - (reading c).toNat| < 100 := abs_lt.mpr ⟨by omega,by omega⟩
  have negative : (host.toNat : Int) - (reading c).toNat < 0 := by omega
  have delta := (delta_of_near close).1
  have slowed : (cycles (adj_delta (reading c) host)).toNat = ((reading c).toNat - host.toNat) / 5 := by
    rw [cycles,delta,if_pos negative,UInt32.toNat_ofNat']
    omega
  obtain ⟨follows,count,clear⟩ := @round_spec c e T host n even close (by omega)
  rw [if_pos (UInt64.lt_iff_toNat_lt.mpr above),tdiv_natAbs,if_pos negative] at count
  have advance : (round c host n).timer.count = c.timer.count + (n - ((reading c).toNat - host.toNat) / 5) := by omega
  constructor
  · rw [round_reading even follows advance (by omega)]
    congr 1
    omega
  · exact ⟨follows,even.mult,even.shift,clear (UInt64.lt_iff_toNat_lt.mpr above),by omega,by omega⟩

theorem Even.round_slow {host : u64} {n : Nat} (even : Even e c T) (slow : Slow c host n) :
    reading (round c host n) = UInt64.ofInt (host.toNat + 5 * n - 5 - (host.toNat - (reading c).toNat) % 5) := by
  obtain ⟨below,near,enough,small⟩ := slow
  rw [UInt64.le_iff_toNat_le] at below
  have close : |(host.toNat : Int) - (reading c).toNat| < 100 := abs_lt.mpr ⟨by omega,by omega⟩
  have positive : ¬ (host.toNat : Int) - (reading c).toNat < 0 := by omega
  have not_above : ¬ host < reading c := by
    rw [UInt64.lt_iff_toNat_lt]
    omega
  have delta := (delta_of_near close).1
  have once : (cycles (adj_delta (reading c) host)).toNat = 1 := by
    rw [cycles,delta,if_neg positive]
    rfl
  obtain ⟨follows,count,-⟩ := @round_spec c e T host n even close (by omega)
  rw [if_neg not_above,tdiv_natAbs,if_neg positive] at count
  have advance : (round c host n).timer.count = c.timer.count + (n - 1 + (host.toNat - (reading c).toNat) / 5) := by omega
  rw [round_reading even follows advance (by omega)]
  congr 1
  omega

/-- After each round the clock shows the host's time, and less than 5 ns more. -/
def AllMeet : Clock → List (u64 × Nat) → Prop
  | _, [] => True
  | c, (host,n) :: rest =>
    reading (round c host n) = UInt64.ofInt (host.toNat + 5 * n + ((reading c).toNat - host.toNat) % 5) ∧
      AllMeet (round c host n) rest

theorem Even.rounds {history : List (u64 × Nat)} (even : Even e c T) (fast : AllFast c history) :
    AllMeet c history ∧ ∃ T, Even e (rounds c history) T := by
  induction history generalizing c T with
  | nil => exact ⟨trivial,T,even⟩
  | cons now rest ih =>
    obtain ⟨host,n⟩ := now
    obtain ⟨first,others⟩ := fast
    obtain ⟨meets,even'⟩ := even.round_fast first
    obtain ⟨meet,later⟩ := ih even' others
    exact ⟨⟨meets,meet⟩,later⟩

/-- A clock that is too fast each time meets the host's time each time, as closely
    as its counts allow. The first time that it is not, it ends 5 to 9 ns behind. -/
theorem fast_rounds (regs : Iep.iep_regs) (compen iep_cnt : UInt32) (count : Nat) (history : List (u64 × Nat))
    (fast : AllFast (start iep_cnt ⟨enabled regs compen,count⟩) history) :
    AllMeet (start iep_cnt ⟨enabled regs compen,count⟩) history ∧
      ∀ host n, let c := rounds (start iep_cnt ⟨enabled regs compen,count⟩) history
        Slow c host n →
        reading (round c host n) = UInt64.ofInt (host.toNat + 5 * n - 5 - (host.toNat - (reading c).toNat) % 5) := by
  have even : Even ⟨5,0,count,iep_cnt.toNat⟩ (start iep_cnt ⟨enabled regs compen,count⟩) count :=
    ⟨start_follows iep_cnt ⟨enabled regs compen,count⟩,rfl,rfl,enabled_programmed regs compen,Nat.le_refl _,by simp [start]⟩
  obtain ⟨meet,T,even'⟩ := even.rounds fast
  exact ⟨meet,fun host n slow => even'.round_slow slow⟩

set_option maxRecDepth 10000 in
/-- A clock 80 ns and then 29 ns too fast, and 7 ns too slow after that. -/
theorem fast_rounds_twice : AllMeet (start 1000 ⟨enabled ⟨0,0⟩ 0,100⟩) [(920,30),(1041,6)] ∧
    reading (round (rounds (start 1000 ⟨enabled ⟨0,0⟩ 0,100⟩) [(920,30),(1041,6)]) 1082 10) = 1082 + 50 - 7 := by
  have fast : AllFast (start 1000 ⟨enabled ⟨0,0⟩ 0,100⟩) [(920,30),(1041,6)] := by
    simp only [AllFast,Fast]
    decide
  obtain ⟨meet,slow⟩ := fast_rounds ⟨0,0⟩ 0 1000 100 [(920,30),(1041,6)] fast
  refine ⟨meet,(slow 1082 10 ?_).trans ?_⟩
  · unfold Slow
    decide
  · decide

end NeslPru.SlewedClock
