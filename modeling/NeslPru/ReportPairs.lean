import Mathlib.Data.List.Infix
import Mathlib.Data.List.Nodup

/-!
The lines that the host of `measure_time_sync` prints. Its two threads leave
their timestamps in one variable each and join them with the flags of
`ts_ready`. Each handler is one step here, and a schedule is any merge of the
two streams: the reports of the PRU, and the events of both capture channels.
-/
namespace NeslPru.ReportPairs
set_option linter.unusedSimpArgs false

/-- The variables that the threads share. -/
structure Shared where
  ts_ready : Int32
  last_pru_ts : UInt64
  last_host_ts : UInt64
deriving DecidableEq

/-- The numbers of a line, which `%lld` takes as signed. -/
structure Row where
  last_host_ts : Int64
  last_pru_ts : Int64
  difference : Int64
deriving DecidableEq

def row (host_ts pru_ts : UInt64) : Row := ⟨host_ts.toInt64,pru_ts.toInt64,(pru_ts - host_ts).toInt64⟩

/-- The end of both handlers. -/
def report (g : Shared) : Shared × Option Row :=
  if g.ts_ready = 0x3 then
    ({ g with ts_ready := 0 },some (row g.last_host_ts g.last_pru_ts))
  else
    (g,none)

/-- What `receive_pru_thread` does with the outcome of `rbuf_read_uint64`. -/
def receive_pru (g : Shared) (data : UInt64) (status : Int16) : Shared × Option Row :=
  let data : Int64 := data.toInt64
  if status = 0 then
    report { g with last_pru_ts := data.toUInt64, ts_ready := g.ts_ready ||| 0x1 }
  else
    (g,none)

/-- The effects of a pass of `send_pru_thread`. -/
structure Passed where
  shared : Shared
  i : Int32
  row : Option Row
  written : Option UInt64
deriving DecidableEq

/-- What `send_pru_thread` does with the outcome of `qot_read_event_ts`. -/
def send_pru (g : Shared) (i channel : Int32) (nano_ts : UInt64) : Passed :=
  if channel = 0 then
    ⟨g,i,none,some nano_ts⟩
  else if channel = 1 then
    -- Skip the falling edge timestamp
    if i % 2 ≠ 0 then
      let (g,row) := report { g with last_host_ts := nano_ts, ts_ready := g.ts_ready ||| 0x2 }
      ⟨g,i + 1,row,none⟩
    else
      ⟨g,i + 1,none,none⟩
  else
    ⟨g,i,none,none⟩

/-! ### Runs -/

/-- The report of the PRU on a pulse, and the events of its edges on channel 1. -/
structure Pulse where
  pru_ts : UInt64
  rising_ts : UInt64
  falling_ts : UInt64

/-- The handling of a report, of an edge on channel 1 or of an event on channel 0. -/
inductive Move where
  | receive
  | capture
  | sync (nano_ts : UInt64)
deriving DecidableEq

/-- A printed line, with the pulses that its timestamps were handled for. -/
structure Printed where
  host_pulse : Nat
  pru_pulse : Nat
  row : Row
deriving DecidableEq

/-- The variables of both threads, how much of each stream has been handled, and
    what has been printed. -/
structure World where
  shared : Shared
  i : Int32
  received : Nat
  captured : Nat
  printed : List Printed

/-- The rising edges that have been handled; rising and falling ones alternate. -/
def World.risen (w : World) : Nat := (w.captured + 1) / 2

def World.print (w : World) (row : Option Row) : World :=
  { w with printed := w.printed ++ (row.map (⟨w.risen - 1,w.received - 1,·⟩)).toList }

variable (pulses : Nat → Pulse)

/-- The timestamp of an edge on channel 1. -/
def edge_ts (n : Nat) : UInt64 := if n % 2 = 0 then (pulses (n / 2)).rising_ts else (pulses (n / 2)).falling_ts

def step (w : World) : Move → World
  | .receive =>
    let (g,row) := receive_pru w.shared (pulses w.received).pru_ts 0
    { w with shared := g, received := w.received + 1 }.print row
  | .capture =>
    let passed := send_pru w.shared w.i 1 (edge_ts pulses w.captured)
    { w with shared := passed.shared, i := passed.i, captured := w.captured + 1 }.print passed.row
  | .sync nano_ts =>
    let passed := send_pru w.shared w.i 0 nano_ts
    { w with shared := passed.shared, i := passed.i }.print passed.row

def initial : World := ⟨⟨0,0,0⟩,1,0,0,[]⟩

def run (schedule : List Move) : World := schedule.foldl (step pulses) initial

/-- Every line is about one pulse, no pulse has two of them, and a pulse has one
    as soon as both of its timestamps have been handled. -/
structure Reports (w : World) : Prop where
  same_pulse : ∀ line ∈ w.printed, line.host_pulse = line.pru_pulse ∧
    line.row = row (pulses line.pru_pulse).rising_ts (pulses line.pru_pulse).pru_ts
  once : (w.printed.map Printed.pru_pulse).Nodup
  complete : ∀ n, n < w.received → n < w.risen → ∃ line ∈ w.printed, line.pru_pulse = n

/-! ### Keeping in step -/

def received (schedule : List Move) : Nat := schedule.count .receive
def captured (schedule : List Move) : Nat := schedule.count .capture
def risen (schedule : List Move) : Nat := (captured schedule + 1) / 2

/-- The other thread has not yet handled the timestamp of the pulse after. -/
def InTime (before : List Move) : Move → Prop
  | .receive => risen before ≤ received before + 1
  | .capture => captured before % 2 = 0 → received before ≤ risen before + 1
  | .sync _ => True

def InStep (schedule : List Move) : Prop := ∀ before move, before ++ [move] <+: schedule → InTime before move

theorem inStep_concat {schedule : List Move} {move : Move} :
    InStep (schedule ++ [move]) ↔ InStep schedule ∧ InTime schedule move := by
  constructor
  · intro together
    refine ⟨?_,together schedule move (List.prefix_refl _)⟩
    intro before earlier started
    exact together before earlier (started.trans (List.prefix_append _ _))
  · rintro ⟨kept,last⟩ before earlier started
    rcases List.prefix_concat_iff.mp started with whole | inside
    · obtain ⟨rfl,same⟩ := List.append_inj' whole rfl
      obtain rfl := List.singleton_inj.mp same
      exact last
    · exact kept before earlier inside

/-! ### The flags -/

/-- The flags say which of the two threads is ahead. -/
def Flags (own_bit their_bit : Int32) (own theirs : Nat) (ts_ready : Int32) : Prop :=
  ts_ready = if own = theirs then 0 else if theirs < own then own_bit else their_bit

theorem flags_comm {own_bit their_bit ts_ready : Int32} {own theirs : Nat}
    (flags : Flags own_bit their_bit own theirs ts_ready) : Flags their_bit own_bit theirs own ts_ready := by
  unfold Flags at flags ⊢
  rw [flags]
  by_cases same : own = theirs
  · simp [same]
  · by_cases ahead : theirs < own
    · simp [same,Ne.symm same,ahead,Nat.lt_asymm ahead]
    · have behind : own < theirs := by omega
      simp [same,Ne.symm same,ahead,behind]

/-- Two bits that make up `0x3`. -/
structure Bits (own_bit their_bit : Int32) : Prop where
  nothing : 0 ||| own_bit = own_bit
  again : own_bit ||| own_bit = own_bit
  both : their_bit ||| own_bit = 0x3
  alone : own_bit ≠ 0x3

theorem pru_bits : Bits 0x1 0x2 := ⟨by decide,by decide,by decide,by decide⟩
theorem host_bits : Bits 0x2 0x1 := ⟨by decide,by decide,by decide,by decide⟩

variable {own_bit their_bit : Int32} {own theirs : Nat} {g : Shared}

theorem raised (bits : Bits own_bit their_bit) {ts_ready : Int32} (flags : Flags own_bit their_bit own theirs ts_ready) :
    ts_ready ||| own_bit = if own < theirs then 0x3 else own_bit := by
  unfold Flags at flags
  rw [flags]
  by_cases behind : own < theirs
  · have apart : own ≠ theirs := by omega
    simp only [apart,Nat.lt_asymm behind,behind,↓reduceIte,bits.both]
  · by_cases same : own = theirs
    · simp only [same,Nat.lt_irrefl,↓reduceIte,bits.nothing]
    · have ahead : theirs < own := by omega
      simp only [same,ahead,behind,↓reduceIte,bits.again]

/-- A handler prints a line exactly when the other thread is ahead. -/
theorem report_row (bits : Bits own_bit their_bit) {last_pru_ts last_host_ts : UInt64} {ts_ready : Int32}
    (flags : Flags own_bit their_bit own theirs ts_ready) :
    (report ⟨ts_ready ||| own_bit,last_pru_ts,last_host_ts⟩).2 =
      if own < theirs then some (row last_host_ts last_pru_ts) else none := by
  rw [raised bits flags]
  by_cases behind : own < theirs
  · simp [report,behind]
  · simp [report,behind,bits.alone]

theorem report_flags (bits : Bits own_bit their_bit) {last_pru_ts last_host_ts : UInt64} {ts_ready : Int32}
    (flags : Flags own_bit their_bit own theirs ts_ready) (in_time : theirs ≤ own + 1) :
    Flags own_bit their_bit (own + 1) theirs (report ⟨ts_ready ||| own_bit,last_pru_ts,last_host_ts⟩).1.ts_ready := by
  rw [raised bits flags]
  unfold Flags
  by_cases behind : own < theirs
  · have joined : own + 1 = theirs := by omega
    simp [report,behind,joined]
  · have ahead : theirs < own + 1 := by omega
    simp [report,behind,bits.alone,ahead,Nat.ne_of_gt ahead]

theorem report_last (g : Shared) :
    (report g).1.last_pru_ts = g.last_pru_ts ∧ (report g).1.last_host_ts = g.last_host_ts := by
  unfold report
  split
  · exact ⟨rfl,rfl⟩
  · exact ⟨rfl,rfl⟩

/-! ### Steps -/

/-- `i` changes its parity with each edge, also where it wraps. -/
theorem skips_falling (i : Int32) : (i + 1) % 2 ≠ 0 ↔ ¬ i % 2 ≠ 0 := by
  have parity : ∀ x : Int32, x % 2 ≠ 0 ↔ x.toInt % 2 = 1 := by
    intro x
    rw [Ne,← Int32.toInt_inj,Int32.toInt_mod]
    show ¬ x.toInt.tmod 2 = 0 ↔ _
    rw [← Int.dvd_iff_tmod_eq_zero]
    omega
  have one : Int32.toInt 1 = 1 := rfl
  rw [parity,parity,Int32.toInt_add,one,Int.bmod_def]
  split
  · omega
  · omega

variable {pulses} {w : World}

@[simp] theorem print_none (w : World) : w.print none = w := by simp [World.print]

@[simp] theorem print_printed (w : World) (line : Option Row) :
    (w.print line).printed = w.printed ++ (line.map (⟨w.risen - 1,w.received - 1,·⟩)).toList := rfl

theorem step_receive (w : World) :
    step pulses w .receive =
      let r := report ⟨w.shared.ts_ready ||| 0x1,(pulses w.received).pru_ts,w.shared.last_host_ts⟩
      { w with shared := r.1, received := w.received + 1 }.print r.2 := by
  simp [step,receive_pru]

theorem step_rising (odd : w.i % 2 ≠ 0) (rising : w.captured % 2 = 0) :
    step pulses w .capture =
      let r := report ⟨w.shared.ts_ready ||| 0x2,w.shared.last_pru_ts,(pulses (w.captured / 2)).rising_ts⟩
      { w with shared := r.1, i := w.i + 1, captured := w.captured + 1 }.print r.2 := by
  simp [step,send_pru,odd,edge_ts,rising]

theorem step_falling (even : ¬ w.i % 2 ≠ 0) : step pulses w .capture = { w with i := w.i + 1, captured := w.captured + 1 } := by
  simp [step,send_pru,even]

theorem step_sync (w : World) (nano_ts : UInt64) : step pulses w (.sync nano_ts) = w := by
  simp [step,send_pru]

/-- The variables hold the timestamps that were handled last, and `i` is odd
    before rising edges. -/
structure Follows (pulses : Nat → Pulse) (w : World) : Prop where
  parity : w.i % 2 ≠ 0 ↔ w.captured % 2 = 0
  pru : 0 < w.received → w.shared.last_pru_ts = (pulses (w.received - 1)).pru_ts
  host : 0 < w.risen → w.shared.last_host_ts = (pulses (w.risen - 1)).rising_ts

theorem follows_step (follows : Follows pulses w) (move : Move) : Follows pulses (step pulses w move) := by
  cases move with
  | receive =>
    rw [step_receive]
    refine ⟨follows.parity,?_,?_⟩
    · intro _
      exact (report_last _).1
    · intro some_risen
      exact (report_last _).2.trans (follows.host some_risen)
  | capture =>
    by_cases rising : w.captured % 2 = 0
    · have odd := follows.parity.mpr rising
      rw [step_rising odd rising]
      refine ⟨?_,?_,?_⟩
      · show (w.i + 1) % 2 ≠ 0 ↔ (w.captured + 1) % 2 = 0
        rw [skips_falling,follows.parity]
        omega
      · intro some_received
        exact (report_last _).1.trans (follows.pru some_received)
      · intro _
        refine (report_last _).2.trans ?_
        show (pulses (w.captured / 2)).rising_ts = (pulses ((w.captured + 1 + 1) / 2 - 1)).rising_ts
        congr 2
        omega
    · have even : ¬ w.i % 2 ≠ 0 := by rwa [follows.parity]
      rw [step_falling even]
      have same : (w.captured + 1 + 1) / 2 = w.risen := by
        show _ = (w.captured + 1) / 2
        omega
      refine ⟨?_,follows.pru,?_⟩
      · show (w.i + 1) % 2 ≠ 0 ↔ (w.captured + 1) % 2 = 0
        rw [skips_falling,follows.parity]
        omega
      · show 0 < (w.captured + 1 + 1) / 2 → w.shared.last_host_ts = (pulses ((w.captured + 1 + 1) / 2 - 1)).rising_ts
        rw [same]
        exact follows.host
  | sync nano_ts =>
    rw [step_sync]
    exact follows

/-- The lines of the first pulses. -/
def pairs (pulses : Nat → Pulse) (n : Nat) : List Printed :=
  (List.range n).map (fun k => ⟨k,k,row (pulses k).rising_ts (pulses k).pru_ts⟩)

theorem pairs_succ (n : Nat) :
    pairs pulses (n + 1) = pairs pulses n ++ [⟨n,n,row (pulses n).rising_ts (pulses n).pru_ts⟩] := by
  simp [pairs,List.range_succ]

/-- Each pulse of which both timestamps have been handled has its line. -/
structure Paired (pulses : Nat → Pulse) (w : World) : Prop where
  flags : Flags 0x1 0x2 w.received w.risen w.shared.ts_ready
  printed : w.printed = pairs pulses (min w.received w.risen)

theorem paired_receive (follows : Follows pulses w) (paired : Paired pulses w) (in_time : w.risen ≤ w.received + 1) :
    Paired pulses (step pulses w .receive) := by
  rw [step_receive]
  refine ⟨report_flags pru_bits paired.flags in_time,?_⟩
  simp only [print_printed,report_row pru_bits paired.flags,paired.printed]
  show _ = pairs pulses (min (w.received + 1) w.risen)
  by_cases behind : w.received < w.risen
  · have next : w.risen = w.received + 1 := by omega
    have host : w.shared.last_host_ts = (pulses w.received).rising_ts := by simpa [next] using follows.host (by omega)
    rw [if_pos behind,host,next,Nat.min_eq_left (Nat.le_succ _),Nat.min_self,pairs_succ]
    show _ ++ [Printed.mk (w.risen - 1) w.received _] = _
    rw [next,Nat.add_sub_cancel]
  · have ahead : w.risen ≤ w.received := by omega
    simp [behind,Nat.min_eq_right ahead,Nat.min_eq_right (ahead.trans (Nat.le_succ _))]

theorem paired_rising (follows : Follows pulses w) (paired : Paired pulses w) (rising : w.captured % 2 = 0)
    (in_time : w.received ≤ w.risen + 1) : Paired pulses (step pulses w .capture) := by
  rw [step_rising (follows.parity.mpr rising) rising]
  have here : w.risen = w.captured / 2 := by
    show (w.captured + 1) / 2 = _
    omega
  have after : (w.captured + 1 + 1) / 2 = w.risen + 1 := by omega
  have flags := flags_comm paired.flags
  constructor
  · show Flags 0x1 0x2 w.received ((w.captured + 1 + 1) / 2) _
    rw [after]
    exact flags_comm (report_flags host_bits flags in_time)
  · simp only [print_printed,report_row host_bits flags,paired.printed]
    show _ = pairs pulses (min w.received ((w.captured + 1 + 1) / 2))
    rw [after]
    by_cases behind : w.risen < w.received
    · have next : w.received = w.risen + 1 := by omega
      have pru : w.shared.last_pru_ts = (pulses w.risen).pru_ts := by simpa [next] using follows.pru (by omega)
      rw [if_pos behind,pru,← here,next,Nat.min_eq_right (Nat.le_succ _),Nat.min_self,pairs_succ]
      show _ ++ [Printed.mk ((w.captured + 1 + 1) / 2 - 1) (w.risen + 1 - 1) _] = _
      rw [after,Nat.add_sub_cancel]
    · have ahead : w.received ≤ w.risen := by omega
      simp [behind,Nat.min_eq_left ahead,Nat.min_eq_left (ahead.trans (Nat.le_succ _))]

theorem paired_falling (follows : Follows pulses w) (paired : Paired pulses w) (falling : ¬ w.captured % 2 = 0) :
    Paired pulses (step pulses w .capture) := by
  rw [step_falling (by rwa [follows.parity])]
  have same : (w.captured + 1 + 1) / 2 = w.risen := by
    show _ = (w.captured + 1) / 2
    omega
  constructor
  · show Flags 0x1 0x2 w.received ((w.captured + 1 + 1) / 2) _
    rw [same]
    exact paired.flags
  · show w.printed = pairs pulses (min w.received ((w.captured + 1 + 1) / 2))
    rw [same]
    exact paired.printed

/-- A handler that comes too late prints the timestamp of a later pulse. -/
theorem late_receive (paired : Paired pulses w) (late : w.received + 1 < w.risen) :
    ∃ line ∈ (step pulses w .receive).printed, line.host_pulse ≠ line.pru_pulse := by
  rw [step_receive]
  simp only [print_printed,report_row pru_bits paired.flags]
  have behind : w.received < w.risen := by omega
  rw [if_pos behind]
  refine ⟨_,List.mem_append_right _ (List.mem_singleton_self _),?_⟩
  show w.risen - 1 ≠ w.received
  omega

theorem late_rising (follows : Follows pulses w) (paired : Paired pulses w) (rising : w.captured % 2 = 0)
    (late : w.risen + 1 < w.received) :
    ∃ line ∈ (step pulses w .capture).printed, line.host_pulse ≠ line.pru_pulse := by
  rw [step_rising (follows.parity.mpr rising) rising]
  simp only [print_printed,report_row host_bits (flags_comm paired.flags)]
  have behind : w.risen < w.received := by omega
  rw [if_pos behind]
  refine ⟨_,List.mem_append_right _ (List.mem_singleton_self _),?_⟩
  show (w.captured + 1 + 1) / 2 - 1 ≠ w.received - 1
  simp only [World.risen] at late
  omega

theorem step_printed (w : World) (move : Move) {line : Printed} (member : line ∈ w.printed) :
    line ∈ (step pulses w move).printed := by
  cases move <;> exact List.mem_append_left _ member

/-! ### Runs -/

theorem run_concat (schedule : List Move) (move : Move) :
    run pulses (schedule ++ [move]) = step pulses (run pulses schedule) move := by
  simp [run]

theorem run_counts (pulses : Nat → Pulse) (schedule : List Move) :
    (run pulses schedule).received = received schedule ∧ (run pulses schedule).captured = captured schedule := by
  induction schedule using List.reverseRecOn with
  | nil => exact ⟨rfl,rfl⟩
  | append_singleton schedule move ih =>
    obtain ⟨reports,edges⟩ := ih
    rw [run_concat]
    cases move <;> simp [step,World.print,received,captured,reports,edges,List.count_append] at *

theorem run_follows (schedule : List Move) : Follows pulses (run pulses schedule) := by
  induction schedule using List.reverseRecOn with
  | nil => exact ⟨by simp [run,initial],nofun,fun some_risen => absurd some_risen (by simp [run,initial,World.risen])⟩
  | append_singleton schedule move ih =>
    rw [run_concat]
    exact follows_step ih move

/-- A handler that is in time keeps the lines paired. -/
theorem run_paired {schedule : List Move} (in_step : InStep schedule) : Paired pulses (run pulses schedule) := by
  induction schedule using List.reverseRecOn with
  | nil => exact ⟨by simp [run,initial,World.risen,Flags],by simp [run,initial,pairs]⟩
  | append_singleton schedule move ih =>
    obtain ⟨kept,in_time⟩ := inStep_concat.mp in_step
    have paired := ih kept
    have follows : Follows pulses (run pulses schedule) := run_follows schedule
    obtain ⟨reports,edges⟩ := run_counts pulses schedule
    have rises : (run pulses schedule).risen = risen schedule := by rw [World.risen,edges,risen]
    rw [run_concat]
    cases move with
    | receive => exact paired_receive follows paired (by rw [reports,rises]; exact in_time)
    | capture =>
      by_cases rising : (run pulses schedule).captured % 2 = 0
      · refine paired_rising follows paired rising ?_
        rw [edges] at rising
        rw [reports,rises]
        exact in_time rising
      · exact paired_falling follows paired rising
    | sync nano_ts =>
      rw [step_sync]
      exact paired

theorem run_late (pulses : Nat → Pulse) {schedule : List Move} (out_of_step : ¬ InStep schedule) :
    ∃ line ∈ (run pulses schedule).printed, line.host_pulse ≠ line.pru_pulse := by
  induction schedule using List.reverseRecOn with
  | nil => exact absurd (fun _ _ started => by simp at started) out_of_step
  | append_singleton schedule move ih =>
    rw [run_concat]
    by_cases kept : InStep schedule
    · have late : ¬ InTime schedule move := fun in_time => out_of_step (inStep_concat.mpr ⟨kept,in_time⟩)
      have paired : Paired pulses (run pulses schedule) := run_paired kept
      obtain ⟨reports,edges⟩ := run_counts pulses schedule
      have rises : (run pulses schedule).risen = risen schedule := by rw [World.risen,edges,risen]
      cases move with
      | receive => exact late_receive paired (by rw [reports,rises]; exact Nat.not_le.mp late)
      | capture =>
        obtain ⟨rising,overtaken⟩ := Classical.not_imp.mp late
        refine late_rising (run_follows schedule) paired (by rw [edges]; exact rising) ?_
        rw [reports,rises]
        exact Nat.not_le.mp overtaken
      | sync nano_ts => exact absurd trivial late
    · obtain ⟨line,member,apart⟩ := ih kept
      exact ⟨line,step_printed _ move member,apart⟩

theorem paired_reports (paired : Paired pulses w) : Reports pulses w := by
  refine ⟨?_,?_,?_⟩
  · intro line member
    rw [paired.printed] at member
    obtain ⟨k,_,rfl⟩ := List.mem_map.mp member
    exact ⟨rfl,rfl⟩
  · rw [paired.printed]
    simpa [pairs,Function.comp_def] using List.nodup_range
  · intro n reported risen
    rw [paired.printed]
    refine ⟨_,List.mem_map_of_mem (List.mem_range.mpr (Nat.lt_min.mpr ⟨reported,risen⟩)),rfl⟩

variable (pulses)

/-- The lines are right exactly for the schedules in which no thread handles a
    timestamp after the other has handled the one of the next pulse. -/
theorem reports_iff (schedule : List Move) : Reports pulses (run pulses schedule) ↔ InStep schedule := by
  constructor
  · intro reports
    by_contra out_of_step
    obtain ⟨line,member,apart⟩ := run_late pulses out_of_step
    exact apart (reports.same_pulse line member).1
  · intro in_step
    exact paired_reports (run_paired in_step)

/-- Pulses every 250 ms that the PRU reports 400 ns late. -/
def every_250_ms (n : Nat) : Pulse where
  pru_ts := 1487137387250000400 + 250000000 * UInt64.ofNat n
  rising_ts := 1487137387250000000 + 250000000 * UInt64.ofNat n
  falling_ts := 1487137387350000000 + 250000000 * UInt64.ofNat n

/-- Two reports before the first edge: the line is off by a whole period. -/
theorem slipped_pair :
    (run every_250_ms [.receive,.receive,.capture]).printed =
        [⟨0,1,⟨1487137387250000000,1487137387500000400,250000400⟩⟩] ∧
      ¬ Reports every_250_ms (run every_250_ms [.receive,.receive,.capture]) := by
  have printed : (run every_250_ms [.receive,.receive,.capture]).printed =
      [⟨0,1,⟨1487137387250000000,1487137387500000400,250000400⟩⟩] := by decide
  refine ⟨printed,fun reports => ?_⟩
  have same := (reports.same_pulse _ (by rw [printed]; exact List.mem_singleton_self _)).1
  exact absurd same (by decide)

end NeslPru.ReportPairs
