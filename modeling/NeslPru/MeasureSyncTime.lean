import NeslPru.MeasureSync
import NeslPru.RelyGuarantee

/-!
The synchronisation loop of `measure_time_sync` along every run. Within a round
the clock is compared with itself across whatever reads the polls make, and the
guard of the next round compares two readings after the same adjustments. So the
offset, and with it the time of the host, never reaches the guard.
-/
namespace NeslPru.MeasureSyncTime
open NeslPru.Access NeslPru.RelyGuarantee NeslPru.Iep NeslPru.MeasureSync
set_option linter.unusedSimpArgs false

/-- The difference of the readings is what has been counted since `last_ts`. -/
def Kept (g : Guard) : Prop :=
  ∃ last, g.last_counted = some last ∧ last ≤ g.counted ∧ (g.ts - g.last_ts).toNat = g.counted - last

/-- The round is started after `k` others, and more than the period has been
    counted since the last reading of the one before. -/
def OnTime (k : Nat) (start : Start) : Prop :=
  start.adjusted = k ∧ ∃ last, start.last_counted = some last ∧ start.counted > last + SYNC_PERIOD_NS.toNat

/-- The reading continues the time of the host from the start of the last round. -/
def Continues (rounds : List Round) (reading : Reading) : Prop :=
  ∀ k, reading.adjusted = k + 1 → ∃ round, rounds[k]? = some round ∧
    reading.value = round.host_ts + (reading.ts_ns - round.ts_ns)

/-- What the record of a run says of the clock. -/
structure Lawful (w : World) : Prop where
  counts : w.time.ts_ns = UInt64.ofNat w.counted
  offset : ∀ round, w.rounds.getLast? = some round → w.time.offset.toUInt64 = round.host_ts - round.ts_ns
  readings : ∀ reading ∈ w.readings, Continues w.rounds reading
  guards : ∀ g ∈ w.guards, Kept g
  starts : ∀ k start, w.starts[k + 1]? = some start → OnTime (k + 1) start

/-- Outside of a round. After the first one `last_ts` is a reading since the last
    adjustment, at most `bound` ago. -/
structure Anchored (bound : Nat) (l : Locals) (w : World) : Prop where
  rounds : w.starts.length = w.rounds.length
  none_yet : l.first = true → w.starts = []
  last : l.first = false → ∃ last, w.last_counted = some last ∧
    l.last_ts = UInt64.ofNat last + w.time.offset.toUInt64 ∧ last ≤ w.counted ∧ w.counted ≤ last + bound

/-- Inside of a round, where `ts` is the reading at its start. -/
structure Waiting (l : Locals) (w : World) : Prop where
  rounds : w.starts.length = w.rounds.length + 1
  after_first : l.first = false
  synced : l.ts = w.synced_ts_ns + w.time.offset.toUInt64

/-- What the PRU knows at the start of a block. -/
def Knows : Block → World → Prop
  | .main, w => w.rounds = [] ∧ w.starts = []
  | .top _ l, w => Anchored (SYNC_PERIOD_NS.toNat + 2^32) l w
  | .test _ l, w => l.ts = w.time.shown ∧ Anchored (SYNC_PERIOD_NS.toNat + 2^32 + 2^32) l w
  | .poll _ l, w => Waiting l w
  | .polled _ l, w => Waiting l w
  | .adjusted _ l, w => Anchored SYNC_PERIOD_NS.toNat l w
  | .halted, _ => True

def clockOutline : Outline Unit system where
  inv := Lawful
  rely _ w w' := w' = w
  guar _ _ _ _ := True
  pre _ := Knows
  refl _ _ := rfl
  trans _ _ _ _ first second := second.trans first
  compat other := absurd rfl other

/-! ### What a reading does -/

variable {w : World}

theorem iep_get_time_increase (time : iep_time) (iep_cnt : UInt32) :
    ((iep_get_time time iep_cnt).2.ts_ns - time.ts_ns).toNat < 2^32 := by
  have increased : ∀ ns : UInt32, (time.ts_ns + ns.toUInt64 - time.ts_ns).toNat < 2^32 := by
    intro ns
    rw [show time.ts_ns + ns.toUInt64 - time.ts_ns = ns.toUInt64 by grind]
    exact ns.toNat_lt
  simp only [iep_get_time]
  split
  · exact increased _
  · exact increased _

theorem read_counted (w : World) (iep_cnt : UInt32) :
    w.counted ≤ (w.read iep_cnt).counted ∧ (w.read iep_cnt).counted ≤ w.counted + 2^32 := by
  have small := iep_get_time_increase w.time iep_cnt
  constructor
  · exact Nat.le_add_right _ _
  · exact Nat.add_le_add_left small.le _

theorem last_round {k : Nat} (many : w.rounds.length = k + 1) :
    ∃ round, w.rounds[k]? = some round ∧ w.rounds.getLast? = some round := by
  have inside : k < w.rounds.length := by omega
  refine ⟨w.rounds[k],by simp [inside],?_⟩
  simp [List.getLast?_eq_getElem?,many,inside]

theorem lawful_read (lawful : Lawful w) (iep_cnt : UInt32) : Lawful (w.read iep_cnt) := by
  refine ⟨?_,lawful.offset,?_,lawful.guards,lawful.starts⟩
  · show (iep_get_time w.time iep_cnt).2.ts_ns =
      UInt64.ofNat (w.counted + ((iep_get_time w.time iep_cnt).2.ts_ns - w.time.ts_ns).toNat)
    rw [UInt64.ofNat_add,← lawful.counts,UInt64.ofNat_toNat]
    generalize (iep_get_time w.time iep_cnt).2.ts_ns = ts_ns
    grind
  · intro reading member
    rcases List.mem_append.mp member with before | last
    · exact lawful.readings reading before
    · obtain rfl := List.mem_singleton.mp last
      intro k many
      obtain ⟨round,here,current⟩ := last_round many
      refine ⟨round,here,?_⟩
      have shown : (iep_get_time w.time iep_cnt).1 = (iep_get_time w.time iep_cnt).2.ts_ns + w.time.offset.toUInt64 := rfl
      show (iep_get_time w.time iep_cnt).1 = round.host_ts + ((iep_get_time w.time iep_cnt).2.ts_ns - round.ts_ns)
      rw [shown,lawful.offset round current]
      generalize (iep_get_time w.time iep_cnt).2.ts_ns = ts_ns
      grind

theorem anchored_read {l : Locals} {bound : Nat} (anchored : Anchored bound l w) (iep_cnt : UInt32) :
    Anchored (bound + 2^32) l (w.read iep_cnt) := by
  refine ⟨anchored.rounds,anchored.none_yet,fun after_first => ?_⟩
  obtain ⟨last,here,shown,since,near⟩ := anchored.last after_first
  obtain ⟨more,little⟩ := read_counted w iep_cnt
  refine ⟨last,?_,shown,since.trans more,?_⟩
  · show some (w.last_counted.getD _) = some last
    rw [here,Option.getD_some]
  · calc (w.read iep_cnt).counted ≤ w.counted + 2^32 := little
      _ ≤ last + bound + 2^32 := Nat.add_le_add_right near _
      _ = last + (bound + 2^32) := Nat.add_assoc _ _ _

theorem anchored_mono {l : Locals} {bound : Nat} (anchored : Anchored bound l w) : Anchored (bound + 2^32) l w := by
  refine ⟨anchored.rounds,anchored.none_yet,fun after_first => ?_⟩
  obtain ⟨last,here,shown,since,near⟩ := anchored.last after_first
  exact ⟨last,here,shown,since,by omega⟩

/-! ### The guard -/

variable {l : Locals}

/-- The guard sees the readings without their offset. -/
theorem guard_difference (lawful : Lawful w) (shown : l.ts = w.time.shown)
    (anchored : Anchored (SYNC_PERIOD_NS.toNat + 2^32 + 2^32) l w) (after_first : l.first = false) :
    ∃ last, w.last_counted = some last ∧ l.last_ts = UInt64.ofNat last + w.time.offset.toUInt64 ∧
      last ≤ w.counted ∧ (l.ts - l.last_ts).toNat = w.counted - last := by
  obtain ⟨last,here,last_shown,since,near⟩ := anchored.last after_first
  refine ⟨last,here,last_shown,since,?_⟩
  have same : l.ts - l.last_ts = UInt64.ofNat (w.counted - last) := by
    rw [UInt64.ofNat_sub since,shown,last_shown,iep_time.shown,lawful.counts]
    grind
  have small : w.counted - last < 2^64 := by
    have : SYNC_PERIOD_NS.toNat = 8000000000 := rfl
    omega
  rw [same,UInt64.toNat_ofNat',Nat.mod_eq_of_lt small]

theorem starts_iff (after_first : l.first = false) : starts l = true ↔ (l.ts - l.last_ts).toNat > SYNC_PERIOD_NS.toNat := by
  rw [starts,after_first,Bool.or_false,decide_eq_true_eq]
  exact UInt64.lt_iff_toNat_lt

/-- A round that is not started leaves `last_ts` in reach. -/
theorem anchored_stays (lawful : Lawful w) (shown : l.ts = w.time.shown)
    (anchored : Anchored (SYNC_PERIOD_NS.toNat + 2^32 + 2^32) l w) (stay : ¬ starts l = true) :
    Anchored SYNC_PERIOD_NS.toNat l w := by
  refine ⟨anchored.rounds,anchored.none_yet,fun after_first => ?_⟩
  obtain ⟨last,here,last_shown,since,difference⟩ := guard_difference lawful shown anchored after_first
  rw [starts_iff after_first,difference] at stay
  exact ⟨last,here,last_shown,since,Nat.sub_le_iff_le_add'.mp (Nat.not_lt.mp stay)⟩

/-- A round that is started, and is not the first one, is on time. -/
theorem lawful_start (lawful : Lawful w) (shown : l.ts = w.time.shown)
    (anchored : Anchored (SYNC_PERIOD_NS.toNat + 2^32 + 2^32) l w) (go : starts l = true) :
    Lawful { w with starts := w.starts ++ [⟨w.counted,w.last_counted,w.rounds.length⟩] } := by
  refine ⟨lawful.counts,lawful.offset,lawful.readings,lawful.guards,?_⟩
  intro k start here
  change (w.starts ++ [_])[k + 1]? = some start at here
  rcases Nat.lt_or_ge (k + 1) w.starts.length with before | after
  · rw [List.getElem?_append_left before] at here
    exact lawful.starts k start here
  · obtain ⟨many,rfl⟩ : k + 1 = w.starts.length ∧ start = ⟨w.counted,w.last_counted,w.rounds.length⟩ := by
      rw [List.getElem?_append_right after,List.getElem?_singleton] at here
      split at here
      · cases here
        exact ⟨by omega,rfl⟩
      · cases here
    have after_first : l.first = false := by
      by_contra first
      have := anchored.none_yet (by simpa using first)
      simp [this] at many
    obtain ⟨last,found,_,since,difference⟩ := guard_difference lawful shown anchored after_first
    rw [starts_iff after_first,difference] at go
    refine ⟨?_,last,found,?_⟩
    · show w.rounds.length = k + 1
      rw [many,anchored.rounds]
    · show w.counted > last + SYNC_PERIOD_NS.toNat
      omega

/-! ### Entering a block -/

theorem enter_test {g : Globals} (lawful : Lawful w) (shown : l.ts = w.time.shown)
    (anchored : Anchored (SYNC_PERIOD_NS.toNat + 2^32 + 2^32) l w) :
    Lawful (enter (.test g l) w) ∧ Knows (.test g l) (enter (.test g l) w) := by
  by_cases first : l.first = true
  · simp only [enter,first,↓reduceIte]
    exact ⟨lawful,shown,anchored⟩
  · have after_first : l.first = false := by simpa using first
    obtain ⟨last,here,_,since,difference⟩ := guard_difference lawful shown anchored after_first
    simp only [enter,after_first,Bool.false_eq_true,↓reduceIte]
    refine ⟨⟨lawful.counts,lawful.offset,lawful.readings,?_,lawful.starts⟩,shown,?_⟩
    · intro g member
      rcases List.mem_append.mp member with before | newest
      · exact lawful.guards g before
      · obtain rfl := List.mem_singleton.mp newest
        exact ⟨last,here,since,difference⟩
    · exact ⟨anchored.rounds,anchored.none_yet,anchored.last⟩

/-- An adjustment leaves the offset between the host and `ts_ns` at the start of the round. -/
theorem lawful_adjust (lawful : Lawful w) (waiting : Waiting l w) :
    Lawful { w with
      time := iep_adj_time w.time l.ts l.host_ts
      rounds := w.rounds ++ [⟨l.host_ts,w.synced_ts_ns⟩]
      last_counted := none } := by
  refine ⟨lawful.counts,?_,?_,lawful.guards,lawful.starts⟩
  · intro round current
    rw [List.getLast?_concat,Option.some.injEq] at current
    subst current
    show (iep_adj_time w.time l.ts l.host_ts).offset.toUInt64 = l.host_ts - w.synced_ts_ns
    simp only [iep_adj_time,UInt64.toUInt64_toInt64]
    rw [waiting.synced]
    grind
  · intro reading member k many
    obtain ⟨round,here,continues⟩ := lawful.readings reading member k many
    have inside : k < w.rounds.length := (List.getElem?_eq_some_iff.mp here).1
    exact ⟨round,by rw [List.getElem?_append_left inside]; exact here,continues⟩

/-- The first reading after an adjustment becomes `last_ts`. -/
theorem anchored_adjusted (lawful : Lawful w) (rounds : w.starts.length = w.rounds.length) (after_first : l.first = false)
    (fresh : w.last_counted = none) (iep_cnt : UInt32) :
    Anchored SYNC_PERIOD_NS.toNat { l with last_ts := (w.read iep_cnt).time.shown } (w.read iep_cnt) := by
  refine ⟨rounds,fun first => ?_,fun _ => ⟨(w.read iep_cnt).counted,?_,?_,Nat.le_refl _,Nat.le_add_right _ _⟩⟩
  · exact absurd (after_first.symm.trans first) (by simp)
  · show some (w.last_counted.getD _) = _
    rw [fresh]
    rfl
  · show (w.read iep_cnt).time.shown = _
    rw [iep_time.shown,(lawful_read lawful iep_cnt).counts]

/-! ### The code -/

/-- What is left to do, in a state where the access before it has been made. -/
def After (p : Prog Access Access.Answer Block) (w : World) : Prop :=
  Lawful (system.settle p w) ∧ clockOutline.Sat () p w

theorem after_enter {b : Block} (entered : Lawful (enter b w) ∧ Knows b (enter b w)) : After (.ret b) w := entered

theorem after_access {a : Access} {f : a.Answer → Prog Access Access.Answer Block} (lawful : Lawful w)
    (next : ∀ input r t, act a input w = some (r,t) → After (f r) t) : After (.access a f) w := by
  refine ⟨lawful,?_⟩
  rintro _ input r t rfl _ acted
  obtain ⟨lawful',sat⟩ := next input r t acted
  exact ⟨lawful',trivial,sat⟩

theorem after_silent {a : Access} {f : a.Answer → Prog Access Access.Answer Block}
    (silent : ∀ {input r t}, act a input w = some (r,t) → t = w) (lawful : Lawful w) (next : ∀ r, After (f r) w) :
    After (.access a f) w := by
  apply after_access lawful
  intro input r t acted
  rw [silent acted]
  exact next r

theorem after_halt {f : Unit → Prog Access Access.Answer Block} (lawful : Lawful w) : After (.access Access.halt f) w :=
  after_access lawful (fun _ _ _ acted => by cases acted)

theorem after_read {f : UInt64 → Prog Access Access.Answer Block} (lawful : Lawful w)
    (next : ∀ iep_cnt, Lawful (w.read iep_cnt) → After (f (w.read iep_cnt).time.shown) (w.read iep_cnt)) :
    After (.access Access.iep_get_time f) w := by
  apply after_access lawful
  intro input r t acted
  cases acted
  exact next input.iep_cnt (lawful_read lawful input.iep_cnt)

/-- A call on a ring buffer. -/
theorem after_ring {α : Type} {inj : Rbuffer.Access → Access} {answer : ∀ a, (inj a).Answer → a.Answer}
    {f : α → Prog Access Access.Answer Block} (p : Rbuffer.RingProg α) (more : p.isAccess = true)
    (silent : ∀ a {input r t}, act (inj a) input w = some (r,t) → t = w) (lawful : Lawful w)
    (next : ∀ v, After (f v) w) : After (p.embed inj answer >>= f) w := by
  refine ⟨?_,clockOutline.sat_open (fun w' => w' = w) ?_ ?_ ?_ p more rfl⟩
  · rw [system.settle_of_isAccess (Prog.isAccess_bind f (by rwa [Prog.isAccess_embed]))]
    exact lawful
  · rintro _ _ rfl rfl _
    rfl
  · rintro a input _ r t rfl lawful acted
    obtain rfl := silent a acted
    exact ⟨rfl,lawful,trivial⟩
  · rintro v a input _ r t rfl _ acted
    obtain rfl := silent a acted
    exact ⟨(next v).1,trivial,(next v).2⟩

/-- The pin is read, and the clock is read at most once. -/
theorem after_check {g : Globals} {f : Globals → Prog Access Access.Answer Block} (lawful : Lawful w)
    (quiet : ∀ g, After (f g) w) (read : ∀ g iep_cnt, Lawful (w.read iep_cnt) → After (f g) (w.read iep_cnt)) :
    After (check_input_pin g >>= f) w := by
  simp only [check_input_pin,Prog.call_bind,Prog.access_bind]
  apply after_silent (fun acted => by cases acted; rfl) lawful
  intro pin
  split
  · split
    · apply after_read lawful
      intro iep_cnt lawful'
      change After (onSend _ >>= _ >>= f) _
      rw [Prog.bind_assoc]
      apply after_ring _ rfl (fun a _ _ _ acted => by cases acted; rfl) lawful'
      intro status
      apply after_silent (fun acted => by cases acted; rfl) lawful'
      exact fun _ => read _ iep_cnt lawful'
    · exact quiet g
  · split
    · exact quiet _
    · exact quiet g

variable {g : Globals}

theorem last_check_after (lawful : Lawful w) (anchored : Anchored SYNC_PERIOD_NS.toNat l w) :
    After (last_check g l) w := by
  apply after_check lawful
  · exact fun _ => after_enter ⟨lawful,anchored_mono anchored⟩
  · exact fun _ iep_cnt lawful' => after_enter ⟨lawful',anchored_read anchored iep_cnt⟩

theorem poll_after (lawful : Lawful w) (waiting : Waiting l w) : After (poll g l) w := by
  apply after_ring _ rfl (fun a _ _ _ acted => by cases acted; rfl) lawful
  rintro ⟨host_ts,status⟩
  apply after_check lawful
  · exact fun _ => after_enter ⟨lawful,waiting.rounds,waiting.after_first,waiting.synced⟩
  · exact fun _ iep_cnt lawful' => after_enter ⟨lawful',waiting.rounds,waiting.after_first,waiting.synced⟩

theorem main_after (lawful : Lawful w) (none_yet : w.rounds = [] ∧ w.starts = []) : After (body .main) w := by
  obtain ⟨no_rounds,no_starts⟩ := none_yet
  apply after_ring _ rfl (fun a _ _ _ acted => by cases acted; rfl) lawful
  intro _
  apply after_access lawful
  intro input r t acted
  cases acted
  refine after_enter ⟨⟨rfl,?_,lawful.readings,lawful.guards,lawful.starts⟩,?_,fun _ => no_starts,nofun⟩
  · intro round current
    simp [enter,no_rounds] at current
  · simp [enter,no_rounds,no_starts]

theorem top_after (lawful : Lawful w) (anchored : Anchored (SYNC_PERIOD_NS.toNat + 2^32) l w) :
    After (body (.top g l)) w := by
  simp only [body]
  split
  · apply after_read lawful
    intro iep_cnt lawful'
    have read := anchored_read anchored iep_cnt
    exact after_enter (enter_test lawful' rfl ⟨read.rounds,read.none_yet,read.last⟩)
  · apply after_access lawful
    intro input r t acted
    cases acted
    have lawful' : Lawful { w with regs := DISABLE_IEP_TMR w.regs } :=
      ⟨lawful.counts,lawful.offset,lawful.readings,lawful.guards,lawful.starts⟩
    apply after_silent (fun acted => by cases acted; rfl) lawful'
    intro _
    exact after_halt lawful'

theorem test_after (lawful : Lawful w) (shown : l.ts = w.time.shown)
    (anchored : Anchored (SYNC_PERIOD_NS.toNat + 2^32 + 2^32) l w) : After (body (.test g l)) w := by
  by_cases go : starts l = true
  · simp only [body,go,↓reduceIte]
    apply after_access lawful
    intro input r t acted
    cases acted
    have started := lawful_start lawful shown anchored go
    apply after_silent (fun acted => by cases acted; rfl) started
    intro _
    apply after_read started
    intro iep_cnt lawful'
    refine after_enter ⟨⟨lawful'.counts,lawful'.offset,lawful'.readings,lawful'.guards,lawful'.starts⟩,?_,rfl,rfl⟩
    show (w.starts ++ [_]).length = w.rounds.length + 1
    rw [List.length_append,anchored.rounds,List.length_singleton]
  · simp only [body,if_neg go]
    exact last_check_after lawful (anchored_stays lawful shown anchored go)

theorem polled_after (lawful : Lawful w) (waiting : Waiting l w) : After (body (.polled g l)) w := by
  by_cases again : l.status ≠ 0
  · simp only [body,if_pos again]
    exact poll_after lawful waiting
  · simp only [body,if_neg again]
    apply after_access lawful
    intro input r t acted
    cases acted
    have adjusted := lawful_adjust lawful waiting
    apply after_read adjusted
    intro iep_cnt lawful'
    refine after_enter ⟨lawful',anchored_adjusted adjusted ?_ waiting.after_first rfl iep_cnt⟩
    show w.starts.length = (w.rounds ++ [_]).length
    rw [waiting.rounds,List.length_append,List.length_singleton]

theorem bodies_proved : clockOutline.Proved := by
  intro _ b w lawful knows
  cases b with
  | main => exact (main_after lawful knows).2
  | top g l => exact (top_after lawful knows).2
  | test g l => exact (test_after lawful knows.1 knows.2).2
  | poll g l => exact (poll_after lawful knows).2
  | polled g l => exact (polled_after lawful knows).2
  | adjusted g l => exact (last_check_after lawful knows).2
  | halted => exact (after_halt lawful).2

theorem run_lawful (time : iep_time) (regs : iep_regs) (schedule : List (Unit × Input)) :
    Lawful (system.run (system.start (initial time regs) (fun _ => .main)) schedule).shared := by
  have start_lawful : Lawful (initial time regs) := ⟨UInt64.ofNat_toNat.symm,nofun,nofun,nofun,nofun⟩
  refine (clockOutline.sound bodies_proved start_lawful ?_ schedule).inv
  exact fun _ => ⟨rfl,rfl⟩

/-- Along every run each round after the first is started on time, the guard sees
    the time since `last_ts`, and each reading continues the time of the host from
    the last round. -/
theorem rounds_keep_period (time : iep_time) (regs : iep_regs) (schedule : List (Unit × Input)) :
    let w := (system.run (system.start (initial time regs) (fun _ => .main)) schedule).shared
    w.time.ts_ns = UInt64.ofNat w.counted ∧ (∀ k start, w.starts[k + 1]? = some start → OnTime (k + 1) start) ∧
      (∀ g ∈ w.guards, Kept g) ∧ ∀ reading ∈ w.readings, Continues w.rounds reading :=
  have lawful := run_lawful time regs schedule
  ⟨lawful.counts,lawful.starts,lawful.guards,lawful.readings⟩

end NeslPru.MeasureSyncTime
