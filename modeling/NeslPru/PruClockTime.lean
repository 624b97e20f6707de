import NeslPru.PruClock
import NeslPru.RelyGuarantee

/-!
What the clock of `pru_clock` shows along every run, whatever the ring buffer
answers: the last setting and the counts since. The guard of a new round
compares a reading with one from before the last correction, which is when the
sync period is kept and when it is not.
-/
namespace NeslPru.PruClockTime
open NeslPru.Access NeslPru.RelyGuarantee NeslPru.Counter NeslPru.HostQot NeslPru.PruTime NeslPru.PruTimeExact NeslPru.PruClock
set_option linter.unusedSimpArgs false

theorem shown_add (s : Setting) (m n : Nat) : s.shown n = s.shown m + UInt64.ofInt (5 * ((n : Int) - m)) := by
  rw [Setting.shown,Setting.shown,← UInt64.ofInt_add]
  congr 1
  omega

theorem shown_self (time : u64) (n : Nat) : Setting.shown ⟨time,n⟩ n = time := by
  simp [Setting.shown,ofInt_toNat]

/-- The clock runs on a setting and has last been read at a count. -/
structure Runs (time : pru_time Nat) (s : Setting) (count : Nat) : Prop where
  since : s.count ≤ count
  tracks : ∃ e : Exact, e.mult = 5 ∧ e.shift = 0 ∧ Tracks id 32 e time count ∧
    ∀ n, s.count ≤ n → e.origin ≤ n → UInt64.ofInt (e.time n) = s.shown n

variable {time : pru_time Nat} {s : Setting} {l : Locals} {h : History} {count : Nat}

theorem runs_init (iep_cnt : UInt32) (count : Nat) :
    Runs (init_pru_time 5 0 32 read_cc none iep_cnt count).2 ⟨iep_cnt.toUInt64,count⟩ count := by
  refine ⟨Nat.le_refl _,_,rfl,rfl,iep_tracks iep_cnt count,?_⟩
  intro n (later : count ≤ n) _
  simp only [Exact.time,scaled,Setting.shown,UInt32.toNat_toUInt64,Nat.pow_zero,Nat.div_one]
  congr 1
  omega

/-- A reading shows the setting at its count. -/
theorem runs_read (runs : Runs time s count) {n : Nat} (within : Within (2^32) count n) :
    (read_pru_time time n).1 = s.shown n ∧ Runs (read_pru_time time n).2 s n := by
  obtain ⟨since,e,mult,shift,tracks,shows⟩ := runs
  obtain ⟨shown,tracks'⟩ := read_tracks tracks within
  have later : s.count ≤ n := since.trans within.1
  refine ⟨?_,later,e,mult,shift,tracks',shows⟩
  rw [shown]
  exact shows n later (tracks.started.trans within.1)

/-- Setting the clock from what it showed at count `t1` to `ts_host` makes it
    show `ts_host` there. -/
theorem runs_adjust (runs : Runs time s count) {t1 : Nat} (since : s.count ≤ t1) (before : t1 ≤ count) (ts_host : u64)
    (w : Nat) : Runs (adj_pru_time time (s.shown t1) ts_host w).2.1 ⟨ts_host,t1⟩ count := by
  obtain ⟨_,e,mult,shift,tracks,shows⟩ := runs
  refine ⟨before,e.adjust (ts_host.toNat - (s.shown t1).toNat),mult,shift,
    adj_tracks tracks (s.shown t1) ts_host w,?_⟩
  intro n later started
  have same := shows n (since.trans later) started
  rw [Exact.adjust_time,UInt64.ofInt_add,same,ofInt_difference,shown_add s t1 n,shown_add _ t1 n,shown_self]
  generalize UInt64.ofInt (5 * ((n : Int) - t1)) = elapsed
  grind

/-- What the record of the PRU says of the clock. -/
structure Timed (h : History) : Prop where
  stores : ∀ st ∈ h.stores, ∀ k, st.adjusted = k + 1 → ∃ r, h.rounds[k]? = some r ∧ st.value = r.shown st.count
  guards : ∀ g ∈ h.guards, g.ts - g.last_ts = UInt64.ofInt (5 * ((g.count : Int) - g.started) + g.correction) ∧
    g.starts = (g.ts - g.last_ts > SYNC_PERIOD_NS : Bool)

/-- Outside of a round: `last_ts` is what the last setting gives to the start of
    the last round, but for the correction. -/
def Anchored (l : Locals) (h : History) : Prop :=
  l.first = false → h.current.shown h.started = l.last_ts + UInt64.ofInt h.correction

/-- Inside of a round. -/
structure Waiting (l : Locals) (ts_pru : u64) (h : History) : Prop where
  runs : Runs l.time h.current h.count
  last : l.last_ts = h.current.shown h.started
  synced : ts_pru = h.current.shown h.synced
  since : h.current.count ≤ h.synced
  before : h.synced ≤ h.count

/-- What the PRU knows at the start of a block. -/
def Knows : Block → History → Prop
  | .top l, h => Runs l.time h.current h.count ∧ Anchored l h
  | .test l ts, h => Runs l.time h.current h.count ∧ ts = h.current.shown h.count ∧
      (starts l ts = true → h.started = h.count) ∧ (starts l ts = false → Anchored l h)
  | .pulse l ts_pru, h => Waiting l ts_pru h
  | .poll l ts_pru, h => Waiting l ts_pru h
  | .polled l ts_pru _, h => Waiting l ts_pru h
  | .adjusted l _, h => Runs l.time h.current h.count ∧ Anchored l h
  | .event, _ => False
  | .wrote _ _, _ => False

def timeOutline (ringAct : RingAct) : Outline Party ((system ringAct).limited Near) where
  inv w := Timed w.pru
  rely
    | .pru, w, w' => w'.pru = w.pru
    | .host, _, _ => True
  guar
    | .pru, _, _, _ => True
    | .host, _, w, w' => w'.pru = w.pru
  pre
    | .pru, b, w => Knows b w.pru
    | .host, b, _ => body b = send_pru_thread
  refl i w := by cases i <;> simp
  trans i w w' w'' := by
    cases i
    · exact fun first second => second.trans first
    · exact fun _ _ => trivial
  compat {i j a w w'} other := by
    cases i <;> cases j
    · exact absurd rfl other
    · exact fun _ => trivial
    · exact id
    · exact absurd rfl other

/-! ### What the accesses and the entries of blocks do to the record -/

theorem enter_pru (b : Block) (w : World) : (enter b w).pru = record b w.pru := by
  cases b <;> simp only [enter,record]
  all_goals split <;> rfl

theorem current_last {k : Nat} (many : h.rounds.length = k + 1) : h.rounds[k]? = some h.current := by
  have last : h.rounds.getLast? = some h.current := by
    rw [History.current,List.getLastD_eq_getLast?,List.getLast?_eq_some_getLast (by intro none; simp [none] at many)]
    rfl
  rw [← last,List.getLast?_eq_getElem?,many]
  rfl

theorem current_adjusted (h : History) (ts_host : u64) : (record (.adjusted l ts_host) h).current = ⟨ts_host,h.synced⟩ := by
  simp [record,History.current]

theorem timed_count (timed : Timed h) (n : Nat) : Timed { h with count := n } := ⟨timed.stores,timed.guards⟩

theorem timed_store (timed : Timed h) :
    Timed { h with stores := h.stores ++ [⟨h.current.shown h.count,h.count,h.rounds.length⟩] } := by
  refine ⟨?_,timed.guards⟩
  intro st member k after
  rcases List.mem_append.mp member with before | last
  · exact timed.stores st before k after
  · obtain rfl := List.mem_singleton.mp last
    exact ⟨h.current,current_last after,rfl⟩

theorem timed_adjusted (timed : Timed h) (ts_host : u64) : Timed (record (.adjusted l ts_host) h) := by
  refine ⟨?_,timed.guards⟩
  intro st member k after
  obtain ⟨r,here,shown⟩ := timed.stores st member k after
  refine ⟨r,?_,shown⟩
  have inside : k < h.rounds.length := (List.getElem?_eq_some_iff.mp here).1
  simpa [record,List.getElem?_append_left inside] using here

/-- Evaluating the guard outside of a round. -/
theorem timed_test {ts : u64} (timed : Timed h) (shown : ts = h.current.shown h.count) (anchored : Anchored l h) :
    Timed (record (.test l ts) h) := by
  refine ⟨timed.stores,?_⟩
  intro g member
  by_cases first : l.first = true
  · simp only [record,first,↓reduceIte] at member
    exact timed.guards g member
  · have after_first : l.first = false := by simpa using first
    simp only [record,after_first,Bool.false_eq_true,↓reduceIte] at member
    rcases List.mem_append.mp member with before | last
    · exact timed.guards g before
    · obtain rfl := List.mem_singleton.mp last
      refine ⟨?_,by simp [starts,after_first]⟩
      show ts - l.last_ts = _
      rw [shown,shown_add _ h.started,anchored after_first,UInt64.ofInt_add]
      generalize UInt64.ofInt (5 * ((h.count : Int) - h.started)) = elapsed
      grind

theorem knows_test {ts : u64} (runs : Runs l.time h.current h.count) (shown : ts = h.current.shown h.count)
    (anchored : Anchored l h) : Knows (.test l ts) (record (.test l ts) h) := by
  refine ⟨runs,shown,?_,?_⟩
  · intro go
    simp [record,go]
  · intro stay
    simpa [record,stay,Anchored,History.current] using anchored

/-- A round sets the clock to the time of the host, and `last_ts` stays behind
    by the correction. -/
theorem knows_adjusted {ts_pru ts_host : u64} (waiting : Waiting l ts_pru h) (w : Nat) :
    Knows (.adjusted { l with time := (adj_pru_time l.time ts_pru ts_host w).2.1 } ts_host)
      (record (.adjusted l ts_host) h) := by
  obtain ⟨runs,last,rfl,since,before⟩ := waiting
  constructor
  · rw [current_adjusted]
    exact runs_adjust runs since before ts_host w
  · intro _
    rw [current_adjusted]
    show Setting.shown ⟨ts_host,h.synced⟩ h.started = l.last_ts +
      UInt64.ofInt (ts_host.toNat - (h.current.shown h.synced).toNat)
    rw [last,ofInt_difference,shown_add h.current h.synced h.started,shown_add _ h.synced h.started,
      shown_self]
    generalize UInt64.ofInt (5 * ((h.started : Int) - h.synced)) = elapsed
    grind

/-! ### The blocks of the PRU -/

variable {ringAct : RingAct} {w : World}

/-- Reading the counter. -/
theorem sat_iep_cnt {f : Nat → Prog Access Access.Answer Block}
    (next : ∀ n t, Within (2^32) w.pru.count n → t.pru = { w.pru with count := n } → Timed t.pru →
      Timed (((system ringAct).limited Near).settle (f n) t).pru ∧ (timeOutline ringAct).Sat .pru (f n) t) :
    (timeOutline ringAct).Sat .pru (.access Access.iep_cnt f) w := by
  intro w' ⟨input,near⟩ r t same (timed : Timed w'.pru) acted
  cases acted
  have near : input.elapsed < 2^32 := near
  have here : w'.pru = w.pru := same
  rw [← here] at next
  obtain ⟨inv,sat⟩ := next (w'.pru.count + input.elapsed) { w' with pru.count := w'.pru.count + input.elapsed }
    ⟨by omega,by omega⟩ rfl (timed_count timed _)
  exact ⟨inv,trivial,sat⟩

/-- Storing what the clock shows. -/
theorem sat_store_ts_mem {ts : u64} {f : Unit → Prog Access Access.Answer Block}
    (shown : ts = w.pru.current.shown w.pru.count)
    (next : ∀ stores t, t.pru = { w.pru with stores := stores } → Timed t.pru →
      Timed (((system ringAct).limited Near).settle (f ()) t).pru ∧ (timeOutline ringAct).Sat .pru (f ()) t) :
    (timeOutline ringAct).Sat .pru (.access (Access.store_ts_mem ts) f) w := by
  intro w' input r t same (timed : Timed w'.pru) acted
  have here : w'.pru = w.pru := same
  rw [← here] at next shown
  subst shown
  cases acted
  obtain ⟨inv,sat⟩ := next _ { w' with pru.stores := w'.pru.stores ++
    [⟨w'.pru.current.shown w'.pru.count,w'.pru.count,w'.pru.rounds.length⟩] } rfl (timed_store timed)
  exact ⟨inv,trivial,sat⟩

/-- Entering a block of the PRU. -/
theorem sat_enter {b : Block} {h' : History} (here : w.pru = h') (timed : Timed (record b h'))
    (knows : Knows b (record b h')) :
    Timed (((system ringAct).limited Near).settle (.ret b) w).pru ∧ (timeOutline ringAct).Sat .pru (.ret b) w := by
  subst here
  have entered := enter_pru b w
  constructor
  · show Timed (enter b w).pru
    rw [entered]
    exact timed
  · show Knows b (enter b w).pru
    rw [entered]
    exact knows

theorem top_sat (knows : Knows (.top l) w.pru) :
    (timeOutline ringAct).Sat .pru (body (.top l)) w := by
  obtain ⟨runs,anchored⟩ := knows
  apply sat_iep_cnt
  intro n t within here timed'
  obtain ⟨shown,runs'⟩ := runs_read runs within
  rw [here] at timed'
  have anchored' : Anchored { l with time := (read_pru_time l.time n).2 } { w.pru with count := n } := anchored
  exact sat_enter here (timed_test timed' shown anchored') (knows_test runs' shown anchored')

/-- The end of the loop. -/
theorem store_time_sat (runs : Runs l.time w.pru.current w.pru.count) (anchored : Anchored l w.pru) :
    (timeOutline ringAct).Sat .pru (store_time l) w := by
  apply sat_iep_cnt
  intro n t within here timed
  obtain ⟨shown,runs'⟩ := runs_read runs within
  refine ⟨timed,sat_store_ts_mem (by rw [here]; exact shown) ?_⟩
  intro stores t' here' timed'
  rw [here] at here'
  rw [here'] at timed'
  exact sat_enter here' timed' ⟨runs',anchored⟩

theorem test_sat {ts : u64} (knows : Knows (.test l ts) w.pru) :
    (timeOutline ringAct).Sat .pru (body (.test l ts)) w := by
  obtain ⟨runs,shown,started,anchored⟩ := knows
  simp only [body]
  split
  · rename_i go
    apply sat_iep_cnt
    intro n t within here timed
    obtain ⟨shown',runs'⟩ := runs_read runs within
    rw [here] at timed
    refine sat_enter here ⟨timed.stores,timed.guards⟩ ⟨runs',?_,shown',runs.since.trans within.1,Nat.le_refl _⟩
    show ts = w.pru.current.shown w.pru.started
    rw [started go]
    exact shown
  · rename_i stay
    exact store_time_sat runs (anchored (by simpa using stay))

theorem pulse_sat {ts_pru : u64} (waiting : Waiting l ts_pru w.pru) :
    (timeOutline ringAct).Sat .pru (body (.pulse l ts_pru)) w := by
  intro w₁ input r t same (timed : Timed w₁.pru) acted
  cases acted
  refine ⟨timed,trivial,?_⟩
  intro w₂ input₂ r₂ t₂ same₂ timed₂ acted₂
  cases acted₂
  refine ⟨timed₂,trivial,?_⟩
  show Waiting l ts_pru w₂.pru
  rw [show w₂.pru = w₁.pru from same₂,show w₁.pru = w.pru from same]
  exact waiting

theorem poll_sat {ts_pru : u64} (waiting : Waiting l ts_pru w.pru) :
    (timeOutline ringAct).Sat .pru (body (.poll l ts_pru)) w := by
  refine (timeOutline ringAct).sat_open (fun w => Waiting l ts_pru w.pru) ?_ ?_ ?_ _ rfl waiting
  · intro w w' waiting same _
    rwa [show w'.pru = w.pru from same]
  · intro a input w r t waiting timed acted
    cases acted
    exact ⟨waiting,timed,trivial⟩
  · rintro ⟨data,status⟩ a input w r t waiting (timed : Timed w.pru) acted
    have here : t.pru = w.pru := by cases acted; rfl
    have polled : Waiting { l with status := status.getD l.status } ts_pru w.pru :=
      ⟨waiting.runs,waiting.last,waiting.synced,waiting.since,waiting.before⟩
    have entered : _ ∧ (timeOutline ringAct).Sat .pru
        (.ret (.polled { l with status := status.getD l.status } ts_pru data)) t := sat_enter here timed polled
    exact ⟨entered.1,trivial,entered.2⟩

theorem polled_sat {ts_pru data : u64} (waiting : Waiting l ts_pru w.pru) :
    (timeOutline ringAct).Sat .pru (body (.polled l ts_pru data)) w := by
  apply sat_iep_cnt
  intro n t within here timed
  obtain ⟨shown,runs⟩ := runs_read waiting.runs within
  refine ⟨timed,sat_store_ts_mem (by rw [here]; exact shown) ?_⟩
  intro stores t' here' timed'
  rw [here] at here'
  rw [here'] at timed'
  have read : Waiting { l with time := (read_pru_time l.time n).2 } ts_pru { w.pru with count := n, stores := stores } :=
    ⟨runs,waiting.last,waiting.synced,waiting.since,waiting.before.trans within.1⟩
  by_cases again : l.status ≠ 0
  · rw [if_pos again]
    exact sat_enter here' timed' read
  · rw [if_neg again]
    exact sat_enter here' (timed_adjusted timed' data) (knows_adjusted read n)

/-- The host does nothing to the record of the PRU. -/
theorem host_sat : (timeOutline ringAct).Sat .host send_pru_thread w := by
  intro w₁ input result t _ (timed : Timed w₁.pru) acted
  have here : t.pru = w₁.pru := by
    obtain ⟨answer,_,same⟩ := Option.map_eq_some_iff.mp acted
    cases same
    rfl
  have timed_t : Timed t.pru := by rwa [here]
  refine ⟨timed_t,here,?_⟩
  refine (timeOutline ringAct).sat_open (fun _ => True) (fun _ _ _ _ _ => trivial) ?_ ?_ _ rfl trivial
  · intro a input w r t _ timed acted
    cases acted
    exact ⟨trivial,timed,rfl⟩
  · intro status a input w r t _ (timed : Timed w.pru) acted
    cases acted
    have same : (enter (.wrote (qot_read_event_ts result 0).1 status) { w with rbuf := (ringAct a input w.rbuf).2 }).pru =
        w.pru := enter_pru _ _
    refine ⟨?_,same,rfl⟩
    show Timed (enter (.wrote (qot_read_event_ts result 0).1 status) _).pru
    rw [same]
    exact timed

theorem bodies_proved : (timeOutline ringAct).Proved := by
  intro i b w timed knows
  cases i with
  | pru =>
    cases b with
    | top l => exact top_sat knows
    | test l ts => exact test_sat knows
    | pulse l ts_pru => exact pulse_sat knows
    | poll l ts_pru => exact poll_sat knows
    | polled l ts_pru data => exact polled_sat knows
    | adjusted l ts_host => exact store_time_sat knows.1 knows.2
    | event => exact knows.elim
    | wrote nano_ts status => exact knows.elim
  | host =>
    show (timeOutline ringAct).Sat .host (body b) w
    rw [show body b = send_pru_thread from knows]
    exact host_sat

/-- Along every run the record of the PRU is right about the clock. -/
theorem run_timed (iep_cnt : UInt32) (count : Nat) (m : Rbuffer.rbuffer) {schedule : List (Party × Input)}
    (near : ∀ move ∈ schedule, Near move.2) :
    Timed ((system ringAct).run ((system ringAct).start (initial iep_cnt count m) (first iep_cnt count)) schedule).shared.pru := by
  have start_timed : Timed (initial iep_cnt count m).pru := ⟨nofun,nofun⟩
  obtain ⟨limited,same⟩ := (system ringAct).exists_limited
    ((system ringAct).start (initial iep_cnt count m) (first iep_cnt count)) near
  rw [← same]
  refine ((timeOutline ringAct).sound bodies_proved start_timed ?_ limited).inv
  intro i
  cases i with
  | pru => exact ⟨runs_init iep_cnt count,nofun⟩
  | host => rfl

/-! ### The sync period -/

/-- The counter time since the last round was started, in nanoseconds. -/
def elapsed (g : Guard) : Int := 5 * ((g.count : Int) - g.started)

/-- A round is started only if more than the period has passed since the last
    one, and the difference of the readings is the time between them. -/
def Kept (g : Guard) : Prop :=
  (g.starts = true → elapsed g > SYNC_PERIOD_NS.toNat) ∧ ((g.ts - g.last_ts).toNat : Int) = elapsed g + g.correction

/-- The last correction has neither taken the difference out of its range nor
    across the period too early. -/
def Steady (g : Guard) : Prop :=
  0 ≤ elapsed g + g.correction ∧ elapsed g + g.correction < 2^64 ∧
    (elapsed g ≤ SYNC_PERIOD_NS.toNat → elapsed g + g.correction ≤ SYNC_PERIOD_NS.toNat)

instance (g : Guard) : Decidable (Kept g) := inferInstanceAs (Decidable (_ ∧ _))
instance (g : Guard) : Decidable (Steady g) := inferInstanceAs (Decidable (_ ∧ _))

theorem kept_iff {g : Guard} (timed : Timed h) (member : g ∈ h.guards) : Kept g ↔ Steady g := by
  obtain ⟨difference,guard⟩ := timed.guards g member
  have wrapped : ((g.ts - g.last_ts).toNat : Int) = (elapsed g + g.correction) % 2^64 := by
    rw [difference,toNat_ofInt]
    rfl
  have go : g.starts = true ↔ SYNC_PERIOD_NS.toNat < (g.ts - g.last_ts).toNat := by
    rw [guard,decide_eq_true_eq]
    exact UInt64.lt_iff_toNat_lt
  rw [Kept,Steady,go]
  constructor
  · rintro ⟨late,exact_difference⟩
    omega
  · rintro ⟨forward,small,in_time⟩
    omega

/-- Ten counts between the readings, and a ring buffer that holds `ts_host`. -/
def ts_host : u64 := 1487137387350957509

def firstCorrection : Input where
  elapsed := 10
  read := ⟨sizeof_event,⟨⟨0,0⟩,0⟩⟩
  event := ⟨⟨0,0⟩,0⟩
  answers
    | .load_c => (0 : UInt16)
    | .load_p => (3 : UInt16)
    | .load_buffer i => if i = 1 then ts_host.toUInt32 else (ts_host >>> 32).toUInt32
    | .store_c _ => ()
    | .store_p _ => ()
    | .store_buffer _ _ => ()
    | .memset => ()

end NeslPru.PruClockTime
