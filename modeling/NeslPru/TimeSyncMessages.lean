import NeslPru.TimeSyncProgram

/-!
What the messages of `time_sync` say, along every run of the whole program. The
channel to the host and the synchronisation of the clock are those of
`TimeSyncReceive` and `PruClockSync`, each on its part of the world, and neither
ring buffer is ever full. So the PRU makes six rounds and sends thirty messages,
each with the time of the host as the last round has taken it over.
-/
namespace NeslPru.TimeSyncMessages
open NeslPru.Access NeslPru.RelyGuarantee NeslPru.Counter NeslPru.HostQot NeslPru.PruTime NeslPru.RbufferQueue
open NeslPru.Rbuffer (rbuffer memory init_rbuffer rbuf_read_uint64 rbuf_write_uint64)
open NeslPru.RbufferAtomic NeslPru.RbufferChannel NeslPru.TimeSyncProgram
open NeslPru.PruClock (History Setting Store)
open NeslPru.PruClockTime (Runs runs_init runs_read runs_adjust)
open NeslPru.PruClockSync (View view Idle Awaits)
set_option linter.unusedSimpArgs false

variable {w w' : World}

/-- The messages, the ring buffer that they go through and the interrupt. -/
def channel (w : World) : TimeSyncReceive.World where
  rbuf := w.from_pru
  send_to_pru := w.sync.rbuf
  exec := w.exec
  thread := w.receive_thread
  pending := w.evtout_0
  ready := w.ready
  owed := w.owed
  draining := w.draining
  accepted := w.messages.map Store.value
  delivered := w.printed

/-- The setting after `k` rounds. -/
def settingAfter (h : History) : Nat → Option Setting
  | 0 => some h.init
  | k + 1 => h.rounds[k]?

/-- Message `j` follows `(j + 1) / 5` rounds, and shows the setting after them. -/
structure Told (h : History) : Prop where
  values : ∀ st ∈ h.stores, ∃ s, settingAfter h st.adjusted = some s ∧ st.value = s.shown st.count
  rounds : ∀ (j : Nat) (st : Store), h.stores[j]? = some st → st.adjusted = (j + 1) / 5

structure Inv (w : World) : Prop where
  channel : TimeSyncReceive.Inv (channel w)
  sync : w.exec = true → PruClockSync.Inv w.sync
  before : w.exec = false → w.receive_thread = false ∧ w.send_thread = false ∧ ∃ m, w.sync = PruClock.initial 0 0 m
  told : Told w.sync.pru
  bounded : w.messages.length ≤ 30
  unsent : w.unsent = []

/-- What the other parties may do. Before the PRU runs they do nothing. -/
def Rely : Party → World → World → Prop
  | .main, w, w' => w'.exec = w.exec ∧ (w.exec = false → w' = w)
  | .receive, w, w' => TimeSyncReceive.Rely .receive (channel w) (channel w')
  | .send, w, w' => w'.sync.taken = w.sync.taken ∧ w'.sync.sent = w.sync.sent ∧
      (w.exec = true → w'.exec = true ∧ PruClockSync.Rely .host w.sync w'.sync)
  | .pru, w, w' => w'.sync.pru = w.sync.pru ∧ view w'.sync = view w.sync ∧
      TimeSyncReceive.Rely .pru (channel w) (channel w') ∧
      (w.exec = true → w'.exec = true ∧ PruClockSync.Rely .pru w.sync w'.sync)

/-- Six rounds and thirty messages. -/
structure Finished (w : World) : Prop where
  messages : w.messages.length = 30
  rounds : w.sync.pru.rounds.length = 6
  pulses : w.sync.events.length = 6

/-- Where in its code a party makes an access. -/
def Place : Party → Access → World → Prop
  | .receive, a, w => a = .wait_evtout_0 → w.draining = false
  | .pru, a, w => (a ≠ .trig_intc 3 → w.owed = false) ∧ (a = .halt → Finished w)
  | _, _, _ => True

/-- What the PRU knows of the world. -/
structure Seen where
  ready : Bool
  owed : Bool
  pru : History
  view : View

def seen (w : World) : Seen := ⟨w.ready,w.owed,w.sync.pru,view w.sync⟩

/-- How far the PRU has come, and that it neither owes an interrupt nor waits for a timestamp. -/
structure Reached (messages rounds : Nat) (v : Seen) : Prop where
  ready : v.ready = true
  free : v.owed = false
  messages : v.pru.stores.length = messages
  rounds : v.pru.rounds.length = rounds
  idle : Idle v.view

/-- The clock runs on the last setting. -/
def Running (l : Locals) (v : Seen) : Prop := Runs l.time v.pru.current v.pru.count

/-- Inside of a round: the clock is read, and not yet set. -/
structure Asking (l : Locals) (i : Nat) (ts_pru : u64) (v : Seen) : Prop where
  running : Running l v
  ready : v.ready = true
  free : v.owed = false
  turn : i < 30 ∧ i % 5 = 0
  messages : v.pru.stores.length = 29 - i
  rounds : v.pru.rounds.length = (29 - i) / 5
  shown : ts_pru = v.pru.current.shown v.pru.synced
  since : v.pru.current.count ≤ v.pru.synced
  before : v.pru.synced ≤ v.pru.count

/-- What the PRU knows at the start of a block. -/
def Knows : Block → Seen → Prop
  | .initialised, v => Reached 0 0 v
  | .clock_set l _, v => Running l v ∧ Reached 0 0 v
  | .loop l i, v => Running l v ∧ i ≤ 30 ∧ Reached (30 - i) ((30 - i) / 5) v
  | .pulse l i ts_pru, v => Asking l i ts_pru v ∧ Idle v.view
  | .poll l i ts_pru, v => Asking l i ts_pru v ∧ Awaits v.view
  | .polled l i ts_pru data, v =>
    if l.status = 0 then
      Running { l with time := (adj_pru_time l.time ts_pru data 0).2.1 } v ∧ i < 30 ∧ Reached (29 - i) ((30 - i) / 5) v
    else Asking l i ts_pru v ∧ Awaits v.view
  | .wrote l i _ _, v => Running l v ∧ i < 30 ∧ v.owed = true ∧ Reached (30 - i) ((30 - i) / 5) { v with owed := false }
  | .halted, v => Reached 30 6 v
  | _, _ => False

/-- What a party knows at the start of a block. -/
def Pre : Party → Block → World → Prop
  | .main, .main, w => w.exec = false
  | .main, .started, _ => True
  | .main, .returned, _ => True
  | .receive, .receive_pru_thread, w => w.draining = false
  | .receive, .woken, w => TimeSyncReceive.Draining (channel w)
  | .receive, .drain, w => TimeSyncReceive.Draining (channel w)
  | .receive, .read _ status, w => w.ready = true ∧ w.draining = decide (status = 0)
  | .receive, .returned, _ => True
  | .send, .send_pru_thread, w => w.sync.taken = w.sync.sent.length
  | .send, .sending _, w => w.exec = true ∧ w.sync.taken = w.sync.sent.length
  | .send, .sent _ _ _, w => w.exec = true ∧ w.sync.taken = w.sync.sent.length
  | .send, .returned, _ => True
  | .pru, .pru, w => w.owed = false ∧ w.ready = false ∧ Reached 0 0 { seen w with ready := true }
  | .pru, b, w => w.exec = true ∧ Knows b (seen w)
  | _, _, _ => False

/-- The reading of the counter is near and the read of an event is full. -/
def Usual (input : Input) : Prop := Near input ∧ Reads input

def outline : Outline Party (system.limited Usual) where
  inv := Inv
  rely := Rely
  guar i a w w' := Place i a w ∧ ∀ j, j ≠ i → Rely j w w'
  pre := Pre
  refl i w := by
    cases i with
    | main => exact ⟨rfl,fun _ => rfl⟩
    | receive => exact TimeSyncReceive.outline.refl .receive _
    | send => exact ⟨rfl,rfl,fun exec => ⟨exec,PruClockSync.syncOutline.refl .host _⟩⟩
    | pru => exact ⟨rfl,rfl,TimeSyncReceive.outline.refl .pru _,fun exec => ⟨exec,PruClockSync.syncOutline.refl .pru _⟩⟩
  trans i w w' w'' := by
    cases i with
    | main =>
      rintro ⟨exec,same⟩ ⟨exec',same'⟩
      exact ⟨exec'.trans exec,fun off => (same' (exec.trans off)).trans (same off)⟩
    | receive => exact TimeSyncReceive.outline.trans .receive
    | send =>
      rintro ⟨taken,sent,on⟩ ⟨taken',sent',on'⟩
      refine ⟨taken'.trans taken,sent'.trans sent,fun exec => ?_⟩
      obtain ⟨exec',rely⟩ := on exec
      obtain ⟨exec'',rely'⟩ := on' exec'
      exact ⟨exec'',PruClockSync.syncOutline.trans .host rely rely'⟩
    | pru =>
      rintro ⟨pru,same,rely,on⟩ ⟨pru',same',rely',on'⟩
      refine ⟨pru'.trans pru,same'.trans same,TimeSyncReceive.outline.trans .pru rely rely',fun exec => ?_⟩
      obtain ⟨exec',sync⟩ := on exec
      obtain ⟨exec'',sync'⟩ := on' exec'
      exact ⟨exec'',PruClockSync.syncOutline.trans .pru sync sync'⟩
  compat other kept := kept.2 _ (Ne.symm other)

/-- The two ring buffers as parts of the world. -/
def fromPru : Component (system.limited Usual) Rbuffer.Access.Answer rbuffer :=
  .of World.from_pru (fun w m => { w with from_pru := m }) (fun _ _ => rfl) Access.from_pru memory (fun _ _ _ => rfl)

def toPru : Component (system.limited Usual) Rbuffer.Access.Answer rbuffer :=
  .of (fun w => w.sync.rbuf) (fun w m => { w with sync.rbuf := m }) (fun _ _ => rfl) Access.to_pru memory (fun _ _ _ => rfl)

/-- An access that changes nothing. -/
theorem sat_same {i : Party} {K : World → Prop} {Q : World → Prop}
    {a : Access} {f : a.Answer → Code} (knows : K w) (stable : ∀ {w w'}, Rely i w w' → Inv w' → K w → K w')
    (place : ∀ {w}, K w → Place i a w)
    (same : ∀ {input w r t}, act a input w = some (r,t) → t = w ∧ Q w)
    (next : ∀ r t, K t → Inv t → Q t →
      (system.limited Usual).settle (f r) t = t ∧ outline.Sat i (f r) t) :
    outline.Sat i (.access a f) w := by
  intro w₁ input r t relied (inv : Inv w₁) acted
  have knows₁ := stable relied inv knows
  obtain ⟨rfl,more⟩ := same acted
  obtain ⟨settled,sat⟩ := next r t knows₁ inv more
  rw [settled]
  exact ⟨inv,⟨place knows₁,fun j _ => outline.refl j t⟩,sat⟩

/-! ### The host's `main` -/

/-- Before the PRU runs, only `main` touches the memory. -/
theorem stopped_keeps (m n : rbuffer) (inv : Inv w) (stopped : w.exec = false) :
    Inv { w with from_pru := m, sync.rbuf := n } ∧
      ∀ j, j ≠ .main → Rely j w { w with from_pru := m, sync.rbuf := n } := by
  obtain ⟨channel',others⟩ := TimeSyncReceive.stopped_keeps m n w.exec inv.channel stopped
  obtain ⟨no_receive,no_send,m',same⟩ := inv.before stopped
  refine ⟨⟨channel',fun on => absurd (stopped.symm.trans on) (by simp),?_,inv.told,inv.bounded,inv.unsent⟩,?_⟩
  · exact fun _ => ⟨no_receive,no_send,n,by rw [same]; rfl⟩
  · intro j other
    cases j with
    | main => exact absurd rfl other
    | receive => exact others .receive (by decide)
    | send => exact ⟨rfl,rfl,fun on => absurd (stopped.symm.trans on) (by simp)⟩
    | pru => exact ⟨rfl,rfl,others .pru (by decide),fun on => absurd (stopped.symm.trans on) (by simp)⟩

/-- Starting the PRU with the ring buffer to it initialised. -/
theorem exec_keeps (inv : Inv w) (stopped : w.exec = false) (ready : w.sync.rbuf = fresh) :
    Inv { w with exec := true } ∧ ∀ j, j ≠ .main → Rely j w { w with exec := true } := by
  obtain ⟨channel',others⟩ := TimeSyncReceive.stopped_keeps w.from_pru w.sync.rbuf true inv.channel stopped
  obtain ⟨_,_,m,same⟩ := inv.before stopped
  refine ⟨⟨channel',fun _ => ?_,nofun,inv.told,inv.bounded,inv.unsent⟩,?_⟩
  · show PruClockSync.Inv w.sync
    rw [same] at ready ⊢
    obtain rfl : m = fresh := ready
    exact ⟨carries_fresh,List.nil_prefix,Nat.le_refl _,Nat.le_refl _,List.nil_prefix,Nat.zero_le _,rfl⟩
  · intro j other
    cases j with
    | main => exact absurd rfl other
    | receive => exact others .receive (by decide)
    | send => exact ⟨rfl,rfl,fun on => absurd (stopped.symm.trans on) (by simp)⟩
    | pru => exact ⟨rfl,rfl,others .pru (by decide),fun on => absurd (stopped.symm.trans on) (by simp)⟩

/-- Starting and stopping threads once the PRU runs. -/
theorem flags_keep (receive send stop : Bool) (inv : Inv w) (started : w.exec = true) :
    Inv { w with receive_thread := receive, send_thread := send, stop := stop } ∧
      ∀ j, j ≠ .main → Rely j w { w with receive_thread := receive, send_thread := send, stop := stop } := by
  have off : ∀ {p : Prop}, w.exec = false → p := fun stopped => absurd (started.symm.trans stopped) (by simp)
  refine ⟨⟨?_,inv.sync,off,inv.told,inv.bounded,inv.unsent⟩,?_⟩
  · exact ⟨inv.channel.executed,inv.channel.carries,inv.channel.before,inv.channel.awake⟩
  · intro j other
    cases j with
    | main => exact absurd rfl other
    | receive => exact TimeSyncReceive.outline.refl .receive (channel w)
    | send => exact outline.refl .send w
    | pru => exact outline.refl .pru w

/-- A call of `main` that creates no thread, or that comes after the start of the PRU. -/
theorem check_sat {K : World → Prop} {f : Call} {next : Code} (knows : K w)
    (stable : ∀ {w w'}, Rely .main w w' → K w → K w')
    (quiet : ∀ {w}, K w → w.exec = true ∨ f ≠ .create_receive ∧ f ≠ .create_send)
    (keeps : ∀ {w} receive send, K w → K { w with receive_thread := receive, send_thread := send })
    (settled : ∀ t, (system.limited Usual).settle next t = t) (sat : ∀ t, K t → outline.Sat .main next t) :
    outline.Sat .main (check f next) w := by
  intro w₁ input r t relied (inv : Inv w₁) acted
  have knows₁ := stable relied knows
  have kept : Inv t ∧ (∀ j, j ≠ .main → Rely j w₁ t) ∧ K t := by
    cases acted
    rcases quiet knows₁ with started | ⟨not_receive,not_send⟩
    · obtain ⟨inv',others⟩ := flags_keep (w₁.receive_thread || (f = .create_receive && input.val.result = 0 : Bool))
        (w₁.send_thread || (f = .create_send && input.val.result = 0 : Bool)) w₁.stop inv started
      exact ⟨inv',others,keeps _ _ knows₁⟩
    · simp only [not_receive,not_send,decide_false,Bool.false_and,Bool.or_false]
      exact ⟨inv,fun j _ => outline.refl j w₁,knows₁⟩
  obtain ⟨inv',others,knows'⟩ := kept
  show Inv ((system.limited Usual).settle (if r ≠ 0 then .ret .returned else next) t) ∧
    (True ∧ ∀ j, j ≠ .main → Rely j w₁ ((system.limited Usual).settle (if r ≠ 0 then .ret .returned else next) t)) ∧
    outline.Sat .main (if r ≠ 0 then .ret .returned else next) t
  by_cases failed : r ≠ 0
  · rw [if_pos failed]
    exact ⟨inv',⟨trivial,others⟩,trivial⟩
  · rw [if_neg failed,settled]
    exact ⟨inv',⟨trivial,others⟩,sat t knows'⟩

theorem start_threads_sat (stopped : w.exec = false) (ready : w.sync.rbuf = fresh) :
    outline.Sat .main start_threads w := by
  intro w₁ input r t relied (inv : Inv w₁) acted
  cases acted
  obtain rfl := relied.2 stopped
  obtain ⟨inv',others⟩ := exec_keeps inv stopped ready
  refine ⟨inv',⟨trivial,others⟩,?_⟩
  have stable : ∀ {w w' : World}, Rely .main w w' → w.exec = true → w'.exec = true := fun relied on => relied.1.trans on
  refine check_sat (K := fun w => w.exec = true) rfl stable .inl (fun _ _ on => on) (fun _ => rfl) (fun t on => ?_)
  exact check_sat (K := fun w => w.exec = true) on stable .inl (fun _ _ on => on) (fun _ => rfl) (fun _ _ => trivial)

/-- Calls of `main` before the PRU runs. -/
theorem early_check_sat {K : World → Prop} {f : Call} {next : Code} (knows : w.exec = false ∧ K w)
    (early : f ≠ .create_receive ∧ f ≠ .create_send)
    (keeps : ∀ {w} receive send, K w → K { w with receive_thread := receive, send_thread := send })
    (settled : ∀ t, (system.limited Usual).settle next t = t) (sat : ∀ t, t.exec = false ∧ K t → outline.Sat .main next t) :
    outline.Sat .main (check f next) w := by
  refine check_sat (K := fun w => w.exec = false ∧ K w) knows ?_ (fun _ => .inr early)
    (fun receive send knows => ⟨knows.1,keeps receive send knows.2⟩) settled sat
  rintro w w' ⟨_,same⟩ ⟨stopped,here⟩
  rw [same stopped]
  exact ⟨stopped,here⟩

theorem main_sat (stopped : w.exec = false) : outline.Sat .main main w := by
  have trivially : ∀ {w : World}, w.exec = false → w.exec = false ∧ True := fun off => ⟨off,trivial⟩
  refine early_check_sat (K := fun _ => True) (trivially stopped) (by decide) (fun _ _ _ => trivial) (fun _ => rfl)
    (fun t knows => ?_)
  refine early_check_sat (K := fun _ => True) knows (by decide) (fun _ _ _ => trivial) (fun _ => rfl) (fun t knows => ?_)
  refine early_check_sat (K := fun _ => True) knows (by decide) (fun _ _ _ => trivial) (fun _ => rfl) (fun t knows => ?_)
  refine early_check_sat (K := fun _ => True) knows (by decide) (fun _ _ _ => trivial) (fun _ => rfl) (fun t knows => ?_)
  intro w₁ input r t relied (inv : Inv w₁) acted
  cases acted
  obtain rfl := relied.2 knows.1
  obtain ⟨inv',others⟩ := stopped_keeps TimeSyncReceive.zeroed TimeSyncReceive.zeroed inv knows.1
  refine ⟨inv',⟨trivial,others⟩,?_⟩
  refine outline.sat_alone (i := .main) toPru (fun w => w.exec = false) ?_ ?_ ?_ init_rbuffer rfl knows.1
    (init_rbuffer_exec TimeSyncReceive.zeroed)
  · rintro w w' stopped ⟨_,same⟩ _
    rw [same stopped]
    exact ⟨stopped,rfl⟩
  · intro a w m stopped inv
    obtain ⟨inv',others⟩ := stopped_keeps w.from_pru m inv stopped
    exact ⟨stopped,inv',trivial,others⟩
  · intro a w stopped inv
    obtain ⟨inv',others⟩ := stopped_keeps w.from_pru fresh inv stopped
    refine ⟨inv',⟨trivial,others⟩,?_⟩
    refine early_check_sat (K := fun w => w.sync.rbuf = fresh) ⟨stopped,rfl⟩ (by decide) (fun _ _ same => same) (fun _ => rfl) ?_
    exact fun t knows => start_threads_sat knows.1 knows.2

theorem stop_keeps (stop : Bool) (inv : Inv w) : Inv { w with stop := stop } ∧ ∀ j, j ≠ .main → Rely j w { w with stop := stop } := by
  refine ⟨⟨?_,inv.sync,inv.before,inv.told,inv.bounded,inv.unsent⟩,?_⟩
  · exact ⟨inv.channel.executed,inv.channel.carries,inv.channel.before,inv.channel.awake⟩
  · intro j other
    cases j with
    | main => exact absurd rfl other
    | receive => exact TimeSyncReceive.outline.refl .receive (channel w)
    | send => exact outline.refl .send w
    | pru => exact outline.refl .pru w

theorem result_same {f : Call} (created : f ≠ .create_receive ∧ f ≠ .create_send) {input : Input} {r : Int32}
    (acted : act (.result f) input w = some (r,w')) : w' = w := by
  cases acted
  simp [created.1,created.2]

theorem teardown_sat : outline.Sat .main teardown w := by
  refine sat_same (K := fun _ => True) (Q := fun _ => True) trivial (fun _ _ _ => trivial) (fun _ => trivial) ?_
    (fun _ t _ _ _ => ⟨rfl,?_⟩)
  · intro input w r t acted
    simp only [act] at acted
    split at acted
    · cases acted
      exact ⟨rfl,trivial⟩
    · cases acted
  · intro w₁ input r t relied (inv : Inv w₁) acted
    cases acted
    obtain ⟨inv',others⟩ := stop_keeps true inv
    refine ⟨inv',⟨trivial,others⟩,?_⟩
    exact sat_same (K := fun _ => True) (Q := fun _ => True) trivial (fun _ _ _ => trivial) (fun _ => trivial)
      (fun acted => ⟨result_same (by decide) acted,trivial⟩) (fun _ t _ _ _ => ⟨rfl,trivial⟩)

/-- A party that has returned. -/
theorem returned_sat {i : Party} (place : ∀ w, Place i .idle w) (pre : ∀ w, Pre i .returned w) :
    outline.Sat i (body .returned) w := by
  refine sat_same (K := fun _ => True) (Q := fun _ => True) trivial (fun _ _ _ => trivial) (fun _ => place _) ?_
    (fun _ t _ _ _ => ⟨rfl,pre t⟩)
  intro input w r t acted
  cases acted
  exact ⟨rfl,trivial⟩

/-! ### The thread that prints -/

/-- What the thread does is seen by the PRU only. -/
theorem seen_through_channel (exec : w.exec = true) (same : w'.exec = w.exec) (sync : w'.sync = w.sync)
    (others : ∀ j, j ≠ .receive → TimeSyncReceive.Rely j (channel w) (channel w')) :
    ∀ j, j ≠ .receive → Rely j w w' := by
  intro j other
  cases j with
  | main => exact ⟨same,fun off => absurd (exec.symm.trans off) (by simp)⟩
  | receive => exact absurd rfl other
  | send => exact ⟨by rw [sync],by rw [sync],fun on => ⟨same.trans on,by rw [sync]; exact PruClockSync.syncOutline.refl .host _⟩⟩
  | pru =>
    refine ⟨by rw [sync],by rw [sync],others .pru (by decide),fun on => ⟨same.trans on,?_⟩⟩
    rw [sync]
    exact PruClockSync.syncOutline.refl .pru _

/-- A change to the channel that leaves the messages as they are. -/
theorem channel_keeps (inv : Inv w) (kept : TimeSyncReceive.Inv (channel w')) (exec : w'.exec = w.exec)
    (receive : w'.receive_thread = w.receive_thread) (send : w'.send_thread = w.send_thread) (sync : w'.sync = w.sync)
    (unsent : w'.unsent = w.unsent) : Inv w' := by
  refine ⟨kept,?_,?_,by rw [sync]; exact inv.told,?_,unsent.trans inv.unsent⟩
  · rw [exec,sync]
    exact inv.sync
  · rw [exec,receive,send,sync]
    exact inv.before
  · rw [World.messages,sync]
    exact inv.bounded

/-- The loop of the thread up to the wait. -/
theorem wait_pru_sat (asleep : w.draining = false) : outline.Sat .receive wait_pru w := by
  refine sat_same (K := fun w => w.draining = false) (Q := fun _ => True) asleep (fun relied _ asleep => relied.1.trans asleep)
    (fun asleep _ => asleep) ?_ (fun stop t asleep _ _ => ?_)
  · intro input w r t acted
    cases acted
    exact ⟨rfl,trivial⟩
  cases stop with
  | true => exact ⟨rfl,trivial⟩
  | false =>
    refine ⟨rfl,?_⟩
    intro w₁ input r t relied (inv : Inv w₁) acted
    have asleep₁ : w₁.draining = false := relied.1.trans asleep
    simp only [System.limited,system,act] at acted
    split at acted
    · rename_i pending
      cases acted
      have ready : w₁.ready = true := TimeSyncReceive.pending_ready inv.channel pending
      have channel' : TimeSyncReceive.Inv (channel { w₁ with draining := true }) :=
        ⟨inv.channel.executed,inv.channel.carries,fun (off : w₁.ready = false) => absurd (ready.symm.trans off) (by simp),
          .inr (.inr (.inl rfl))⟩
      refine ⟨channel_keeps inv channel' rfl rfl rfl rfl rfl,⟨fun _ => asleep₁,?_⟩,ready,rfl⟩
      refine seen_through_channel (inv.channel.executed ready) rfl rfl ?_
      exact TimeSyncReceive.seen_by_pru rfl (TimeSyncReceive.outline.refl .pru (channel w₁))
    · cases acted

theorem receive_pru_thread_sat (asleep : w.draining = false) : outline.Sat .receive (body .receive_pru_thread) w := by
  refine sat_same (K := fun w => w.draining = false) (Q := fun _ => True) asleep (fun relied _ asleep => relied.1.trans asleep)
    (fun asleep _ => asleep) ?_ (fun _ t asleep _ _ => ⟨rfl,wait_pru_sat asleep⟩)
  intro input w r t acted
  simp only [act] at acted
  split at acted
  · cases acted
    exact ⟨rfl,trivial⟩
  · cases acted

theorem woken_sat (draining : TimeSyncReceive.Draining (channel w)) : outline.Sat .receive (body .woken) w := by
  intro w₁ input r t relied (inv : Inv w₁) acted
  cases acted
  obtain ⟨ready,awake⟩ := TimeSyncReceive.draining_rely relied draining
  have channel' : TimeSyncReceive.Inv (channel { w₁ with evtout_0 := false }) :=
    ⟨inv.channel.executed,inv.channel.carries,fun (off : w₁.ready = false) => absurd (ready.symm.trans off) (by simp),
      .inr (.inr (.inl awake))⟩
  refine ⟨channel_keeps inv channel' rfl rfl rfl rfl rfl,⟨nofun,?_⟩,ready,awake⟩
  refine seen_through_channel (inv.channel.executed ready) rfl rfl ?_
  exact TimeSyncReceive.seen_by_pru rfl (TimeSyncReceive.outline.refl .pru (channel w₁))

/-- Entering `read` is what the channel alone does. -/
theorem channel_read (data : u64) (status : Int16) (w : World) :
    channel (enter (.read data status) w) = TimeSyncReceive.enter (.polled data status) (channel w) := by
  simp only [enter,TimeSyncReceive.enter]
  split <;> rfl

theorem enter_read_rest (data : u64) (status : Int16) (w : World) :
    (enter (.read data status) w).exec = w.exec ∧ (enter (.read data status) w).receive_thread = w.receive_thread ∧
      (enter (.read data status) w).send_thread = w.send_thread ∧ (enter (.read data status) w).sync = w.sync ∧
      (enter (.read data status) w).unsent = w.unsent := by
  simp only [enter]
  split <;> exact ⟨rfl,rfl,rfl,rfl,rfl⟩

theorem read_pru_sat (draining : TimeSyncReceive.Draining (channel w)) : outline.Sat .receive read_pru w := by
  refine outline.sat_call fromPru (fun w => TimeSyncReceive.Draining (channel w)) ?_ ?_ ?_ _
    (rbuf_read_uint64_atomic (some 0) w.from_pru) draining
  · intro w w' draining relied inv
    have draining' := TimeSyncReceive.draining_rely relied draining
    exact ⟨draining',(relied.2.2 draining.1).2,(inv.channel.carries draining'.1).inBounds⟩
  · rintro a w m draining inv ⟨rfl,_⟩
    exact ⟨draining,inv,nofun,fun j _ => outline.refl j w⟩
  · rintro ⟨data,status⟩ a w m draining inv ⟨_,read⟩
    obtain ⟨inv',others,knows⟩ := TimeSyncReceive.polled_keeps inv.channel draining read
    obtain ⟨exec,receive,send,sync,unsent⟩ := enter_read_rest data (status.getD 0) { w with from_pru := m }
    have entered := channel_read data (status.getD 0) { w with from_pru := m }
    have kept := @channel_keeps w (enter (.read data (status.getD 0)) { w with from_pru := m }) inv
      (by rw [entered]; exact inv') exec receive send sync unsent
    refine ⟨kept,⟨nofun,?_⟩,?_⟩
    · refine seen_through_channel (inv.channel.executed draining.1) exec sync (fun j other => ?_)
      show TimeSyncReceive.Rely j (channel w) (channel (enter (.read data (status.getD 0)) { w with from_pru := m }))
      rw [entered]
      exact others j other
    · have seen : (channel (enter (.read data (status.getD 0)) { w with from_pru := m })).ready = true ∧
          (channel (enter (.read data (status.getD 0)) { w with from_pru := m })).draining = decide (status.getD 0 = 0) := by
        rw [entered]
        exact knows
      exact seen

theorem read_sat {data : u64} {status : Int16} (ready : w.ready = true) (draining : w.draining = decide (status = 0)) :
    outline.Sat .receive (body (.read data status)) w := by
  by_cases more : status = 0
  · simp only [body,more,↓reduceIte]
    exact read_pru_sat ⟨ready,by simpa [channel,more] using draining⟩
  · simp only [body,more,↓reduceIte]
    exact wait_pru_sat (by simpa [more] using draining)

/-! ### The thread that sends timestamps -/

/-- What the thread does to its part of the world. -/
theorem sync_keeps {s : PruClock.World} (inv : Inv w) (exec : w.exec = true) (kept : PruClockSync.Inv s)
    (relied : PruClockSync.Rely .pru w.sync s) :
    Inv { w with sync := s } ∧ ∀ j, j ≠ .send → Rely j w { w with sync := s } := by
  obtain ⟨pru,events,received,fills⟩ := relied
  have off : ∀ {p : Prop}, w.exec = false → p := fun stopped => absurd (exec.symm.trans stopped) (by simp)
  have same : channel { w with sync := s } = { channel w with send_to_pru := s.rbuf } := by
    simp only [channel,World.messages,pru]
  refine ⟨⟨?_,fun _ => kept,off,?_,?_,inv.unsent⟩,?_⟩
  · rw [same]
    exact ⟨inv.channel.executed,inv.channel.carries,inv.channel.before,inv.channel.awake⟩
  · show Told s.pru
    rw [pru]
    exact inv.told
  · show s.pru.stores.length ≤ 30
    rw [pru]
    exact inv.bounded
  · intro j other
    cases j with
    | main => exact ⟨rfl,off⟩
    | receive =>
      show TimeSyncReceive.Rely .receive (channel w) (channel { w with sync := s })
      rw [same]
      exact TimeSyncReceive.outline.refl .receive (channel w)
    | send => exact absurd rfl other
    | pru =>
      refine ⟨pru,PruClockSync.rely_view ⟨pru,events,received,fills⟩,?_,fun on => ⟨on,pru,events,received,fills⟩⟩
      rw [same]
      exact TimeSyncReceive.outline.refl .pru (channel w)

/-- Between two timestamps. -/
def CaughtUp (w : World) : Prop := w.exec = true ∧ w.sync.taken = w.sync.sent.length

theorem caughtUp_rely (relied : Rely .send w w') (caught_up : CaughtUp w) : CaughtUp w' := by
  obtain ⟨taken,sent,on⟩ := relied
  exact ⟨(on caught_up.1).1,by rw [taken,sent,caught_up.2]⟩

/-- Entering `sent` is what the synchronisation alone does. -/
theorem enter_sent (nano_ts : u64) (err : Int32) (status : Int16) (w : World) :
    enter (.sent nano_ts err status) w = { w with sync := PruClock.enter (.wrote nano_ts status) w.sync } := by
  simp only [enter,PruClock.enter]
  split <;> rfl

/-- Sending the timestamp of the event that has been read. -/
theorem write_sat {event : ptp_extts_event} {err : Int32} (exec : w.exec = true) (hasRead : PruClockSync.HasRead event w.sync) :
    outline.Sat .send (onToPru (rbuf_write_uint64 (nano_ts event)) >>= fun status => .ret (.sent (nano_ts event) err status)) w := by
  refine outline.sat_call toPru (fun w => w.exec = true ∧ PruClockSync.HasRead event w.sync) ?_ ?_ ?_ _
    (rbuf_write_uint64_atomic (nano_ts event) w.sync.rbuf) ⟨exec,hasRead⟩
  · rintro w w' ⟨exec,hasRead⟩ ⟨_,_,on⟩ inv
    obtain ⟨exec',relied⟩ := on exec
    exact ⟨⟨exec',PruClockSync.hasRead_rely relied hasRead⟩,relied.2.2.2,(inv.sync exec').carries.inBounds⟩
  · rintro a w m ⟨exec,hasRead⟩ inv unseen
    have sync := inv.sync exec
    have kept : PruClockSync.Inv { w.sync with rbuf := m } :=
      ⟨carries_unseen sync.carries unseen,sync.sent_first,sync.sent_le,sync.taken_le,sync.consumed_first,sync.paced,
        sync.never_refused⟩
    obtain ⟨inv',others⟩ := sync_keeps inv exec kept ⟨rfl,rfl,rfl,unseen_fills unseen⟩
    exact ⟨⟨exec,hasRead⟩,inv',trivial,others⟩
  · rintro status a w m ⟨exec,hasRead⟩ inv ⟨_,wrote⟩
    obtain ⟨kept,relied,caught_up⟩ := PruClockSync.wrote_keeps (inv.sync exec) hasRead wrote
    obtain ⟨inv',others⟩ := sync_keeps inv exec kept relied
    show Inv (enter (.sent (nano_ts event) err status) { w with sync.rbuf := m }) ∧
      (True ∧ ∀ j, j ≠ .send → Rely j w (enter (.sent (nano_ts event) err status) { w with sync.rbuf := m })) ∧
      CaughtUp (enter (.sent (nano_ts event) err status) { w with sync.rbuf := m })
    rw [enter_sent]
    exact ⟨inv',⟨trivial,others⟩,exec,caught_up⟩

theorem send_host_sat {err : Int32} (caught_up : CaughtUp w) : outline.Sat .send (send_host err) w := by
  refine sat_same (K := CaughtUp) (Q := fun _ => True) caught_up (fun relied _ knows => caughtUp_rely relied knows)
    (fun _ => trivial) ?_ (fun stop t caught_up _ _ => ?_)
  · intro input w r t acted
    cases acted
    exact ⟨rfl,trivial⟩
  cases stop with
  | true => exact ⟨rfl,trivial⟩
  | false =>
    refine ⟨rfl,?_⟩
    intro w₁ ⟨input,usual⟩ r t relied (inv : Inv w₁) acted
    obtain ⟨exec,level⟩ := caughtUp_rely relied caught_up
    obtain ⟨⟨_,taken⟩,read,same⟩ := Option.map_eq_some_iff.mp acted
    cases same
    obtain ⟨event,here,rfl,rfl⟩ := read_event_full usual.2 read
    have sync := inv.sync exec
    have inside := (List.getElem?_eq_some_iff.mp here).1
    have hasRead : PruClockSync.HasRead event { w₁.sync with taken := w₁.sync.taken + 1 } := by
      rw [level] at here ⊢
      exact ⟨rfl,here⟩
    have kept : PruClockSync.Inv { w₁.sync with taken := w₁.sync.taken + 1 } := by
      refine ⟨sync.carries,sync.sent_first,?_,inside,sync.consumed_first,sync.paced,sync.never_refused⟩
      show w₁.sync.sent.length ≤ w₁.sync.taken + 1
      omega
    obtain ⟨inv',others⟩ := sync_keeps inv exec kept ⟨rfl,rfl,rfl,fills_refl _⟩
    exact ⟨inv',⟨trivial,others⟩,write_sat exec hasRead⟩

theorem send_pru_thread_sat (level : w.sync.taken = w.sync.sent.length) : outline.Sat .send (body .send_pru_thread) w := by
  refine sat_same (K := fun w => w.sync.taken = w.sync.sent.length) (Q := fun w => w.send_thread = true) level ?_
    (fun _ => trivial) ?_ ?_
  · rintro w w' ⟨taken,sent,_⟩ _ level
    rw [taken,sent,level]
  · intro input w r t acted
    simp only [act] at acted
    split at acted
    · rename_i created
      cases acted
      exact ⟨rfl,created⟩
    · cases acted
  · intro _ t level inv created
    refine ⟨rfl,?_,level⟩
    show t.exec = true
    by_contra off
    have := (inv.before (by simpa using off)).2.1
    rw [created] at this
    cases this

/-! ### The PRU -/

/-- What the PRU does to the channel is seen by the thread that prints, what it
    does to the ring buffer to it by the one that sends. -/
theorem seen_by_others (exec : w.exec = true) (same : w'.exec = w.exec)
    (receive : TimeSyncReceive.Rely .receive (channel w) (channel w'))
    (sync : PruClockSync.Rely .host w.sync w'.sync) : ∀ j, j ≠ .pru → Rely j w w' := by
  intro j other
  cases j with
  | main => exact ⟨same,fun off => absurd (exec.symm.trans off) (by simp)⟩
  | receive => exact receive
  | send => exact ⟨sync.1,sync.2.1,fun on => ⟨same.trans on,sync⟩⟩
  | pru => exact absurd rfl other

theorem seen_rely (exec : w.exec = true) (relied : Rely .pru w w') : w'.exec = true ∧ seen w' = seen w := by
  obtain ⟨pru,same,⟨ready,owed,_⟩,on⟩ := relied
  exact ⟨(on exec).1,by simp only [seen,pru,same,show w'.ready = w.ready from ready,show w'.owed = w.owed from owed]⟩

/-- A change to the clock of the PRU alone. -/
theorem private_keeps {h : History} (inv : Inv w) (exec : w.exec = true) (stores : h.stores = w.sync.pru.stores)
    (rounds : h.rounds = w.sync.pru.rounds) (told : Told h) :
    Inv { w with sync.pru := h } ∧ ∀ j, j ≠ .pru → Rely j w { w with sync.pru := h } := by
  obtain ⟨kept,relied⟩ := PruClockSync.quiet_keeps (inv.sync exec)
    (show PruClockSync.Quiet w.sync { w.sync with pru := h } from ⟨rfl,rfl,rfl,rfl,rfl,rfl,rounds⟩)
  have same : channel { w with sync.pru := h } = channel w := by simp only [channel,World.messages,stores]
  refine ⟨⟨?_,fun _ => kept,fun off => absurd (exec.symm.trans off) (by simp),told,?_,inv.unsent⟩,?_⟩
  · rw [same]
    exact inv.channel
  · show h.stores.length ≤ 30
    rw [stores]
    exact inv.bounded
  · refine seen_by_others exec rfl ?_ relied
    rw [same]
    exact TimeSyncReceive.outline.refl .receive (channel w)

/-- An access that changes the clock of the PRU at most, up to the entry of a block after it. -/
theorem sat_private {K : Seen → Prop} {a : Access} {f : a.Answer → Code} (exec : w.exec = true) (knows : K (seen w))
    (place : ∀ {w}, K (seen w) → Place .pru a w)
    (step : ∀ {input w r t}, Usual input → w.exec = true → K (seen w) → Inv w → act a input w = some (r,t) →
      ∃ h, (system.limited Usual).settle (f r) t = { w with sync.pru := h } ∧ h.stores = w.sync.pru.stores ∧
        h.rounds = w.sync.pru.rounds ∧ Told h ∧ outline.Sat .pru (f r) t) :
    outline.Sat .pru (.access a f) w := by
  intro w₁ ⟨input,usual⟩ r t relied (inv : Inv w₁) acted
  obtain ⟨exec₁,same⟩ := seen_rely exec relied
  have knows₁ : K (seen w₁) := by rwa [same]
  obtain ⟨h,settled,stores,rounds,told,sat⟩ := step usual exec₁ knows₁ inv acted
  obtain ⟨inv',others⟩ := private_keeps inv exec₁ stores rounds told
  rw [settled]
  exact ⟨inv',⟨place knows₁,others⟩,sat⟩

theorem told_empty {h : History} (none : h.stores = []) : Told h := by
  refine ⟨?_,?_⟩
  · rw [none]
    exact nofun
  · rw [none]
    exact nofun

/-- The settings up to the last one. -/
theorem settingAfter_last (h : History) : settingAfter h h.rounds.length = some h.current := by
  cases many : h.rounds.length with
  | zero =>
    have none := List.length_eq_zero_iff.mp many
    simp [settingAfter,History.current,none]
  | succ k => exact PruClockTime.current_last many

/-- A further round leaves the earlier settings as they are. -/
theorem settingAfter_round {h : History} {k : Nat} {s r : Setting} (here : settingAfter h k = some s) :
    settingAfter { h with rounds := h.rounds ++ [r] } k = some s := by
  cases k with
  | zero => exact here
  | succ k =>
    have inside := (List.getElem?_eq_some_iff.mp here).1
    show (h.rounds ++ [r])[k]? = some s
    rw [List.getElem?_append_left inside]
    exact here

theorem told_round {h : History} (told : Told h) (r : Setting) : Told { h with rounds := h.rounds ++ [r] } := by
  refine ⟨?_,told.rounds⟩
  intro st member
  obtain ⟨s,here,shown⟩ := told.values st member
  exact ⟨s,settingAfter_round here,shown⟩

theorem told_store {h : History} (told : Told h) (turn : h.rounds.length = (h.stores.length + 1) / 5) :
    Told { h with stores := h.stores ++ [⟨h.current.shown h.count,h.count,h.rounds.length⟩] } := by
  constructor
  · intro st member
    rcases List.mem_append.mp member with before | last
    · exact told.values st before
    · obtain rfl := List.mem_singleton.mp last
      exact ⟨h.current,settingAfter_last h,rfl⟩
  · intro j st here
    rcases Nat.lt_or_ge j h.stores.length with before | beyond
    · rw [List.getElem?_append_left before] at here
      exact told.rounds j st here
    · have last : j = h.stores.length := by
        have := (List.getElem?_eq_some_iff.mp here).1
        simp at this
        omega
      subst last
      simp at here
      rw [← here]
      exact turn

/-! #### The start -/

/-- Before its ring buffer is initialised nobody else touches it. -/
def Booting (w : World) : Prop := w.exec = true ∧ w.owed = false ∧ w.ready = false ∧ Reached 0 0 { seen w with ready := true }

theorem booting_rely (relied : Rely .pru w w') (booting : Booting w) : Booting w' ∧ w'.from_pru = w.from_pru := by
  obtain ⟨exec,free,off,reached⟩ := booting
  obtain ⟨exec',same⟩ := seen_rely exec relied
  have owed : w'.owed = w.owed := congrArg Seen.owed same
  have ready : w'.ready = w.ready := congrArg Seen.ready same
  exact ⟨⟨exec',owed.trans free,ready.trans off,by rwa [same]⟩,(relied.2.2.1.2.2.2 exec).2.2 off⟩

theorem init_sat (booting : Booting w) : outline.Sat .pru (onFromPru init_rbuffer >>= fun _ => .ret .initialised) w := by
  refine outline.sat_alone fromPru Booting ?_ ?_ ?_ init_rbuffer rfl booting (init_rbuffer_exec w.from_pru)
  · intro w w' booting relied _
    exact booting_rely relied booting
  · rintro a w m ⟨exec,free,off,reached⟩ inv
    have no : ∀ {p : Prop}, w.ready = true → p := fun on => absurd (off.symm.trans on) (by simp)
    refine ⟨⟨exec,free,off,reached⟩,⟨⟨inv.channel.executed,no,inv.channel.before,inv.channel.awake⟩,inv.sync,
      inv.before,inv.told,inv.bounded,inv.unsent⟩,⟨fun _ => free,nofun⟩,?_⟩
    exact seen_by_others exec rfl ⟨rfl,rfl,no⟩ (PruClockSync.syncOutline.refl .host _)
  · rintro a w ⟨exec,free,off,reached⟩ inv
    have no : ∀ {p : Prop}, w.ready = true → p := fun on => absurd (off.symm.trans on) (by simp)
    obtain ⟨accepted,delivered,_⟩ := inv.channel.before off
    have nothing : w.printed = w.messages.map Store.value := delivered.trans accepted.symm
    have channel' : TimeSyncReceive.Inv (channel { w with from_pru := fresh, ready := true }) := by
      refine ⟨fun _ => exec,fun _ => ?_,nofun,.inr (.inr (.inr nothing))⟩
      show Carries fresh (channel w).accepted (channel w).delivered
      rw [accepted,delivered]
      exact carries_fresh
    refine ⟨⟨channel',inv.sync,inv.before,inv.told,inv.bounded,inv.unsent⟩,⟨⟨fun _ => free,nofun⟩,?_⟩,exec,reached⟩
    exact seen_by_others exec rfl ⟨rfl,rfl,no⟩ (PruClockSync.syncOutline.refl .host _)

theorem boot_sat (free : w.owed = false) (off : w.ready = false) (reached : Reached 0 0 { seen w with ready := true }) :
    outline.Sat .pru (body .pru) w := by
  refine sat_same (K := fun w => w.owed = false ∧ w.ready = false ∧ Reached 0 0 { seen w with ready := true })
    (Q := fun w => w.exec = true) ⟨free,off,reached⟩ ?_ (fun knows => ⟨fun _ => knows.1,nofun⟩) ?_ ?_
  · rintro w w' ⟨pru,same,⟨ready,owed,_⟩,_⟩ _ ⟨free,off,reached⟩
    have here : ({ seen w' with ready := true } : Seen) = { seen w with ready := true } := by
      simp only [seen,pru,same,show w'.owed = w.owed from owed]
    exact ⟨owed.trans free,ready.trans off,by rwa [here]⟩
  · intro input w r t acted
    simp only [act] at acted
    split at acted
    · rename_i on
      cases acted
      exact ⟨rfl,on⟩
    · cases acted
  · rintro _ t ⟨free,off,reached⟩ _ exec
    exact ⟨rfl,init_sat ⟨exec,free,off,reached⟩⟩

/-- Reading the counter. -/
theorem sat_iep_cnt {K : Seen → Prop} {f : Nat → Code} (exec : w.exec = true) (knows : K (seen w))
    (free : ∀ {v}, K v → v.owed = false)
    (next : ∀ n {w : World}, w.exec = true → K (seen w) → Inv w → Within (2^32) w.sync.pru.count n →
      ∃ h, (system.limited Usual).settle (f n) { w with sync.pru.count := n } = { w with sync.pru := h } ∧
        h.stores = w.sync.pru.stores ∧ h.rounds = w.sync.pru.rounds ∧ Told h ∧ outline.Sat .pru (f n) { w with sync.pru.count := n }) :
    outline.Sat .pru (.access Access.iep_cnt f) w := by
  refine sat_private exec knows (fun knows => ⟨fun _ => free knows,nofun⟩) ?_
  intro input w r t usual exec knows inv acted
  cases acted
  have near : input.elapsed < 2^32 := usual.1
  exact next _ exec knows inv ⟨by omega,by omega⟩

theorem told_count {h : History} (told : Told h) (n : Nat) : Told { h with count := n } := ⟨told.values,told.rounds⟩

theorem start_clock_sat (exec : w.exec = true) (reached : Reached 0 0 (seen w)) : outline.Sat .pru start_clock w := by
  refine sat_private exec reached (fun knows => ⟨fun _ => knows.free,nofun⟩) ?_
  intro input w r t _ exec reached inv acted
  cases acted
  refine ⟨{ w.sync.pru with count := 0 },rfl,rfl,rfl,told_count inv.told 0,?_⟩
  have reached' : Reached 0 0 (seen { w with sync.pru.count := 0 }) :=
    ⟨reached.ready,reached.free,reached.messages,reached.rounds,reached.idle⟩
  refine sat_iep_cnt exec reached' (fun knows => knows.free) ?_
  intro n w exec reached inv _
  refine ⟨{ w.sync.pru with count := n },rfl,rfl,rfl,told_count inv.told n,?_⟩
  have reached' : Reached 0 0 (seen { w with sync.pru.count := n }) :=
    ⟨reached.ready,reached.free,reached.messages,reached.rounds,reached.idle⟩
  refine sat_iep_cnt exec reached' (fun knows => knows.free) ?_
  intro cc w exec reached inv _
  have no_rounds : w.sync.pru.rounds = [] := List.length_eq_zero_iff.mp reached.rounds
  refine ⟨{ w.sync.pru with count := cc, init := ⟨(IEP_CNT n).toUInt64,cc⟩ },rfl,rfl,rfl,
    told_empty (List.length_eq_zero_iff.mp reached.messages),exec,?_,?_⟩
  · show Runs (init_pru_time 5 0 32 read_cc none (IEP_CNT n) cc).2 (w.sync.pru.rounds.getLastD ⟨(IEP_CNT n).toUInt64,cc⟩) cc
    rw [no_rounds]
    exact runs_init (IEP_CNT n) cc
  · exact ⟨reached.ready,reached.free,reached.messages,reached.rounds,reached.idle⟩

/-! #### Messages -/

/-- The ring buffer to the host has room for every message. -/
theorem room (inv : Inv w) (ready : w.ready = true) (more : w.messages.length < 30) : queued w.from_pru < 254 := by
  have carries := carries_queued (inv.channel.carries ready)
  have many : (channel w).accepted.length = w.messages.length := by simp [channel]
  have held : (channel w).rbuf = w.from_pru := rfl
  rw [many,held] at carries
  omega

/-- A message is written, and an interrupt owed for it. -/
theorem message_keeps {l : Locals} {i : Nat} {ts : u64} {status : Int16} {m : rbuffer} (inv : Inv w) (exec : w.exec = true)
    (running : Running l (seen w)) (turn : i < 30) (reached : Reached (29 - i) ((30 - i) / 5) (seen w))
    (shown : ts = w.sync.pru.current.shown w.sync.pru.count) (wrote : Wrote (words ts) w.from_pru status m) :
    let t := enter (.wrote l i ts status) { w with from_pru := m }
    Inv t ∧ (∀ j, j ≠ .pru → Rely j w t) ∧ t.exec = true ∧ Knows (.wrote l i ts status) (seen t) := by
  have ready : w.ready = true := reached.ready
  have messages : w.sync.pru.stores.length = 29 - i := reached.messages
  have rounds : w.sync.pru.rounds.length = (30 - i) / 5 := reached.rounds
  have few : queued w.from_pru < 254 := room inv ready (by simp only [World.messages]; omega)
  rcases carries_wrote (inv.channel.carries ready) wrote with ⟨rfl,carries,fills⟩ | ⟨_,_,full⟩
  · subst shown
    let message : Store := ⟨w.sync.pru.current.shown w.sync.pru.count,w.sync.pru.count,w.sync.pru.rounds.length⟩
    have told := told_store inv.told (by rw [rounds,messages]; omega)
    obtain ⟨sync,relied⟩ := PruClockSync.quiet_keeps (inv.sync exec)
      (show PruClockSync.Quiet w.sync { w.sync with pru.stores := w.sync.pru.stores ++ [message] } from
        ⟨rfl,rfl,rfl,rfl,rfl,rfl,rfl⟩)
    have off : ∀ {p : Prop}, w.ready = false → p := fun no => absurd (ready.symm.trans no) (by simp)
    refine ⟨⟨⟨inv.channel.executed,fun _ => ?_,off,.inr (.inl rfl)⟩,fun _ => sync,
      fun stopped => absurd (exec.symm.trans stopped) (by simp),told,?_,inv.unsent⟩,?_,exec,?_⟩
    · show Carries m ((w.sync.pru.stores ++ [message]).map Store.value) w.printed
      rw [List.map_append]
      exact carries
    · show (w.sync.pru.stores ++ [message]).length ≤ 30
      rw [List.length_append,messages,List.length_singleton]
      omega
    · exact seen_by_others exec rfl ⟨rfl,rfl,fun on => ⟨on,fills⟩⟩ relied
    · refine ⟨running,turn,rfl,reached.ready,rfl,?_,rounds,reached.idle⟩
      show (w.sync.pru.stores ++ [message]).length = 30 - i
      rw [List.length_append,messages,List.length_singleton]
      omega
  · exact absurd full (by show ¬ 254 ≤ queued w.from_pru; omega)

theorem send_time_sat {l : Locals} {i : Nat} (exec : w.exec = true) (running : Running l (seen w)) (turn : i < 30)
    (reached : Reached (29 - i) ((30 - i) / 5) (seen w)) : outline.Sat .pru (send_time l i) w := by
  refine sat_iep_cnt (K := fun v => Running l v ∧ Reached (29 - i) ((30 - i) / 5) v) exec ⟨running,reached⟩
    (fun knows => knows.2.free) ?_
  rintro n w exec ⟨running,reached⟩ inv within
  obtain ⟨shown,runs⟩ := runs_read running within
  refine ⟨{ w.sync.pru with count := n },rfl,rfl,rfl,told_count inv.told n,?_⟩
  let l' : Locals := { l with time := (read_pru_time l.time n).2 }
  let Frame (w : World) : Prop := w.exec = true ∧ Running l' (seen w) ∧ Reached (29 - i) ((30 - i) / 5) (seen w) ∧
    (read_pru_time l.time n).1 = w.sync.pru.current.shown w.sync.pru.count
  have here : Frame { w with sync.pru.count := n } :=
    ⟨exec,runs,⟨reached.ready,reached.free,reached.messages,reached.rounds,reached.idle⟩,shown⟩
  refine outline.sat_call (i := .pru) fromPru Frame ?_ ?_ ?_ _ (rbuf_write_uint64_atomic (read_pru_time l.time n).1 _) here
  · rintro w w' ⟨exec,running,reached,shown⟩ relied inv
    obtain ⟨exec',same⟩ := seen_rely exec relied
    have drains := (relied.2.2.1.2.2.2 exec).2.1 reached.ready
    have ready' : w'.ready = true := (congrArg Seen.ready same).trans reached.ready
    refine ⟨⟨exec',by rwa [same],by rwa [same],?_⟩,drains,(inv.channel.carries ready').inBounds⟩
    rw [relied.1]
    exact shown
  · rintro a w m ⟨exec,running,reached,shown⟩ inv unseen
    have channel' : TimeSyncReceive.Inv (channel { w with from_pru := m }) :=
      ⟨inv.channel.executed,fun ready => carries_unseen (inv.channel.carries ready) unseen,inv.channel.before,inv.channel.awake⟩
    refine ⟨⟨exec,running,reached,shown⟩,⟨channel',inv.sync,inv.before,inv.told,inv.bounded,inv.unsent⟩,
      ⟨fun _ => reached.free,nofun⟩,?_⟩
    exact seen_by_others exec rfl ⟨rfl,rfl,fun on => ⟨on,unseen_fills unseen⟩⟩ (PruClockSync.syncOutline.refl .host _)
  · rintro status a w m ⟨exec,running,reached,shown⟩ inv ⟨_,wrote⟩
    obtain ⟨inv',others,exec',knows⟩ := message_keeps inv exec running turn reached shown wrote
    exact ⟨inv',⟨⟨fun _ => reached.free,nofun⟩,others⟩,exec',knows⟩

/-- The interrupt for a message. -/
theorem wrote_sat {l : Locals} {i : Nat} {ts : u64} {status : Int16} (exec : w.exec = true)
    (knows : Knows (.wrote l i ts status) (seen w)) : outline.Sat .pru (body (.wrote l i ts status)) w := by
  intro w₁ input r t relied (inv : Inv w₁) acted
  obtain ⟨exec₁,same⟩ := seen_rely exec relied
  rw [← same] at knows
  obtain ⟨running,turn,_,reached⟩ := knows
  have ready : w₁.ready = true := reached.ready
  have entered : enter (.loop l i) t = { w₁ with evtout_0 := true, owed := false } := by
    cases acted
    simp [enter]
  have channel' : TimeSyncReceive.Inv (channel { w₁ with evtout_0 := true, owed := false }) :=
    ⟨inv.channel.executed,inv.channel.carries,fun off => absurd (ready.symm.trans off) (by simp),.inl rfl⟩
  have others : ∀ j, j ≠ .pru → Rely j w₁ { w₁ with evtout_0 := true, owed := false } :=
    seen_by_others exec₁ rfl (TimeSyncReceive.outline.refl .receive (channel w₁)) (PruClockSync.syncOutline.refl .host _)
  show Inv (enter (.loop l i) t) ∧ (Place .pru (.trig_intc 3) w₁ ∧ ∀ j, j ≠ .pru → Rely j w₁ (enter (.loop l i) t)) ∧
    Pre .pru (.loop l i) (enter (.loop l i) t)
  rw [entered]
  exact ⟨⟨channel',inv.sync,inv.before,inv.told,inv.bounded,inv.unsent⟩,⟨⟨fun other => absurd rfl other,by simp⟩,others⟩,
    exec₁,running,by omega,reached⟩

/-! #### Rounds -/

theorem loop_sat {l : Locals} {i : Nat} (exec : w.exec = true) (running : Running l (seen w)) (turn : i ≤ 30)
    (reached : Reached (30 - i) ((30 - i) / 5) (seen w)) : outline.Sat .pru (loop l i) w := by
  cases i with
  | zero =>
    intro w₁ input r t relied (inv : Inv w₁) acted
    obtain ⟨exec₁,same⟩ := seen_rely exec relied
    rw [← same] at reached
    have entered : enter .halted t = { w₁ with evtout_1 := true } := by
      cases acted
      simp [enter]
    have others : ∀ j, j ≠ .pru → Rely j w₁ { w₁ with evtout_1 := true } :=
      seen_by_others exec₁ rfl (TimeSyncReceive.outline.refl .receive (channel w₁)) (PruClockSync.syncOutline.refl .host _)
    show Inv (enter .halted t) ∧ (Place .pru (.trig_intc 4) w₁ ∧ ∀ j, j ≠ .pru → Rely j w₁ (enter .halted t)) ∧
      Pre .pru .halted (enter .halted t)
    rw [entered]
    exact ⟨⟨inv.channel,inv.sync,inv.before,inv.told,inv.bounded,inv.unsent⟩,⟨⟨fun _ => reached.free,by simp⟩,others⟩,exec₁,
      reached⟩
  | succ i =>
    have messages : 30 - (i + 1) = 29 - i := by omega
    rw [messages] at reached
    simp only [loop]
    split
    · rename_i round
      refine sat_iep_cnt (K := fun v => Running l v ∧ Reached (29 - i) ((29 - i) / 5) v) exec ⟨running,reached⟩
        (fun knows => knows.2.free) ?_
      rintro n w exec ⟨running,reached⟩ inv within
      obtain ⟨shown,runs⟩ := runs_read running within
      refine ⟨{ w.sync.pru with count := n, synced := n },rfl,rfl,rfl,⟨inv.told.values,inv.told.rounds⟩,exec,?_,reached.idle⟩
      exact ⟨runs,reached.ready,reached.free,⟨by omega,round⟩,reached.messages,reached.rounds,shown,runs.since,Nat.le_refl _⟩
    · rename_i no_round
      have later : (29 - i) / 5 = (30 - i) / 5 := by omega
      rw [later] at reached
      exact send_time_sat exec running (by omega) reached

theorem pulse_sat {l : Locals} {i : Nat} {ts_pru : u64} (exec : w.exec = true) (asking : Asking l i ts_pru (seen w))
    (idle : Idle (view w.sync)) : outline.Sat .pru (body (.pulse l i ts_pru)) w := by
  intro w₁ input r t relied (inv : Inv w₁) acted
  obtain ⟨exec₁,same⟩ := seen_rely exec relied
  rw [← same] at asking
  have idle₁ : Idle (view w₁.sync) := by rwa [relied.2.1]
  cases acted
  obtain ⟨kept,relied',awaits⟩ := PruClockSync.pulse_keeps input.val.event (inv.sync exec₁) idle₁
  refine ⟨⟨inv.channel,fun _ => kept,fun off => absurd (exec₁.symm.trans off) (by simp),inv.told,inv.bounded,inv.unsent⟩,
    ⟨⟨fun _ => asking.free,nofun⟩,seen_by_others exec₁ rfl (TimeSyncReceive.outline.refl .receive (channel w₁)) relied'⟩,?_⟩
  have asking' : Asking l i ts_pru (seen { w₁ with sync.events := w₁.sync.events ++ [input.val.event] }) :=
    ⟨asking.running,asking.ready,asking.free,asking.turn,asking.messages,asking.rounds,asking.shown,asking.since,
      asking.before⟩
  refine sat_private (K := fun v => Asking l i ts_pru v ∧ Awaits v.view) exec₁ ⟨asking',awaits⟩
    (fun knows => ⟨fun _ => knows.1.free,nofun⟩) ?_
  intro input w r t _ exec knows inv acted
  cases acted
  exact ⟨w.sync.pru,rfl,rfl,rfl,inv.told,exec,knows⟩

/-- The timestamp of a round is taken from the ring buffer and becomes the setting. -/
theorem received_keeps {s : PruClock.World} {m : rbuffer} {data : u64} (inv : PruClockSync.Inv s) (awaits : Awaits (view s))
    (carries : Carries m s.sent (s.received ++ [data])) (drains : Drains s.rbuf m) (r : Setting) (time : r.time = data) :
    let t := { s with rbuf := m, received := s.received ++ [data], pru.rounds := s.pru.rounds ++ [r] }
    PruClockSync.Inv t ∧ PruClockSync.Rely .host s t ∧ Idle (view t) := by
  obtain ⟨pulses,same⟩ := awaits
  have same : PruClockSync.consumed s = s.received := same
  have pulses : s.events.length = s.received.length + 1 := pulses
  have set : (s.pru.rounds ++ [r]).map Setting.time = s.received ++ [data] := by
    rw [List.map_append,← same,← time]
    rfl
  refine ⟨⟨carries,inv.sent_first,inv.sent_le,inv.taken_le,?_,?_,inv.never_refused⟩,⟨rfl,rfl,List.prefix_refl _,drains⟩,?_,set⟩
  · show (s.pru.rounds ++ [r]).map Setting.time <+: s.received ++ [data]
    rw [set]
  · show s.events.length ≤ ((s.pru.rounds ++ [r]).map Setting.time).length + 1
    rw [set,List.length_append,pulses]
    omega
  · show s.events.length = (s.received ++ [data]).length
    rw [pulses,List.length_append]
    rfl

/-- A poll that finds the timestamp ends the round. -/
theorem polled_keeps {l : Locals} {i : Nat} {ts_pru : u64} {m : rbuffer} {result : u64 × Option Int16} (inv : Inv w)
    (exec : w.exec = true) (asking : Asking l i ts_pru (seen w)) (awaits : Awaits (view w.sync))
    (read : Read words 2 (some l.status) w.sync.rbuf result m) :
    let b := Block.polled { l with status := result.2.getD l.status } i ts_pru result.1
    let t := enter b { w with sync.rbuf := m }
    Inv t ∧ (∀ j, j ≠ .pru → Rely j w t) ∧ t.exec = true ∧ Knows b (seen t) := by
  have stopped : ∀ {p : Prop}, w.exec = false → p := fun off => absurd (exec.symm.trans off) (by simp)
  rcases carries_read (inv.sync exec).carries read with ⟨data,rfl,carries,drains⟩ | ⟨rfl,rfl,_⟩
  · let r : Setting := ⟨data,w.sync.pru.synced⟩
    obtain ⟨kept,relied,idle⟩ := received_keeps (inv.sync exec) awaits carries drains r rfl
    intro b t
    have entered : t = { w with
        sync.rbuf := m, sync.received := w.sync.received ++ [data], sync.pru.rounds := w.sync.pru.rounds ++ [r] } := rfl
    clear_value t
    subst entered
    obtain ⟨turn,round⟩ := asking.turn
    have rounds : w.sync.pru.rounds.length = (29 - i) / 5 := asking.rounds
    refine ⟨⟨?_,fun _ => kept,stopped,told_round inv.told r,inv.bounded,inv.unsent⟩,?_,exec,?_⟩
    · exact ⟨inv.channel.executed,inv.channel.carries,inv.channel.before,inv.channel.awake⟩
    · exact seen_by_others exec rfl (TimeSyncReceive.outline.refl .receive (channel w)) relied
    · refine ⟨?_,turn,asking.ready,asking.free,asking.messages,?_,idle⟩
      · show Runs (adj_pru_time l.time ts_pru data 0).2.1
          (History.current { w.sync.pru with rounds := w.sync.pru.rounds ++ [r] }) w.sync.pru.count
        rw [asking.shown]
        simp only [History.current,List.getLastD_concat]
        exact runs_adjust asking.running asking.since asking.before data 0
      · show (w.sync.pru.rounds ++ [r]).length = (30 - i) / 5
        rw [List.length_append,rounds,List.length_singleton]
        omega
  · intro b t
    have entered : t = w := rfl
    clear_value t
    subst entered
    refine ⟨inv,fun j _ => outline.refl j t,exec,?_,awaits⟩
    exact ⟨asking.running,asking.ready,asking.free,asking.turn,asking.messages,asking.rounds,asking.shown,asking.since,
      asking.before⟩

theorem poll_host_sat {l : Locals} {i : Nat} {ts_pru : u64} (exec : w.exec = true) (asking : Asking l i ts_pru (seen w))
    (awaits : Awaits (view w.sync)) : outline.Sat .pru (poll_host l i ts_pru) w := by
  refine outline.sat_call toPru (fun w => w.exec = true ∧ Asking l i ts_pru (seen w) ∧ Awaits (view w.sync)) ?_ ?_ ?_ _
    (rbuf_read_uint64_atomic (some l.status) w.sync.rbuf) ⟨exec,asking,awaits⟩
  · rintro w w' ⟨exec,asking,awaits⟩ relied inv
    obtain ⟨exec',same⟩ := seen_rely exec relied
    exact ⟨⟨exec',by rwa [same],by rwa [relied.2.1]⟩,(relied.2.2.2 exec).2.2.2.2,(inv.sync exec').carries.inBounds⟩
  · rintro a w m ⟨exec,asking,awaits⟩ inv ⟨rfl,_⟩
    exact ⟨⟨exec,asking,awaits⟩,inv,⟨fun _ => asking.free,nofun⟩,fun j _ => outline.refl j w⟩
  · rintro result a w m ⟨exec,asking,awaits⟩ inv ⟨_,read⟩
    obtain ⟨inv',others,exec',knows⟩ := polled_keeps inv exec asking awaits read
    exact ⟨inv',⟨⟨fun _ => asking.free,nofun⟩,others⟩,exec',knows⟩

theorem polled_sat {l : Locals} {i : Nat} {ts_pru data : u64} (exec : w.exec = true)
    (knows : Knows (.polled l i ts_pru data) (seen w)) : outline.Sat .pru (body (.polled l i ts_pru data)) w := by
  by_cases again : l.status ≠ 0
  · simp only [Knows,if_neg again] at knows
    simp only [body,if_pos again]
    exact poll_host_sat exec knows.1 knows.2
  · have done : l.status = 0 := by simpa using again
    simp only [Knows,if_pos done] at knows
    simp only [body,if_neg again]
    exact send_time_sat exec knows.1 knows.2.1 knows.2.2

theorem halted_sat (exec : w.exec = true) (reached : Reached 30 6 (seen w)) : outline.Sat .pru (body .halted) w := by
  refine sat_private (K := fun v => Reached 30 6 v) exec reached (fun {w} reached => ⟨fun _ => reached.free,fun _ => ?_⟩) ?_
  · obtain ⟨pulses,same⟩ := reached.idle
    have taken_over : (PruClockSync.consumed w.sync).length = w.sync.received.length := congrArg List.length same
    have rounds : w.sync.pru.rounds.length = 6 := reached.rounds
    rw [PruClockSync.consumed,List.length_map,rounds] at taken_over
    exact ⟨reached.messages,rounds,pulses.trans taken_over.symm⟩
  · intro input w r t _ exec reached inv acted
    cases acted
    exact ⟨w.sync.pru,rfl,rfl,rfl,inv.told,exec,reached⟩

theorem bodies_proved : outline.Proved := by
  intro i b w (inv : Inv w) (knows : Pre i b w)
  show outline.Sat i (body b) w
  cases i with
  | main =>
    cases b with
    | main => exact main_sat knows
    | started => exact teardown_sat
    | returned => exact returned_sat (fun _ => trivial) (fun _ => trivial)
    | _ => exact knows.elim
  | receive =>
    cases b with
    | receive_pru_thread => exact receive_pru_thread_sat knows
    | woken => exact woken_sat knows
    | drain => exact read_pru_sat knows
    | read data status => exact read_sat knows.1 knows.2
    | returned => exact returned_sat (fun _ => nofun) (fun _ => trivial)
    | _ => exact knows.elim
  | send =>
    cases b with
    | send_pru_thread => exact send_pru_thread_sat knows
    | sending err => exact send_host_sat knows
    | sent nano_ts err status => exact send_host_sat knows
    | returned => exact returned_sat (fun _ => trivial) (fun _ => trivial)
    | _ => exact knows.elim
  | pru =>
    cases b with
    | pru => exact boot_sat knows.1 knows.2.1 knows.2.2
    | initialised => exact start_clock_sat knows.1 knows.2
    | clock_set l iep_cnt => exact loop_sat knows.1 knows.2.1 (Nat.le_refl _) knows.2.2
    | loop l i => exact loop_sat knows.1 knows.2.1 knows.2.2.1 knows.2.2.2
    | pulse l i ts_pru => exact pulse_sat knows.1 knows.2.1 knows.2.2
    | poll l i ts_pru => exact poll_host_sat knows.1 knows.2.1 knows.2.2
    | polled l i ts_pru data => exact polled_sat knows.1 knows.2
    | wrote l i ts status => exact wrote_sat knows.1 knows.2
    | halted => exact halted_sat knows.1 knows.2
    | _ => exact knows.2.elim

/-! ### Whole runs -/

/-- The PRU has halted. -/
def Halted (c : Config Party Access Access.Answer Block World) : Prop := ∃ next, c.code .pru = .access .halt next

/-- The thread that prints waits for an interrupt. -/
def Waits (c : Config Party Access Access.Answer Block World) : Prop :=
  ∃ next, c.code .receive = .access .wait_evtout_0 next

/-- Every message follows the rounds that are due and shows the time of the host
    that the last of them has taken over, the host prints the messages in order,
    and when the PRU has halted and no interrupt is left it has printed them all. -/
structure Synchronises (c : Config Party Access Access.Answer Block World) : Prop where
  rounds : ∀ (j : Nat) (st : Store), c.shared.messages[j]? = some st → st.adjusted = (j + 1) / 5
  first : ∀ (j : Nat) (st : Store), c.shared.messages[j]? = some st → j < 4 →
    st.value = c.shared.sync.pru.init.shown st.count
  later : ∀ (j k : Nat) (st : Store), c.shared.messages[j]? = some st → (j + 1) / 5 = k + 1 →
    ∃ (event : ptp_extts_event) (r : Setting), c.shared.sync.events[k]? = some event ∧
      c.shared.sync.pru.rounds[k]? = some r ∧
      st.value = UInt64.ofInt ((nano_ts event).toNat + 5 * ((st.count : Int) - r.count))
  pulses : c.shared.sync.pru.rounds.length ≤ c.shared.sync.events.length ∧
    c.shared.sync.events.length ≤ c.shared.sync.pru.rounds.length + 1
  none_lost : c.shared.unsent = [] ∧ c.shared.sync.refused = []
  printed : c.shared.printed <+: c.shared.messages.map Store.value
  finished : Halted c → Finished c.shared
  all_printed : Halted c → Waits c → c.shared.evtout_0 = false → c.shared.printed = c.shared.messages.map Store.value

/-- What holds of the part of the world that the PRU and the sending thread
    share, before and after the start of the PRU. -/
theorem inv_sync (inv : Inv w) : PruClockSync.Inv w.sync ∨ ∃ m, w.sync = PruClock.initial 0 0 m := by
  by_cases on : w.exec = true
  · exact .inl (inv.sync on)
  · exact .inr (inv.before (by simpa using on)).2.2

theorem inv_pulses (inv : Inv w) :
    w.sync.pru.rounds.length ≤ w.sync.events.length ∧ w.sync.events.length ≤ w.sync.pru.rounds.length + 1 ∧ w.sync.refused = [] := by
  rcases inv_sync inv with sync | ⟨m,start⟩
  · have paced := sync.paced
    have := sync.consumed_first.length_le
    have := (carries_isPrefix sync.carries).length_le
    have := sync.sent_le
    have := sync.taken_le
    rw [PruClockSync.consumed,List.length_map] at *
    exact ⟨by omega,paced,sync.never_refused⟩
  · rw [start]
    exact ⟨Nat.le_refl _,Nat.zero_le _,rfl⟩

theorem message_later (inv : Inv w) {k : Nat} {st : Store} (member : st ∈ w.messages) (after : st.adjusted = k + 1) :
    ∃ (event : ptp_extts_event) (r : Setting), w.sync.events[k]? = some event ∧ w.sync.pru.rounds[k]? = some r ∧
      st.value = UInt64.ofInt ((nano_ts event).toNat + 5 * ((st.count : Int) - r.count)) := by
  obtain ⟨r,here,shown⟩ := inv.told.values st member
  rw [after] at here
  have here : w.sync.pru.rounds[k]? = some r := here
  rcases inv_sync inv with sync | ⟨m,start⟩
  · obtain ⟨event,found,same⟩ := PruClockSync.consumed_stamps sync here
    exact ⟨event,r,found,here,by rw [shown,Setting.shown,same]⟩
  · rw [start] at here
    simp [PruClock.initial] at here

theorem inv_printed (inv : Inv w) : w.printed <+: w.messages.map Store.value := by
  by_cases ready : w.ready = true
  · exact carries_isPrefix (inv.channel.carries ready)
  · have := (inv.channel.before (by simpa [channel] using ready)).2.1
    rw [show w.printed = [] from this]
    exact List.nil_prefix

/-- All calls succeed, there are ten counts between the readings, and every pulse is
    captured at 7 s and 50 ns. -/
def answer : Input := ⟨0,10,⟨sizeof_event,⟨⟨7,50⟩,0⟩⟩,⟨⟨7,50⟩,0⟩⟩

theorem holds_finished {c : Config Party Access Access.Answer Block World} (holds : outline.Holds c) (halted : Halted c) :
    Finished c.shared ∧ c.shared.owed = false := by
  obtain ⟨next,code⟩ := halted
  have sat := holds.sat .pru
  rw [code] at sat
  obtain ⟨_,⟨⟨free,finished⟩,_⟩,_⟩ := sat c.shared ⟨answer,by decide,by decide⟩ () c.shared (outline.refl _ _) holds.inv rfl
  exact ⟨finished rfl,free nofun⟩

/-- The thread waits only after it has found the ring buffer empty. -/
theorem holds_asleep {c : Config Party Access Access.Answer Block World} (holds : outline.Holds c) (ready : c.shared.ready = true)
    (waits : Waits c) : c.shared.draining = false := by
  obtain ⟨next,code⟩ := waits
  have inv : Inv c.shared := holds.inv
  have sat := holds.sat .receive
  rw [code] at sat
  -- The wait can be left in the same state with an interrupt pending.
  have channel' : TimeSyncReceive.Inv (channel { c.shared with evtout_0 := true }) :=
    ⟨inv.channel.executed,inv.channel.carries,fun off => absurd (ready.symm.trans off) (by simp),.inl rfl⟩
  have inv' : Inv { c.shared with evtout_0 := true } := channel_keeps inv channel' rfl rfl rfl rfl rfl
  obtain ⟨_,⟨place,_⟩,_⟩ := sat { c.shared with evtout_0 := true } ⟨answer,by decide,by decide⟩ ()
    { c.shared with evtout_0 := true } (TimeSyncReceive.outline.refl .receive (channel c.shared)) inv' rfl
  exact place rfl

theorem holds_synchronises {c : Config Party Access Access.Answer Block World} (holds : outline.Holds c) : Synchronises c := by
  have inv : Inv c.shared := holds.inv
  obtain ⟨behind,ahead,never_refused⟩ := inv_pulses inv
  refine ⟨inv.told.rounds,?_,?_,⟨behind,ahead⟩,⟨inv.unsent,never_refused⟩,inv_printed inv,
    fun halted => (holds_finished holds halted).1,?_⟩
  · intro j st here early
    have adjusted : st.adjusted = 0 := by rw [inv.told.rounds j st here]; omega
    obtain ⟨s,setting,shown⟩ := inv.told.values st (List.mem_of_getElem? here)
    rw [adjusted] at setting
    cases setting
    exact shown
  · intro j k st here round
    exact message_later inv (List.mem_of_getElem? here) ((inv.told.rounds j st here).trans round)
  · intro halted waits unpending
    obtain ⟨finished,free⟩ := holds_finished holds halted
    have ready : c.shared.ready = true := by
      by_contra off
      have none : c.shared.messages.map Store.value = [] := (inv.channel.before (by simpa [channel] using off)).1
      have := finished.messages
      rw [List.map_eq_nil_iff] at none
      simp [none] at this
    have asleep := holds_asleep holds ready waits
    rcases inv.channel.awake with pending | owed | draining | all
    · exact absurd (unpending.symm.trans pending) (by simp)
    · exact absurd (free.symm.trans owed) (by simp)
    · exact absurd (asleep.symm.trans draining) (by simp)
    · exact all

/-- The host starts, the PRU sends four messages and asks for a timestamp, the host
    sends it, and the PRU sends two more messages, before the host reads any. -/
def firstRound : List (Party × Input) :=
  List.replicate 13 (.main,answer) ++ List.replicate 41 (.pru,answer) ++ List.replicate 12 (.send,answer) ++
    List.replicate 30 (.pru,answer) ++ List.replicate 45 (.receive,answer)

end NeslPru.TimeSyncMessages
