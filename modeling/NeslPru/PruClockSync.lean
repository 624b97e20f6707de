import NeslPru.PruClockTime
import NeslPru.RbufferChannel

/-!
The synchronisation of `pru_clock` from end to end. Each round of the PRU sends
one pulse and waits for one timestamp, so that the host is never more than one
event behind and the ring buffer to the PRU holds at most the timestamp of the
current round.
-/
namespace NeslPru.PruClockSync
open NeslPru.Access NeslPru.RelyGuarantee NeslPru.HostQot NeslPru.PruTime NeslPru.Rbuffer NeslPru.RbufferQueue
open NeslPru.RbufferAtomic NeslPru.RbufferChannel NeslPru.PruClock
set_option linter.unusedSimpArgs false

variable {w w' : World}

/-- The timestamps of the pulses, in order. -/
def stamps (w : World) : List u64 := w.events.map nano_ts

/-- The timestamps that the clock has been set to, in order. -/
def consumed (w : World) : List u64 := w.pru.rounds.map Setting.time

/-- What only the PRU changes and what it knows of. -/
structure View where
  pulses : Nat
  received : List u64
  consumed : List u64

def view (w : World) : View := ⟨w.events.length,w.received,consumed w⟩

structure Inv (w : World) : Prop where
  carries : Carries w.rbuf w.sent w.received
  sent_first : w.sent <+: stamps w
  sent_le : w.sent.length ≤ w.taken
  taken_le : w.taken ≤ w.events.length
  consumed_first : consumed w <+: w.received
  paced : w.events.length ≤ (consumed w).length + 1
  never_refused : w.refused = []

/-- What the other party may do. -/
def Rely : Party → World → World → Prop
  | .pru, w, w' => w'.pru = w.pru ∧ w'.events = w.events ∧ w'.received = w.received ∧ Fills w.rbuf w'.rbuf
  | .host, w, w' => w'.taken = w.taken ∧ w'.sent = w.sent ∧ w.events <+: w'.events ∧ Drains w.rbuf w'.rbuf

/-- Between two rounds. -/
def Idle (v : View) : Prop := v.pulses = v.received.length ∧ v.consumed = v.received

/-- After the pulse of a round. -/
def Awaits (v : View) : Prop := v.pulses = v.received.length + 1 ∧ v.consumed = v.received

/-- After the timestamp of a round. -/
def Received (data : u64) (v : View) : Prop := v.pulses = v.received.length ∧ v.consumed ++ [data] = v.received

/-- What the PRU knows at the start of a block. -/
def Knows : Block → View → Prop
  | .top _, v => Idle v
  | .test _ _, v => Idle v
  | .pulse _ _, v => Idle v
  | .poll _ _, v => Awaits v
  | .polled l _ data, v => if l.status = 0 then Received data v else Awaits v
  | .adjusted _ _, v => Idle v
  | .event, _ => False
  | .wrote _ _, _ => False

def syncOutline : Outline Party ((system shared).limited Reads) where
  inv := Inv
  rely := Rely
  guar
    | .pru, _, w, w' => Rely .host w w'
    | .host, _, w, w' => Rely .pru w w'
  pre
    | .pru, b, w => Knows b (view w)
    | .host, b, w => body b = send_pru_thread ∧ w.taken = w.sent.length
  refl i w := by cases i <;> simp [Rely,fills_refl,drains_refl]
  trans i w w' w'' := by
    cases i
    · rintro ⟨pru,events,received,fills⟩ ⟨pru',events',received',fills'⟩
      exact ⟨pru'.trans pru,events'.trans events,received'.trans received,fills_trans fills fills'⟩
    · rintro ⟨taken,sent,events,drains⟩ ⟨taken',sent',events',drains'⟩
      exact ⟨taken'.trans taken,sent'.trans sent,events.trans events',drains_trans drains drains'⟩
  compat {i j a w w'} other := by
    cases i <;> cases j
    · exact absurd rfl other
    · exact id
    · exact id
    · exact absurd rfl other

/-- Nothing happens to the ring buffer, the events and the rounds. -/
structure Quiet (w w' : World) : Prop where
  rbuf : w'.rbuf = w.rbuf
  events : w'.events = w.events
  taken : w'.taken = w.taken
  received : w'.received = w.received
  sent : w'.sent = w.sent
  refused : w'.refused = w.refused
  rounds : w'.pru.rounds = w.pru.rounds

theorem quiet_keeps (inv : Inv w) (quiet : Quiet w w') : Inv w' ∧ Rely .host w w' := by
  refine ⟨⟨?_,?_,?_,?_,?_,?_,?_⟩,quiet.taken,quiet.sent,?_,?_⟩
  · rw [quiet.rbuf,quiet.sent,quiet.received]
    exact inv.carries
  · rw [quiet.sent,stamps,quiet.events]
    exact inv.sent_first
  · rw [quiet.sent,quiet.taken]
    exact inv.sent_le
  · rw [quiet.taken,quiet.events]
    exact inv.taken_le
  · rw [consumed,quiet.rounds,quiet.received]
    exact inv.consumed_first
  · rw [consumed,quiet.rounds,quiet.events]
    exact inv.paced
  · rw [quiet.refused]
    exact inv.never_refused
  · rw [quiet.events]
  · rw [quiet.rbuf]
    exact drains_refl _

theorem quiet_trans {w'' : World} (first : Quiet w w') (second : Quiet w' w'') : Quiet w w'' :=
  ⟨second.rbuf.trans first.rbuf,second.events.trans first.events,second.taken.trans first.taken,
    second.received.trans first.received,second.sent.trans first.sent,second.refused.trans first.refused,
    second.rounds.trans first.rounds⟩

theorem quiet_view (quiet : Quiet w w') : view w' = view w := by
  simp only [view,consumed,quiet.events,quiet.received,quiet.rounds]

theorem rely_view (relied : Rely .pru w w') : view w' = view w := by
  obtain ⟨pru,events,received,_⟩ := relied
  simp only [view,consumed,pru,events,received]

/-! ### The blocks of the PRU -/

/-- An access that is quiet, and the entry of a block after it. -/
theorem sat_quiet {K : View → Prop} {a : PruClock.Access} {f : a.Answer → Prog PruClock.Access Access.Answer Block}
    (knows : K (view w)) (quiet : ∀ {input w r t}, act shared a input w = some (r,t) → Quiet w t)
    (next : ∀ r t, K (view t) → Quiet t (((system shared).limited Reads).settle (f r) t) ∧ syncOutline.Sat .pru (f r) t) :
    syncOutline.Sat .pru (.access a f) w := by
  intro w₁ input r t relied (inv : Inv w₁) acted
  have here := quiet acted
  have knows_t : K (view t) := by
    rw [quiet_view here,rely_view relied]
    exact knows
  obtain ⟨settled,sat⟩ := next r t knows_t
  obtain ⟨inv',guar⟩ := quiet_keeps inv (quiet_trans here settled)
  exact ⟨inv',guar,sat⟩

theorem iep_cnt_quiet {input : Input} {r : Nat} (acted : act shared .iep_cnt input w = some (r,w')) : Quiet w w' := by
  cases acted
  exact ⟨rfl,rfl,rfl,rfl,rfl,rfl,rfl⟩

theorem store_ts_mem_quiet {ts : u64} {input : Input} {r : Unit}
    (acted : act shared (.store_ts_mem ts) input w = some (r,w')) : Quiet w w' := by
  cases acted
  exact ⟨rfl,rfl,rfl,rfl,rfl,rfl,rfl⟩

theorem store_time_sat {l : Locals} (idle : Idle (view w)) : syncOutline.Sat .pru (store_time l) w := by
  refine sat_quiet idle iep_cnt_quiet (fun n t idle => ⟨⟨rfl,rfl,rfl,rfl,rfl,rfl,rfl⟩,?_⟩)
  refine sat_quiet idle store_ts_mem_quiet (fun n t idle => ⟨⟨rfl,rfl,rfl,rfl,rfl,rfl,rfl⟩,?_⟩)
  exact idle

theorem top_sat {l : Locals} (idle : Idle (view w)) : syncOutline.Sat .pru (body (.top l)) w := by
  refine sat_quiet idle iep_cnt_quiet (fun n t idle => ⟨⟨rfl,rfl,rfl,rfl,rfl,rfl,rfl⟩,?_⟩)
  exact idle

theorem test_sat {l : Locals} {ts : u64} (idle : Idle (view w)) : syncOutline.Sat .pru (body (.test l ts)) w := by
  simp only [body]
  split
  · refine sat_quiet idle iep_cnt_quiet (fun n t idle => ⟨⟨rfl,rfl,rfl,rfl,rfl,rfl,rfl⟩,?_⟩)
    exact idle
  · exact store_time_sat idle

/-- A pulse adds its event. -/
theorem pulse_keeps (event : ptp_extts_event) (inv : Inv w) (idle : Idle (view w)) :
    Inv { w with events := w.events ++ [event] } ∧ Rely .host w { w with events := w.events ++ [event] } ∧
      Awaits (view { w with events := w.events ++ [event] }) := by
  obtain ⟨pulses,same⟩ := idle
  simp only [view] at pulses same
  refine ⟨⟨inv.carries,?_,inv.sent_le,?_,inv.consumed_first,?_,inv.never_refused⟩,⟨rfl,rfl,?_,drains_refl _⟩,?_,same⟩
  · refine inv.sent_first.trans ?_
    simp [stamps]
  · have := inv.taken_le
    simp
    omega
  · show (w.events ++ [event]).length ≤ (consumed w).length + 1
    rw [same,List.length_append,pulses]
    rfl
  · exact List.prefix_append _ _
  · simp [view,pulses]

theorem pulse_sat {l : Locals} {ts_pru : u64} (idle : Idle (view w)) :
    syncOutline.Sat .pru (body (.pulse l ts_pru)) w := by
  intro w₁ input r t relied (inv : Inv w₁) acted
  cases acted
  obtain ⟨inv',guar,awaits⟩ := pulse_keeps input.val.event inv (by rwa [rely_view relied])
  refine ⟨inv',guar,?_⟩
  refine sat_quiet awaits ?_ (fun n t awaits => ⟨⟨rfl,rfl,rfl,rfl,rfl,rfl,rfl⟩,awaits⟩)
  intro input w r t acted
  cases acted
  exact ⟨rfl,rfl,rfl,rfl,rfl,rfl,rfl⟩

/-- The ring buffer as a part of the world. -/
def component : Component ((system shared).limited Reads) Rbuffer.Access.Answer rbuffer :=
  .of World.rbuf (fun w m => { w with rbuf := m }) (fun _ _ => rfl) PruClock.Access.ring memory (fun _ _ _ => rfl)

/-- A poll receives the timestamp of the round or finds nothing. -/
theorem polled_keeps {l : Locals} (ts_pru : u64) {m : rbuffer} {result : u64 × Option Int16} (inv : Inv w)
    (awaits : Awaits (view w)) (read : Read words 2 (some l.status) w.rbuf result m) :
    let b := Block.polled { l with status := result.2.getD l.status } ts_pru result.1
    Inv (enter b { w with rbuf := m }) ∧ Rely .host w (enter b { w with rbuf := m }) ∧
      Knows b (view (enter b { w with rbuf := m })) := by
  obtain ⟨pulses,same⟩ := awaits
  simp only [view] at pulses same
  rcases carries_read inv.carries read with ⟨data,rfl,carries,drains⟩ | ⟨rfl,rfl,_⟩
  · refine ⟨⟨carries,inv.sent_first,inv.sent_le,inv.taken_le,?_,inv.paced,inv.never_refused⟩,
      ⟨rfl,rfl,List.prefix_refl _,drains⟩,?_,?_⟩
    · exact inv.consumed_first.trans (List.prefix_append _ _)
    · simpa [view,enter] using pulses
    · show consumed w ++ [data] = w.received ++ [data]
      rw [same]
  · exact ⟨inv,⟨rfl,rfl,List.prefix_refl _,drains_refl _⟩,pulses,same⟩

theorem poll_sat {l : Locals} {ts_pru : u64} (awaits : Awaits (view w)) :
    syncOutline.Sat .pru (body (.poll l ts_pru)) w := by
  refine syncOutline.sat_call component (fun w => Awaits (view w)) ?_ ?_ ?_ _
    (rbuf_read_uint64_atomic (some l.status) w.rbuf) awaits
  · intro w w' awaits relied inv
    refine ⟨?_,relied.2.2.2,inv.carries.inBounds⟩
    rwa [rely_view relied]
  · rintro a w m awaits inv ⟨rfl,_⟩
    exact ⟨awaits,inv,rfl,rfl,List.prefix_refl _,drains_refl _⟩
  · rintro ⟨data,status⟩ a w m awaits inv ⟨_,read⟩
    exact polled_keeps ts_pru inv awaits read

/-- The adjustment sets the clock to the timestamp that has been received. -/
theorem adjusted_keeps {l : Locals} {data : u64} (inv : Inv w) (received : Received data (view w)) :
    Inv (enter (.adjusted l data) w) ∧ Rely .host w (enter (.adjusted l data) w) ∧
      Idle (view (enter (.adjusted l data) w)) := by
  obtain ⟨pulses,same⟩ := received
  simp only [view] at pulses same
  have set : consumed (enter (.adjusted l data) w) = w.received := by
    rw [← same]
    simp [consumed,enter,record]
  refine ⟨⟨inv.carries,inv.sent_first,inv.sent_le,inv.taken_le,?_,?_,inv.never_refused⟩,
    ⟨rfl,rfl,List.prefix_refl _,drains_refl _⟩,pulses,set⟩
  · rw [set]
    exact List.prefix_refl _
  · rw [set]
    show w.events.length ≤ _
    omega

theorem polled_sat {l : Locals} {ts_pru data : u64} (knows : Knows (.polled l ts_pru data) (view w)) :
    syncOutline.Sat .pru (body (.polled l ts_pru data)) w := by
  refine sat_quiet knows iep_cnt_quiet (fun n t knows => ⟨⟨rfl,rfl,rfl,rfl,rfl,rfl,rfl⟩,?_⟩)
  by_cases again : l.status ≠ 0
  · simp only [Knows,if_neg again] at knows
    refine sat_quiet knows store_ts_mem_quiet (fun n t awaits => ?_)
    rw [if_pos again]
    exact ⟨⟨rfl,rfl,rfl,rfl,rfl,rfl,rfl⟩,awaits⟩
  · have done : l.status = 0 := by simpa using again
    simp only [Knows,if_pos done] at knows
    intro w₁ input r t₁ relied (inv : Inv w₁) acted
    have stored : Quiet w₁ t₁ := by
      cases acted
      exact ⟨rfl,rfl,rfl,rfl,rfl,rfl,rfl⟩
    obtain ⟨inv',guar⟩ := quiet_keeps inv stored
    have knows' : Received data (view t₁) := by rwa [quiet_view stored,rely_view relied]
    obtain ⟨inv'',guar',idle⟩ := adjusted_keeps inv' knows'
    rw [if_neg again]
    exact ⟨inv'',syncOutline.trans .host guar guar',idle⟩

/-! ### The thread of the host -/

theorem prefix_next {α : Type} {first all : List α} {next : α} (isPrefix : first <+: all)
    (here : all[first.length]? = some next) : first ++ [next] <+: all := by
  obtain ⟨rest,rfl⟩ := isPrefix
  cases rest with
  | nil => simp at here
  | cons value rest =>
    simp only [List.getElem?_append_right (Nat.le_refl _),Nat.sub_self,List.getElem?_cons_zero,Option.some.injEq] at here
    subst here
    exact ⟨rest,by simp⟩

/-- The host has read the event after the ones whose timestamps it has sent. -/
def HasRead (event : ptp_extts_event) (w : World) : Prop :=
  w.taken = w.sent.length + 1 ∧ w.events[w.sent.length]? = some event

theorem hasRead_rely {event : ptp_extts_event} (relied : Rely .host w w') (hasRead : HasRead event w) : HasRead event w' := by
  obtain ⟨taken,sent,⟨later,events⟩,_⟩ := relied
  obtain ⟨one_more,here⟩ := hasRead
  refine ⟨by rw [taken,sent,one_more],?_⟩
  have inside := (List.getElem?_eq_some_iff.mp here).1
  rw [sent,← events,List.getElem?_append_left inside,here]

/-- The ring buffer is empty when the host writes, so that the write succeeds. -/
theorem wrote_keeps {event : ptp_extts_event} {m : rbuffer} {status : Int16} (inv : Inv w) (hasRead : HasRead event w)
    (wrote : Wrote (words (nano_ts event)) w.rbuf status m) :
    let b := Block.wrote (nano_ts event) status
    Inv (enter b { w with rbuf := m }) ∧ Rely .pru w (enter b { w with rbuf := m }) ∧
      (enter b { w with rbuf := m }).taken = (enter b { w with rbuf := m }).sent.length := by
  obtain ⟨one_more,here⟩ := hasRead
  have empty : queued w.rbuf = 0 := by
    have := carries_queued inv.carries
    have := inv.consumed_first.length_le
    have := inv.taken_le
    have := inv.paced
    omega
  rcases carries_wrote inv.carries wrote with ⟨rfl,carries,fills⟩ | ⟨_,_,full⟩
  · refine ⟨⟨carries,?_,?_,inv.taken_le,inv.consumed_first,inv.paced,inv.never_refused⟩,⟨rfl,rfl,rfl,fills⟩,?_⟩
    · refine prefix_next inv.sent_first ?_
      show (w.events.map nano_ts)[w.sent.length]? = _
      rw [List.getElem?_map,here]
      rfl
    · show (w.sent ++ [nano_ts event]).length ≤ w.taken
      simp [one_more]
    · show w.taken = (w.sent ++ [nano_ts event]).length
      simp [one_more]
  · omega

theorem host_sat (caught_up : w.taken = w.sent.length) : syncOutline.Sat .host send_pru_thread w := by
  intro w₁ ⟨input,full⟩ result t relied (inv : Inv w₁) acted
  obtain ⟨⟨_,taken⟩,read,same⟩ := Option.map_eq_some_iff.mp acted
  cases same
  obtain ⟨event,here,rfl,rfl⟩ := read_event_full full read
  have caught_up₁ : w₁.taken = w₁.sent.length := by rw [relied.1,relied.2.1,caught_up]
  have inside := (List.getElem?_eq_some_iff.mp here).1
  have hasRead : HasRead event { w₁ with taken := w₁.taken + 1 } := by
    rw [caught_up₁] at here ⊢
    exact ⟨rfl,here⟩
  refine ⟨⟨inv.carries,inv.sent_first,?_,inside,inv.consumed_first,inv.paced,inv.never_refused⟩,
    ⟨rfl,rfl,rfl,fills_refl _⟩,?_⟩
  · show w₁.sent.length ≤ w₁.taken + 1
    omega
  · refine syncOutline.sat_call component (HasRead event) ?_ ?_ ?_ _
      (rbuf_write_uint64_atomic (nano_ts event) w₁.rbuf) hasRead
    · intro w w' hasRead relied inv
      exact ⟨hasRead_rely relied hasRead,relied.2.2.2,inv.carries.inBounds⟩
    · intro a w m hasRead inv unseen
      refine ⟨hasRead,⟨carries_unseen inv.carries unseen,inv.sent_first,inv.sent_le,inv.taken_le,inv.consumed_first,
        inv.paced,inv.never_refused⟩,rfl,rfl,rfl,unseen_fills unseen⟩
    · rintro status a w m hasRead inv ⟨_,wrote⟩
      obtain ⟨inv',guar,caught_up'⟩ := wrote_keeps inv hasRead wrote
      exact ⟨inv',guar,rfl,caught_up'⟩

theorem bodies_proved : syncOutline.Proved := by
  intro i b w _ knows
  cases i with
  | pru =>
    cases b with
    | top l => exact top_sat knows
    | test l ts => exact test_sat knows
    | pulse l ts_pru => exact pulse_sat knows
    | poll l ts_pru => exact poll_sat knows
    | polled l ts_pru data => exact polled_sat knows
    | adjusted l ts_host => exact store_time_sat knows
    | event => exact knows.elim
    | wrote nano_ts status => exact knows.elim
  | host =>
    obtain ⟨thread,caught_up⟩ := knows
    show syncOutline.Sat .host (body b) w
    rw [thread]
    exact host_sat caught_up

/-- Round `k` sets the clock to the timestamp of pulse `k`, at most one timestamp
    waits and none is refused, and what is stored after round `k` is that timestamp
    and 5 ns for each count since the reading `ts_pru` of the round. -/
structure Synchronised (w : World) : Prop where
  rounds : ∀ (k : Nat) (r : Setting), w.pru.rounds[k]? = some r → ∃ event, w.events[k]? = some event ∧ r.time = nano_ts event
  pulses : w.pru.rounds.length ≤ w.events.length ∧ w.events.length ≤ w.pru.rounds.length + 1
  one_waits : (contents w.rbuf).length ≤ 2
  never_refused : w.refused = []
  stored : ∀ st ∈ w.pru.stores, ∀ k, st.adjusted = k + 1 →
    ∃ (event : ptp_extts_event) (r : Setting), w.events[k]? = some event ∧ w.pru.rounds[k]? = some r ∧
      st.value = UInt64.ofInt ((nano_ts event).toNat + 5 * ((st.count : Int) - r.count))

theorem consumed_stamps (inv : Inv w) {k : Nat} {r : Setting} (here : w.pru.rounds[k]? = some r) :
    ∃ event, w.events[k]? = some event ∧ r.time = nano_ts event := by
  have taken : consumed w <+: stamps w := (inv.consumed_first.trans (carries_isPrefix inv.carries)).trans inv.sent_first
  have there : (consumed w)[k]? = some r.time := by
    rw [consumed,List.getElem?_map,here]
    rfl
  obtain ⟨rest,all⟩ := taken
  have inside := (List.getElem?_eq_some_iff.mp there).1
  rw [← List.getElem?_append_left inside,all,stamps,List.getElem?_map,Option.map_eq_some_iff] at there
  obtain ⟨event,found,same⟩ := there
  exact ⟨event,found,same.symm⟩

theorem synchronised (inv : Inv w) (timed : PruClockTime.Timed w.pru) : Synchronised w := by
  have rounds_le : (consumed w).length ≤ w.events.length := by
    have := inv.consumed_first.length_le
    have := (carries_isPrefix inv.carries).length_le
    have := inv.sent_le
    have := inv.taken_le
    omega
  refine ⟨fun k r here => consumed_stamps inv here,?_,?_,inv.never_refused,?_⟩
  · have paced := inv.paced
    rw [consumed,List.length_map] at rounds_le paced
    exact ⟨rounds_le,paced⟩
  · have := carries_queued inv.carries
    have := inv.consumed_first.length_le
    have := inv.sent_le
    have := inv.taken_le
    have := inv.paced
    rw [length_contents]
    omega
  · intro st member k after
    obtain ⟨r,here,shown⟩ := timed.stores st member k after
    obtain ⟨event,found,same⟩ := consumed_stamps inv here
    exact ⟨event,r,found,here,by rw [shown,Setting.shown,same]⟩

/-- Along every run whose readings are near and whose reads are full. -/
theorem run_synchronised (iep_cnt : UInt32) (count : Nat) {schedule : List (Party × Input)}
    (near : ∀ move ∈ schedule, Near move.2) (full : ∀ move ∈ schedule, Reads move.2) :
    Synchronised ((system shared).run ((system shared).start (initial iep_cnt count fresh) (first iep_cnt count)) schedule).shared := by
  refine synchronised ?_ (PruClockTime.run_timed iep_cnt count fresh near)
  obtain ⟨limited,same⟩ := (system shared).exists_limited
    ((system shared).start (initial iep_cnt count fresh) (first iep_cnt count)) full
  rw [← same]
  refine (syncOutline.sound bodies_proved ?_ ?_ limited).inv
  · exact ⟨carries_fresh,List.nil_prefix,Nat.le_refl _,Nat.le_refl _,List.nil_prefix,Nat.zero_le _,rfl⟩
  · intro i
    cases i with
    | pru => exact ⟨rfl,rfl⟩
    | host => exact ⟨rfl,rfl⟩

/-- However the host thread and the loop of the PRU interleave, whatever the
    events and the counts at the readings, the clock is synchronised. -/
theorem pru_clock_synchronised (iep_cnt : UInt32) (count : Nat) (m : rbuffer) (schedule : List (Party × Input))
    (near : ∀ move ∈ schedule, Near move.2) (full : ∀ move ∈ schedule, Reads move.2) :
    Synchronised ((system shared).run ((system shared).start
      (initial iep_cnt count (init_rbuffer.exec memory m).2) (first iep_cnt count)) schedule).shared :=
  run_synchronised iep_cnt count near full

/-- Ten counts between the readings, and an event at 7 s and 50 ns. -/
def oneRound : Input := ⟨10,⟨sizeof_event,⟨⟨7,50⟩,0⟩⟩,⟨⟨7,50⟩,0⟩,fun a => (memory a fresh).1⟩

/-- A round from the pulse to the second time that is stored. -/
def round : List (Party × Input) :=
  List.replicate 4 (.pru,oneRound) ++ List.replicate 7 (.host,oneRound) ++ List.replicate 10 (.pru,oneRound)

theorem one_round_synchronised :
    let w := ((system shared).run ((system shared).start (initial 0 0 fresh) (first 0 0)) round).shared
    Synchronised w ∧ w.pru.stores.map Store.value = [150,7000000150] :=
  ⟨pru_clock_synchronised 0 0 fresh round (by decide) (by decide),by decide +kernel⟩

end NeslPru.PruClockSync
