import NeslPru.MeasureProgram
import NeslPru.Projection
import NeslPru.Stats
import NeslPru.TimeSyncReceive

/-!
The reports of `measure_time_sync` from the pin of the PRU to the statistics. In
the whole program the messages are those of `TimeSyncReceive` (`messages`) and the
handlers those of `ReportThreads` (`handlers`), so that both of their outlines
hold of every run (`reports_measured`).
-/
namespace NeslPru.MeasureReports
open NeslPru.Access NeslPru.HostQot NeslPru.MeasureProgram NeslPru.Projection
open NeslPru.Rbuffer hiding Access
open NeslPru.MeasureSync (Globals Locals)
set_option linter.unusedSimpArgs false

variable {w t : World}

/-! ### The messages of the PRU -/

/-- What the messages of the PRU depend on. `send_to_pru` is the ring buffer of the
    host as `main` leaves it. -/
def messagesOf (w : World) (send_to_pru : rbuffer) : TimeSyncReceive.World where
  rbuf := w.from_pru
  send_to_pru := send_to_pru
  exec := w.exec
  thread := w.receive_thread
  pending := w.evtout_0
  ready := w.ready
  owed := w.owed
  draining := w.draining
  accepted := w.accepted
  delivered := w.reports.reports

def SeesMessages (w : World) (w₀ : TimeSyncReceive.World) : Prop := ∃ n, w₀ = messagesOf w n

abbrev MessageCode := Prog TimeSyncReceive.Access TimeSyncReceive.Access.Answer TimeSyncReceive.Block

def AtWait (p₀ : Option MessageCode) : Prop := ∃ next, p₀ = some (.access .wait_event next)
def AtTrig (p₀ : Option MessageCode) : Prop := ∃ next, p₀ = some (.access .trig_intc next)

/-- Where the parts of `TimeSyncReceive` are when a party enters a block. -/
def standsMessages : Block → Option MessageCode → Prop
  | .main, p₀ => p₀ = some TimeSyncReceive.main
  | .started, p₀ => ¬ AtTrig p₀
  | .returned, p₀ => ¬ AtTrig p₀
  | .receive_pru_thread, p₀ => p₀ = some (TimeSyncReceive.body .thread)
  | .woken, p₀ => p₀ = some (TimeSyncReceive.body .woken)
  | .drain, p₀ => p₀ = some TimeSyncReceive.poll
  | .read data status, p₀ => p₀ = some (TimeSyncReceive.body (.polled data status))
  | .stored_pru _, p₀ => p₀ = some TimeSyncReceive.poll
  | .handled_report _, p₀ => p₀ = some TimeSyncReceive.poll
  | .pru .main, p₀ => p₀ = some (TimeSyncReceive.body .pru)
  | .pru _, p₀ => p₀ = some TimeSyncReceive.send
  | .initialised, p₀ => p₀ = some TimeSyncReceive.send
  | .wrote _ _ ts status, p₀ => p₀ = some (TimeSyncReceive.body (.wrote ts status))
  | _, p₀ => p₀ = none

/-- The reads of the ring buffer, the waits and the interrupts are the same. -/
structure MarksMessages (a : Access) (p₀ : Option MessageCode) : Prop where
  ring : ∀ b, a = .from_pru b → ∃ next, p₀ = some (.access (.ring b) next)
  waits : a = .wait_evtout_0 → AtWait p₀
  trigs : AtTrig p₀ → a = .pru (.trig_intc 3)

def messages : View Party TimeSyncReceive.Party system TimeSyncReceive.system where
  part
    | .main => some .main
    | .receive => some .receive
    | .pru => some .pru
    | _ => none
  part_inj := by
    intro i j i₀ first second
    cases i <;> cases j <;> first | rfl | cases first <;> cases second
  sees := SeesMessages
  stands := standsMessages
  marks := MarksMessages

/-- Accesses that have nothing to do with the messages. -/
def NoMessage : Access → Prop
  | .result f => f ≠ .create_receive
  | .memset => False
  | .exec_program => False
  | .created_receive => False
  | .wait_evtout_0 => False
  | .clear_evtout_0 => False
  | .from_pru _ => False
  | .executed => False
  | .pru (.send _) => False
  | .pru (.trig_intc n) => n ≠ 3
  | _ => True

/-- The accesses of the PRU that are those of `MeasureSync`. -/
def OfClock : MeasureSync.Access → Prop
  | .send _ => False
  | .receive _ => False
  | .trig_intc _ => False
  | .assert_pin _ => False
  | .deassert_pin _ => False
  | _ => True

theorem clock_act {a : MeasureSync.Access} {input : Input} {r : a.Answer} (clock : OfClock a)
    (acted : system.act (.pru a) input w = some (r,t)) : ∃ pru, t = { w with pru := pru } := by
  have maps : system.act (.pru a) input w = (MeasureSync.act a input.pru w.pru).map fun answer => (answer.1,{ w with pru := answer.2 }) := by
    cases a <;> first | rfl | exact clock.elim
  rw [maps] at acted
  cases made : MeasureSync.act a input.pru w.pru with
  | none => simp [made] at acted
  | some answer =>
    rw [made] at acted
    cases acted
    exact ⟨_,rfl⟩

theorem noMessage_act {a : Access} {input : Input} {w₀ : TimeSyncReceive.World} {r : a.Answer} (none_of : NoMessage a)
    (seen : SeesMessages w w₀) (acted : system.act a input w = some (r,t)) : SeesMessages t w₀ := by
  cases a with
  | result f =>
    obtain ⟨n,rfl⟩ := seen
    have other : f ≠ .create_receive := none_of
    cases acted
    exact ⟨n,by simp [messagesOf,other]⟩
  | wait_evtout_1 | created_send =>
    simp only [system,act] at acted
    split at acted <;> cases acted
    exact seen
  | read_event =>
    obtain ⟨_,_,same⟩ := Option.map_eq_some_iff.mp acted
    cases same
    exact seen
  | pru a =>
    by_cases clock : OfClock a
    · obtain ⟨pru,rfl⟩ := clock_act clock acted
      exact seen
    · cases a with
      | send a => exact none_of.elim
      | trig_intc n =>
        obtain ⟨m,rfl⟩ := seen
        have other : n ≠ 3 := none_of
        cases acted
        exact ⟨m,by simp [messagesOf,other]⟩
      | receive a | assert_pin pin | deassert_pin pin =>
        cases acted
        exact seen
      | _ => exact absurd trivial clock
  | store_stop | idle | load_stop | vars a | to_pru a | edge =>
    cases acted
    exact seen
  | _ => exact none_of.elim

/-- Entering a block says something about the messages only here. -/
def Entry : Block → Prop
  | .woken => True
  | .read _ _ => True
  | .initialised => True
  | .wrote _ _ _ _ => True
  | _ => False

theorem entry_unseen {b : Block} {w₀ : TimeSyncReceive.World} (none_of : ¬ Entry b) (seen : SeesMessages w w₀) :
    SeesMessages (enter b w) w₀ := by
  cases b with
  | woken | read data status | initialised | wrote rest g ts status => exact absurd trivial none_of
  | _ => exact seen

variable {p₀ : Option MessageCode}

theorem marks_silent {a : Access} (not_read : ∀ b, a ≠ .from_pru b) (not_wait : a ≠ .wait_evtout_0) (free : ¬ AtTrig p₀) :
    MarksMessages a p₀ :=
  ⟨fun b same => absurd same (not_read b),fun same => absurd same not_wait,fun trigs => absurd trigs free⟩

theorem marks_hidden {a : Access} (none_of : NoMessage a) (free : ¬ AtTrig p₀) : MarksMessages a p₀ := by
  refine marks_silent ?_ ?_ free
  · rintro b rfl
    exact none_of.elim
  · rintro rfl
    exact none_of.elim

theorem hidden_follows {B : Block → Prop} (ends : ∀ b, B b → ¬ Entry b ∧ standsMessages b p₀) (free : ¬ AtTrig p₀)
    {p : Code} (only : p.Only NoMessage B) : messages.Follows p p₀ :=
  View.follows_only (fun _ none_of => marks_hidden none_of free) (fun none_of => noMessage_act none_of)
    (fun ended => entry_unseen (ends _ ended).1) (fun b ended => (ends b ended).2) only

theorem returned_ends : ∀ b, b = .returned → ¬ AtTrig p₀ → ¬ Entry b ∧ standsMessages b p₀ := by
  rintro _ rfl free
  exact ⟨id,free⟩

theorem check_follows {f : TimeSyncProgram.Call} {next : Code} (other : f ≠ .create_receive) (free : ¬ AtTrig p₀)
    (more : next.isAccess = true) (follows : messages.Follows next p₀) : messages.Follows (check f next) p₀ := by
  refine ⟨marks_hidden other free,fun input w w₀ r t seen acted => ⟨p₀,w₀,View.Turn.none,?_⟩⟩
  have seen' := noMessage_act (show NoMessage (.result f) from other) seen acted
  show messages.sees (system.settle (if r ≠ 0 then .ret .returned else next) t) w₀ ∧
    messages.Follows (if r ≠ 0 then .ret .returned else next) p₀
  by_cases failed : r ≠ 0
  · rw [if_pos failed]
    exact ⟨seen',free⟩
  · rw [if_neg failed,System.settle_of_isAccess _ more]
    exact ⟨seen',follows⟩

/-- At no interrupt. -/
theorem not_atTrig {a : TimeSyncReceive.Access} {next : a.Answer → MessageCode} (other : a ≠ .trig_intc) :
    ¬ AtTrig (some (.access a next)) := by
  rintro ⟨next',same⟩
  cases same
  exact other rfl

theorem teardown_follows (free : ¬ AtTrig p₀) : messages.Follows teardown p₀ :=
  hidden_follows (B := fun b => b = .returned) (fun b ended => returned_ends b ended free) free
    ⟨trivial,fun _ => ⟨trivial,fun _ => ⟨nofun,fun _ => rfl⟩⟩⟩

/-- After its start-up `main` only waits. -/
theorem ended_follows : messages.Follows (check .create_send (return .started)) (some (TimeSyncReceive.body .ended)) := by
  have free : ¬ AtTrig (some (TimeSyncReceive.body .ended)) := not_atTrig nofun
  refine ⟨marks_hidden (show NoMessage (.result .create_send) from nofun) free,fun input w w₀ r t seen acted => ?_⟩
  have seen' := noMessage_act (show NoMessage (.result .create_send) from nofun) seen acted
  refine ⟨_,w₀,View.Turn.none,?_⟩
  show messages.sees (system.settle (if r ≠ 0 then .ret .returned else .ret .started) t) w₀ ∧
    messages.Follows (if r ≠ 0 then .ret .returned else .ret .started) _
  by_cases failed : r ≠ 0
  · rw [if_pos failed]
    exact ⟨seen',free⟩
  · rw [if_neg failed]
    exact ⟨seen',free⟩

theorem start_threads_follows : messages.Follows start_threads (some (do
    Prog.call TimeSyncReceive.Access.exec_program
    Prog.call TimeSyncReceive.Access.create_thread
    return .ended)) := by
  refine ⟨marks_silent (by simp) (by simp) (not_atTrig (by simp)),?_⟩
  rintro input w _ r t ⟨n,rfl⟩ acted
  cases acted
  refine ⟨_,_,.inr ⟨_,_,0,_,_,rfl,rfl,rfl,rfl⟩,⟨n,rfl⟩,?_⟩
  refine ⟨marks_silent (by simp) (by simp) (not_atTrig (by simp)),?_⟩
  rintro input w _ r t ⟨n,rfl⟩ acted
  cases acted
  by_cases failed : input.result ≠ 0
  · refine ⟨_,_,View.Turn.none,?_⟩
    show messages.sees (system.settle (if input.result ≠ 0 then .ret .returned else check .create_send (return .started)) _) _ ∧
      messages.Follows (if input.result ≠ 0 then .ret .returned else check .create_send (return .started)) _
    rw [if_pos failed]
    exact ⟨⟨n,by simp [messagesOf,system,System.settle,enter,failed]⟩,not_atTrig nofun⟩
  · refine ⟨_,_,.inr ⟨_,_,0,_,_,rfl,rfl,rfl,rfl⟩,?_⟩
    show messages.sees (system.settle (if input.result ≠ 0 then .ret .returned else check .create_send (return .started)) _) _ ∧
      messages.Follows (if input.result ≠ 0 then .ret .returned else check .create_send (return .started)) _
    rw [if_neg failed]
    refine ⟨⟨n,?_⟩,ended_follows⟩
    change ({ messagesOf w n with thread := true } : TimeSyncReceive.World) = _
    have succeeded : input.result = 0 := by simpa using failed
    simp [messagesOf,system,System.settle,check,succeeded]

theorem main_follows : messages.Follows main (some TimeSyncReceive.main) := by
  have free : ¬ AtTrig (some TimeSyncReceive.main) := not_atTrig nofun
  refine check_follows nofun free rfl (check_follows nofun free rfl (check_follows nofun free rfl
    (check_follows nofun free rfl ?_)))
  refine ⟨marks_silent (by simp) (by simp) free,?_⟩
  rintro input w _ r t ⟨n,rfl⟩ acted
  cases acted
  refine ⟨_,_,.inr ⟨_,_,0,_,_,rfl,rfl,rfl,rfl⟩,⟨TimeSyncReceive.zeroed,rfl⟩,?_⟩
  -- The three stores of `init_rbuffer`.
  refine ⟨marks_silent (by simp) (by simp) (not_atTrig (by simp)),?_⟩
  rintro input w _ r t ⟨n,rfl⟩ acted
  cases acted
  refine ⟨_,_,.inr ⟨_,_,0,_,_,rfl,rfl,rfl,rfl⟩,⟨_,rfl⟩,?_⟩
  refine ⟨marks_silent (by simp) (by simp) (not_atTrig (by simp)),?_⟩
  rintro input w _ r t ⟨n,rfl⟩ acted
  cases acted
  refine ⟨_,_,.inr ⟨_,_,0,_,_,rfl,rfl,rfl,rfl⟩,⟨_,rfl⟩,?_⟩
  refine ⟨marks_silent (by simp) (by simp) (not_atTrig (by simp)),?_⟩
  rintro input w _ r t ⟨n,rfl⟩ acted
  cases acted
  refine ⟨_,_,.inr ⟨_,_,0,_,_,rfl,rfl,rfl,rfl⟩,⟨_,rfl⟩,?_⟩
  exact check_follows nofun (not_atTrig nofun) rfl start_threads_follows

/-! The thread that receives -/

theorem wait_follows : messages.Follows wait_pru (some TimeSyncReceive.wait) := by
  have free : ¬ AtTrig (some TimeSyncReceive.wait) := not_atTrig nofun
  refine ⟨marks_hidden (show NoMessage .load_stop from trivial) free,fun input w w₀ r t seen acted => ⟨_,w₀,View.Turn.none,?_⟩⟩
  have seen' := noMessage_act (show NoMessage .load_stop from trivial) seen acted
  cases r with
  | true => exact ⟨seen',free⟩
  | false =>
    refine ⟨seen',⟨nofun,fun _ => ⟨_,rfl⟩,fun trigs => absurd trigs free⟩,?_⟩
    rintro input w _ r t ⟨n,rfl⟩ acted
    simp only [system,act] at acted
    split at acted
    · rename_i pending
      cases acted
      have acts : TimeSyncReceive.system.act .wait_event 0 (messagesOf w n) = some ((),messagesOf w n) := if_pos pending
      exact ⟨_,_,.inr ⟨_,_,0,_,_,rfl,acts,rfl,rfl⟩,⟨n,rfl⟩,rfl⟩
    · cases acted

theorem created_follows : messages.Follows (body .receive_pru_thread) (some (TimeSyncReceive.body .thread)) := by
  refine ⟨marks_silent (by simp) (by simp) (not_atTrig (by simp)),?_⟩
  rintro input w _ r t ⟨n,rfl⟩ acted
  simp only [system,act] at acted
  split at acted
  · rename_i created
    cases acted
    have acts : TimeSyncReceive.system.act .created 0 (messagesOf w n) = some ((),messagesOf w n) := if_pos created
    exact ⟨_,_,.inr ⟨_,_,0,_,_,rfl,acts,rfl,rfl⟩,⟨n,rfl⟩,wait_follows⟩
  · cases acted

theorem woken_follows : messages.Follows (body .woken) (some (TimeSyncReceive.body .woken)) := by
  refine ⟨marks_silent (by simp) (by simp) (not_atTrig (by simp)),?_⟩
  rintro input w _ r t ⟨n,rfl⟩ acted
  cases acted
  exact ⟨_,_,.inr ⟨_,_,0,_,_,rfl,rfl,rfl,rfl⟩,⟨n,rfl⟩,rfl⟩

theorem read_follows : messages.Follows read_pru (some TimeSyncReceive.poll) := by
  refine View.follows_embed ?_ ?_ ?_ (rbuf_read_uint64 (some 0)) rfl
  · intro a next₀
    refine ⟨?_,nofun,fun trigs => absurd trigs (not_atTrig nofun)⟩
    rintro b same
    cases same
    exact ⟨next₀,rfl⟩
  · rintro a input w _ r t ⟨n,rfl⟩ acted
    cases acted
    exact ⟨0,_,_,rfl,rfl,n,rfl⟩
  · rintro ⟨data,status⟩ w _ ⟨n,rfl⟩
    refine ⟨?_,rfl⟩
    show SeesMessages (enter (.read data (status.getD 0)) w) (TimeSyncReceive.enter (.polled data (status.getD 0)) (messagesOf w n))
    by_cases found : status.getD 0 = 0
    · simp only [enter,TimeSyncReceive.enter,found,↓reduceIte]
      exact ⟨n,rfl⟩
    · simp only [enter,TimeSyncReceive.enter,found,↓reduceIte]
      exact ⟨n,rfl⟩

/-- The handlers are not seen. -/
theorem handler_follows {p : Prog ReportThreads.Vars ReportThreads.Vars.Answer Unit} {b : Block} (unseen : ¬ Entry b)
    (stands : standsMessages b (some TimeSyncReceive.poll)) :
    messages.Follows (onVars p >>= fun _ => .ret b) (some TimeSyncReceive.poll) := by
  have free : ¬ AtTrig (some TimeSyncReceive.poll) := not_atTrig nofun
  refine hidden_follows (B := fun b' => b' = b) ?_ free ?_
  · rintro _ rfl
    exact ⟨unseen,stands⟩
  · exact Prog.only_bind (Prog.only_embed (Prog.only_any (fun _ => trivial) p)) fun _ _ => rfl

theorem read_block_follows (data : UInt64) (status : Int16) :
    messages.Follows (body (.read data status)) (some (TimeSyncReceive.body (.polled data status))) := by
  by_cases found : status = 0
  · simp only [body,TimeSyncReceive.body,found,↓reduceIte]
    have free : ¬ AtTrig (some TimeSyncReceive.poll) := not_atTrig nofun
    refine hidden_follows (B := fun b => b = .stored_pru data) ?_ free ⟨trivial,fun _ => rfl⟩
    rintro _ rfl
    exact ⟨id,rfl⟩
  · simp only [body,TimeSyncReceive.body,found,↓reduceIte]
    exact wait_follows

/-! The other thread -/

/-- The blocks of the thread that sends. -/
def Sends : Block → Prop
  | .returned => True
  | .sending _ => True
  | .sent _ _ _ => True
  | .rising _ _ => True
  | .stored_host _ _ => True
  | .handled_edge _ _ => True
  | .falling _ _ => True
  | _ => False

theorem none_free : ¬ AtTrig none := by
  rintro ⟨next,same⟩
  cases same

theorem sends_unseen : ∀ b, Sends b → ¬ Entry b ∧ standsMessages b none := by
  intro b sends
  cases b with
  | returned => exact ⟨id,none_free⟩
  | sending | sent | rising | stored_host | handled_edge | falling => exact ⟨id,rfl⟩
  | _ => exact sends.elim

theorem send_only (i : Int32) : (send_host i).Only NoMessage Sends := by
  refine ⟨trivial,fun stop => ?_⟩
  cases stop with
  | true => exact trivial
  | false =>
    refine ⟨trivial,fun result => ?_⟩
    show Prog.Only _ _ (if result.event.index.toInt32 = 0 then
        onToPru (rbuf_write_uint64 (qot_read_event_ts result 0).1) >>= fun status =>
          .ret (Block.sent i (qot_read_event_ts result 0).1 status)
      else if result.event.index.toInt32 = 1 then
        if i % 2 ≠ 0 then .ret (Block.rising (i + 1) (qot_read_event_ts result 0).1)
        else .ret (Block.falling (i + 1) (qot_read_event_ts result 0).1)
      else .ret (Block.sending i))
    split
    · exact Prog.only_bind (Prog.only_embed (Prog.only_any (fun _ => trivial) _)) fun _ _ => trivial
    · split
      · split <;> exact trivial
      · exact trivial

theorem send_follows (i : Int32) : messages.Follows (send_host i) none :=
  hidden_follows sends_unseen none_free (send_only i)

/-! The PRU -/

theorem boot_follows : messages.Follows (body (.pru .main)) (some (TimeSyncReceive.body .pru)) := by
  refine ⟨marks_silent (by simp) (by simp) (not_atTrig (by simp)),?_⟩
  rintro input w _ r t ⟨n,rfl⟩ acted
  simp only [system,act] at acted
  split at acted
  · rename_i executed
    cases acted
    have acts : TimeSyncReceive.system.act .executed 0 (messagesOf w n) = some ((),messagesOf w n) := if_pos executed
    refine ⟨_,_,.inr ⟨_,_,0,_,_,rfl,acts,rfl,rfl⟩,⟨n,rfl⟩,?_⟩
    show messages.Follows (onSend init_rbuffer >>= fun _ => .ret .initialised)
      (some (TimeSyncReceive.onRing init_rbuffer >>= fun _ => .ret .initialised))
    refine View.follows_embed ?_ ?_ ?_ init_rbuffer rfl
    · exact fun a next₀ => marks_silent (by simp) (by simp) (not_atTrig (by simp))
    · rintro a input w _ r t ⟨n,rfl⟩ acted
      cases acted
      exact ⟨0,_,_,rfl,rfl,n,rfl⟩
    · rintro _ w _ ⟨n,rfl⟩
      exact ⟨⟨n,rfl⟩,rfl⟩
  · cases acted

/-- Between two reports. -/
theorem send_free : ¬ AtTrig (some TimeSyncReceive.send) := not_atTrig nofun

theorem report_follows (g : Globals) (rest : Rest) : messages.Follows (report g rest) (some TimeSyncReceive.send) := by
  refine ⟨marks_silent (by simp) (by simp) send_free,?_⟩
  rintro input w _ ts t ⟨n,rfl⟩ acted
  obtain ⟨pru,rfl⟩ := clock_act (show OfClock .iep_get_time from trivial) acted
  refine ⟨_,_,.inr ⟨_,_,ts,_,_,rfl,rfl,rfl,rfl⟩,⟨n,rfl⟩,?_⟩
  show messages.Follows (onSend (rbuf_write_uint64 ts) >>= fun status => .ret (.wrote rest g ts status))
    (some (TimeSyncReceive.onRing (rbuf_write_uint64 ts) >>= fun status => .ret (.wrote ts status)))
  refine View.follows_embed ?_ ?_ ?_ (rbuf_write_uint64 ts) rfl
  · exact fun a next₀ => marks_silent (by simp) (by simp) (not_atTrig (by simp))
  · rintro a input w _ r t ⟨n,rfl⟩ acted
    cases acted
    exact ⟨0,_,_,rfl,rfl,n,rfl⟩
  · rintro status w _ ⟨n,rfl⟩
    exact ⟨⟨n,rfl⟩,rfl⟩

theorem check_pin_follows (g : Globals) (rest : Rest) : messages.Follows (check_pin g rest) (some TimeSyncReceive.send) := by
  have ends : ∀ g, standsMessages (.pru (rest.block g)) (some TimeSyncReceive.send) := by
    intro g
    cases rest <;> exact rfl
  have unseen : NoMessage (.pru (.read_pin MeasureSync.P8_45)) := trivial
  refine ⟨marks_hidden unseen send_free,fun input w w₀ pin t seen acted => ⟨_,w₀,View.Turn.none,?_⟩⟩
  have seen' := noMessage_act unseen seen acted
  show messages.sees (system.settle (if g.input_high = false then if pin ≠ 0 then report g rest else .ret (.pru (rest.block g))
      else if pin = 0 then .ret (.pru (rest.block { g with input_high := false })) else .ret (.pru (rest.block g))) t) w₀ ∧
    messages.Follows (if g.input_high = false then if pin ≠ 0 then report g rest else .ret (.pru (rest.block g))
      else if pin = 0 then .ret (.pru (rest.block { g with input_high := false })) else .ret (.pru (rest.block g))) _
  split
  · split
    · exact ⟨seen',report_follows g rest⟩
    · exact ⟨seen',ends g⟩
  · split
    · exact ⟨seen',ends _⟩
    · exact ⟨seen',ends g⟩

theorem poll_follows (g : Globals) (l : Locals) : messages.Follows (poll g l) (some TimeSyncReceive.send) := by
  refine View.follows_silent (fun a => marks_hidden (show NoMessage (.pru (.receive a)) from trivial) send_free) ?_ ?_ _ rfl
  · intro a input w w₀ r t seen acted
    exact noMessage_act (show NoMessage (.pru (.receive a)) from trivial) seen acted
  · rintro ⟨host_ts,status⟩ w w₀ seen
    exact ⟨_,w₀,View.Turn.none,seen,check_pin_follows g _⟩

theorem wrote_follows (rest : Rest) (g : Globals) (ts : UInt64) (status : Int16) :
    messages.Follows (body (.wrote rest g ts status)) (some (TimeSyncReceive.body (.wrote ts status))) := by
  refine ⟨⟨nofun,nofun,fun _ => rfl⟩,?_⟩
  rintro input w _ r t ⟨n,rfl⟩ acted
  cases acted
  refine ⟨_,_,.inr ⟨_,_,0,_,_,rfl,rfl,rfl,rfl⟩,⟨n,?_⟩,?_⟩
  · have told : ({ messagesOf w n with pending := true, owed := false } : TimeSyncReceive.World) =
        messagesOf { w with evtout_0 := w.evtout_0 || decide (3 = 3), owed := w.owed && decide (3 ≠ 3) } n := by
      simp [messagesOf]
    exact told
  · cases rest <;> exact rfl

/-- The blocks of the PRU after its start. -/
def Runs (b : Block) : Prop := ∃ b', b = .pru b' ∧ b' ≠ .main

theorem runs_unseen : ∀ b, Runs b → ¬ Entry b ∧ standsMessages b (some TimeSyncReceive.send) := by
  rintro _ ⟨b',rfl,started⟩
  cases b' with
  | main => exact absurd rfl started
  | _ => exact ⟨id,rfl⟩

theorem uncut_follows {b : MeasureSync.Block}
    (only : (MeasureSync.body b).Only (fun a => NoMessage (.pru a)) (fun b => b ≠ .main)) :
    messages.Follows (uncut b) (some TimeSyncReceive.send) :=
  hidden_follows runs_unseen send_free (Prog.only_bind (Prog.only_embed only) fun b started => ⟨b,rfl,started⟩)

theorem pru_follows {b : MeasureSync.Block} (started : b ≠ .main) :
    messages.Follows (pru b) (some TimeSyncReceive.send) := by
  cases b with
  | main => exact absurd rfl started
  | top g l =>
    apply uncut_follows
    simp only [MeasureSync.body]
    split
    · exact ⟨trivial,fun _ => nofun⟩
    · exact ⟨trivial,fun _ => ⟨(by decide : 4 ≠ 3),fun _ => ⟨trivial,fun _ => nofun⟩⟩⟩
  | test g l =>
    simp only [pru]
    split
    · rename_i due
      apply uncut_follows
      simp only [MeasureSync.body,due,↓reduceIte]
      exact ⟨trivial,fun _ => ⟨trivial,fun _ => ⟨trivial,fun _ => nofun⟩⟩⟩
    · exact check_pin_follows g _
  | poll g l => exact poll_follows g l
  | polled g l =>
    simp only [pru]
    split
    · exact poll_follows g l
    · rename_i done
      apply uncut_follows
      simp only [MeasureSync.body,done,↓reduceIte]
      exact ⟨trivial,fun _ => ⟨trivial,fun _ => nofun⟩⟩
  | adjusted g l => exact check_pin_follows g _
  | halted =>
    apply uncut_follows
    exact ⟨trivial,fun _ => nofun⟩

theorem messages_proved : messages.Proved := by
  intro b p₀ stands
  cases b with
  | main => cases stands; exact main_follows
  | started => exact teardown_follows stands
  | returned =>
    exact hidden_follows (B := fun b => b = .returned) (fun b ended => returned_ends b ended stands) stands
      ⟨trivial,fun _ => rfl⟩
  | receive_pru_thread => cases stands; exact created_follows
  | woken => cases stands; exact woken_follows
  | drain => cases stands; exact read_follows
  | read data status => cases stands; exact read_block_follows data status
  | stored_pru data => cases stands; exact handler_follows id rfl
  | handled_report data => cases stands; exact read_follows
  | send_pru_thread =>
    cases stands
    exact hidden_follows sends_unseen none_free ⟨trivial,fun _ => send_only 1⟩
  | sending i => cases stands; exact send_follows i
  | sent i nano_ts status => cases stands; exact send_follows i
  | rising i nano_ts =>
    cases stands
    exact hidden_follows sends_unseen none_free ⟨trivial,fun _ => trivial⟩
  | stored_host i nano_ts =>
    cases stands
    exact hidden_follows sends_unseen none_free
      (Prog.only_bind (Prog.only_embed (Prog.only_any (fun _ => trivial) _)) fun _ _ => trivial)
  | handled_edge i nano_ts => cases stands; exact send_follows i
  | falling i nano_ts => cases stands; exact send_follows i
  | pru b =>
    by_cases start : b = .main
    · subst start
      cases stands
      exact boot_follows
    · have stands' : p₀ = some TimeSyncReceive.send := by
        cases b <;> first | exact stands | exact absurd rfl start
      cases stands'
      exact pru_follows start
  | initialised =>
    cases stands
    exact hidden_follows runs_unseen send_free ⟨trivial,fun _ => ⟨_,rfl,nofun⟩⟩
  | wrote rest g ts status => cases stands; exact wrote_follows rest g ts status
  | edge =>
    cases stands
    refine hidden_follows (B := fun b => b = .edge) ?_ none_free ⟨trivial,fun _ => rfl⟩
    rintro _ rfl
    exact ⟨id,rfl⟩

/-! ### The handlers of the host -/

/-- The times of the events of channel 1. -/
def edges_of (queue : List ptp_extts_event) : List UInt64 := (queue.filter (·.index = 1)).map nano_ts

/-- The threads have got the events that have been read. -/
structure SeesHandlers (w : World) (w₀ : ReportThreads.World) : Prop where
  reports : w₀ = w.reports
  taken_le : w.taken ≤ w.queue.length
  edges : w.reports.edges = edges_of (w.queue.take w.taken)

abbrev HandlerCode := Prog ReportThreads.Access ReportThreads.Access.Answer ReportThreads.Block

/-- Where the parts of `ReportThreads` are when a party enters a block. -/
def standsHandlers : Block → Option HandlerCode → Prop
  | .returned, _ => True
  | .receive_pru_thread, p₀ => p₀ = some ReportThreads.receive
  | .woken, p₀ => p₀ = some ReportThreads.receive
  | .drain, p₀ => p₀ = some ReportThreads.receive
  | .read data status, p₀ =>
    p₀ = some (if status = 0 then ReportThreads.body (.received data) else ReportThreads.receive)
  | .stored_pru data, p₀ => p₀ = some (ReportThreads.body (.stored_pru data))
  | .handled_report _, p₀ => p₀ = some ReportThreads.receive
  | .send_pru_thread, p₀ => p₀ = some (ReportThreads.send 1)
  | .sending i, p₀ => p₀ = some (ReportThreads.send i)
  | .sent i _ _, p₀ => p₀ = some (ReportThreads.send i)
  | .rising i nano_ts, p₀ => p₀ = some (ReportThreads.body (.rising i nano_ts))
  | .stored_host i nano_ts, p₀ => p₀ = some (ReportThreads.body (.stored_host i nano_ts))
  | .handled_edge i _, p₀ => p₀ = some (ReportThreads.send i)
  | .falling i _, p₀ => p₀ = some (ReportThreads.send i)
  | _, p₀ => p₀ = none

/-- In no handler. -/
def AtRest (p₀ : Option HandlerCode) : Prop := ∃ a₀ next₀, p₀ = some (.access a₀ next₀) ∧ ∀ v, a₀ ≠ .vars v

/-- The threads wait in no handler. -/
def Waits (a : Access) : Prop := a = .load_stop ∨ a = .wait_evtout_0 ∨ a = .read_event

def handlers : View Party ReportThreads.Party (system.limited Reads) ReportThreads.system where
  part
    | .receive => some .receive
    | .send => some .send
    | _ => none
  part_inj := by
    intro i j i₀ first second
    cases i <;> cases j <;> first | rfl | cases first <;> cases second
  sees := SeesHandlers
  stands := standsHandlers
  marks a p₀ := Waits a → AtRest p₀

variable {q₀ : Option HandlerCode}

/-- Accesses that have nothing to do with the handlers. -/
def NoHandler (q₀ : Option HandlerCode) (a : Access) : Prop := (∀ v, a ≠ .vars v) ∧ a ≠ .read_event ∧ (Waits a → AtRest q₀)

theorem edges_append {w : World} (taken_le : w.taken ≤ w.queue.length) (more : List ptp_extts_event) :
    edges_of ((w.queue ++ more).take w.taken) = edges_of (w.queue.take w.taken) ∧ w.taken ≤ (w.queue ++ more).length := by
  rw [List.take_append_of_le_length taken_le,List.length_append]
  exact ⟨rfl,by omega⟩

theorem noHandler_act {a : Access} {input : {input // Reads input}} {w₀ : ReportThreads.World} {r : a.Answer}
    (none_of : NoHandler q₀ a) (seen : SeesHandlers w w₀) (acted : (system.limited Reads).act a input w = some (r,t)) :
    SeesHandlers t w₀ := by
  obtain ⟨rfl,taken_le,edges⟩ := seen
  have captured : ∀ event, SeesHandlers { w with queue := w.queue ++ [event] } w.reports := by
    intro event
    obtain ⟨same,inside⟩ := edges_append taken_le [event]
    exact ⟨rfl,inside,edges.trans same.symm⟩
  cases a with
  | wait_evtout_0 | wait_evtout_1 | created_receive | created_send | executed =>
    simp only [System.limited,system,act] at acted
    split at acted <;> cases acted
    exact ⟨rfl,taken_le,edges⟩
  | read_event => exact absurd rfl none_of.2.1
  | vars v => exact absurd rfl (none_of.1 v)
  | edge =>
    cases acted
    exact captured _
  | pru a =>
    by_cases clock : OfClock a
    · obtain ⟨pru,rfl⟩ := clock_act clock acted
      exact ⟨rfl,taken_le,edges⟩
    · cases a with
      | assert_pin pin | deassert_pin pin =>
        cases acted
        exact captured _
      | send a | receive a | trig_intc n =>
        cases acted
        exact ⟨rfl,taken_le,edges⟩
      | _ => exact absurd trivial clock
  | _ =>
    cases acted
    exact ⟨rfl,taken_le,edges⟩

/-- Entering a block says something about the handlers only here. -/
def Handles : Block → Prop
  | .read _ status => status = 0
  | .stored_pru _ => True
  | .handled_report _ => True
  | .rising _ _ => True
  | .stored_host _ _ => True
  | .handled_edge _ _ => True
  | .falling _ _ => True
  | _ => False

theorem handles_unseen {b : Block} {w₀ : ReportThreads.World} (none_of : ¬ Handles b) (seen : SeesHandlers w w₀) :
    SeesHandlers (enter b w) w₀ := by
  obtain ⟨rfl,taken_le,edges⟩ := seen
  cases b with
  | read data status =>
    have failed : status ≠ 0 := none_of
    simp only [enter,failed,↓reduceIte]
    exact ⟨rfl,taken_le,edges⟩
  | stored_pru | handled_report | rising | stored_host | handled_edge | falling => exact absurd trivial none_of
  | _ => exact ⟨rfl,taken_le,edges⟩

theorem unhandled_follows {B : Block → Prop} (ends : ∀ b, B b → ¬ Handles b ∧ standsHandlers b q₀)
    {p : Code} (only : p.Only (NoHandler q₀) B) : handlers.Follows p q₀ :=
  View.follows_only (fun _ none_of => none_of.2.2) noHandler_act (fun ended => handles_unseen (ends _ ended).1)
    (fun b ended => (ends b ended).2) only

theorem receive_rest : AtRest (some ReportThreads.receive) := ⟨_,_,rfl,nofun⟩
theorem send_rest (i : Int32) : AtRest (some (ReportThreads.send i)) := ⟨_,_,rfl,nofun⟩

/-- Accesses by a thread between two handlers. -/
theorem resting {a : Access} (rest : AtRest q₀) (not_vars : ∀ v, a ≠ .vars v) (not_read : a ≠ .read_event) : NoHandler q₀ a :=
  ⟨not_vars,not_read,fun _ => rest⟩

theorem received_follows : handlers.Follows read_pru (some ReportThreads.receive) := by
  refine View.follows_silent (fun a _ => receive_rest) ?_ ?_ (rbuf_read_uint64 (some 0)) rfl
  · intro a input w w₀ r t seen acted
    exact noHandler_act (show NoHandler _ (.from_pru a) from resting receive_rest nofun nofun) seen acted
  · rintro ⟨data,status⟩ w _ ⟨rfl,taken_le,edges⟩
    by_cases found : status.getD 0 = 0
    · refine ⟨_,_,.inr ⟨_,_,⟨data,⟨0,0⟩⟩,_,_,rfl,rfl,rfl,rfl⟩,?_,?_⟩
      · show SeesHandlers (enter (.read data (status.getD 0)) w) (w.reports.take data .receive)
        rw [enter,if_pos found]
        exact ⟨rfl,taken_le,edges⟩
      · show standsHandlers (.read data (status.getD 0)) (some (ReportThreads.body (.received data)))
        rw [standsHandlers,if_pos found]
    · refine ⟨_,w.reports,View.Turn.none,?_,?_⟩
      · show SeesHandlers (enter (.read data (status.getD 0)) w) w.reports
        rw [enter,if_neg found]
        exact ⟨rfl,taken_le,edges⟩
      · show standsHandlers (.read data (status.getD 0)) (some ReportThreads.receive)
        rw [standsHandlers,if_neg found]

theorem wait_rest_follows : handlers.Follows wait_pru (some ReportThreads.receive) := by
  refine unhandled_follows (B := fun b => b = .returned ∨ b = .woken) ?_ ⟨resting receive_rest nofun nofun,fun stop => ?_⟩
  · rintro _ (rfl | rfl)
    · exact ⟨id,trivial⟩
    · exact ⟨id,rfl⟩
  · cases stop with
    | true => exact .inl rfl
    | false => exact ⟨resting receive_rest nofun nofun,fun _ => .inr rfl⟩

/-- The accesses to the variables are the same. -/
theorem vars_follows {p : Prog ReportThreads.Vars ReportThreads.Vars.Answer Unit} {b : Block} (b₀ : ReportThreads.Block)
    (enters : ∀ w : World, SeesHandlers w w.reports → SeesHandlers (enter b w) (ReportThreads.enter b₀ w.reports))
    (stands : standsHandlers b (some (ReportThreads.body b₀))) (more : p.isAccess = true) :
    handlers.Follows (onVars p >>= fun _ => .ret b) (some (ReportThreads.onVars p >>= fun _ => .ret b₀)) := by
  refine View.follows_embed ?_ ?_ ?_ p more
  · rintro a next₀ (waits | waits | waits) <;> cases waits
  · rintro a input w _ r t ⟨rfl,taken_le,edges⟩ acted
    cases acted
    exact ⟨⟨0,⟨0,0⟩⟩,_,_,rfl,rfl,rfl,taken_le,edges⟩
  · rintro _ w _ ⟨rfl,taken_le,edges⟩
    exact ⟨enters w ⟨rfl,taken_le,edges⟩,stands⟩

theorem begin_sees {i : ReportThreads.Party} (seen : SeesHandlers w w.reports) :
    SeesHandlers { w with reports := w.reports.begin i } (w.reports.begin i) := by
  obtain ⟨-,taken_le,edges⟩ := seen
  exact ⟨rfl,taken_le,by cases i <;> exact edges⟩

theorem done_sees {i : ReportThreads.Party} {ts : UInt64} (seen : SeesHandlers w w.reports) :
    SeesHandlers { w with reports := w.reports.done ts i } (w.reports.done ts i) := by
  obtain ⟨-,taken_le,edges⟩ := seen
  exact ⟨rfl,taken_le,by cases i <;> exact edges⟩

/-- An event that is read is the next one. -/
theorem edges_take {event : ptp_extts_event} (here : w.queue[w.taken]? = some event) :
    edges_of (w.queue.take (w.taken + 1)) = edges_of (w.queue.take w.taken) ++ (if event.index = 1 then [nano_ts event] else []) ∧
      w.taken + 1 ≤ w.queue.length := by
  have inside := (List.getElem?_eq_some_iff.mp here).1
  refine ⟨?_,inside⟩
  rw [List.take_add_one,here]
  by_cases edge : event.index = 1
  · simp [edges_of,edge]
  · simp [edges_of,edge]

theorem channel_one (index : UInt32) : index.toInt32 = 1 ↔ index = 1 := by
  constructor
  · intro same
    have back := congrArg Int32.toUInt32 same
    rwa [UInt32.toUInt32_toInt32] at back
  · rintro rfl
    rfl

/-- After an event the threads go on alike. -/
theorem sort_follows (i : Int32) {event : ptp_extts_event} (seen : SeesHandlers w w.reports)
    (here : w.queue[w.taken]? = some event) :
    let p : Code := if event.index.toInt32 = 0 then
        onToPru (rbuf_write_uint64 (nano_ts event)) >>= fun status => .ret (.sent i (nano_ts event) status)
      else if event.index.toInt32 = 1 then
        if i % 2 ≠ 0 then .ret (.rising (i + 1) (nano_ts event)) else .ret (.falling (i + 1) (nano_ts event))
      else .ret (.sending i)
    let b₀ := ReportThreads.sort i ⟨event.index.toInt32,nano_ts event⟩
    SeesHandlers ((system.limited Reads).settle p { w with taken := w.taken + 1 }) (ReportThreads.enter b₀ w.reports) ∧
      handlers.Follows p (some (ReportThreads.body b₀)) := by
  obtain ⟨-,taken_le,edges⟩ := seen
  obtain ⟨edges',inside⟩ := edges_take here
  intro p b₀
  by_cases edge : event.index = 1
  · have one := (channel_one _).mpr edge
    have next : w.reports.edges ++ [nano_ts event] = edges_of (w.queue.take (w.taken + 1)) := by
      rw [edges',if_pos edge,edges]
    by_cases odd : i % 2 ≠ 0
    · have rises : p = .ret (.rising (i + 1) (nano_ts event)) := by simp [p,one,odd]
      have rises₀ : b₀ = .rising (i + 1) (nano_ts event) := by simp [b₀,ReportThreads.sort,one,odd]
      rw [rises,rises₀]
      exact ⟨⟨rfl,inside,next⟩,rfl⟩
    · have falls : p = .ret (.falling (i + 1) (nano_ts event)) := by simp [p,one,odd]
      have falls₀ : b₀ = .falling (i + 1) (nano_ts event) := by simp [b₀,ReportThreads.sort,one,odd]
      rw [falls,falls₀]
      exact ⟨⟨rfl,inside,next⟩,rfl⟩
  · have other : event.index.toInt32 ≠ 1 := mt (channel_one _).mp edge
    have again : b₀ = .send i := by simp [b₀,ReportThreads.sort,other]
    have next : SeesHandlers { w with taken := w.taken + 1 } w.reports := by
      refine ⟨rfl,inside,?_⟩
      rw [edges',if_neg edge,List.append_nil]
      exact edges
    rw [again]
    by_cases sync : event.index.toInt32 = 0
    · have sends : p = onToPru (rbuf_write_uint64 (nano_ts event)) >>= fun status => .ret (.sent i (nano_ts event) status) := by
        simp [p,sync]
      rw [sends]
      refine ⟨next,View.follows_silent (fun a _ => send_rest i) ?_ ?_ (rbuf_write_uint64 (nano_ts event)) rfl⟩
      · intro a input w w₀ r t seen acted
        exact noHandler_act (show NoHandler _ (.to_pru a) from resting (send_rest i) (by simp) (by simp)) seen acted
      · intro status w w₀ seen
        exact ⟨_,w₀,View.Turn.none,seen,rfl⟩
    · have skips : p = .ret (.sending i) := by simp [p,sync,other]
      rw [skips]
      exact ⟨next,rfl⟩

theorem send_host_follows (i : Int32) : handlers.Follows (send_host i) (some (ReportThreads.send i)) := by
  refine ⟨fun _ => send_rest i,fun input w w₀ stop t seen acted => ⟨_,w₀,View.Turn.none,?_⟩⟩
  have seen' := noHandler_act (show NoHandler _ .load_stop from resting (send_rest i) nofun nofun) seen acted
  cases stop with
  | true => exact ⟨seen',trivial⟩
  | false =>
    refine ⟨seen',fun _ => send_rest i,?_⟩
    clear acted seen seen' t w₀ w input
    rintro ⟨input,full⟩ w _ r t ⟨rfl,taken_le,edges⟩ acted
    obtain ⟨⟨_,taken⟩,read,same⟩ := Option.map_eq_some_iff.mp acted
    cases same
    obtain ⟨event,here,rfl,rfl⟩ := read_event_full full read
    exact ⟨_,_,.inr ⟨_,_,⟨0,⟨event.index.toInt32,nano_ts event⟩⟩,_,_,rfl,rfl,rfl,rfl⟩,
      sort_follows i ⟨rfl,taken_le,edges⟩ here⟩

/-! The parties that have no part -/

/-- Blocks of `main`, of the PRU and of the edges. -/
def Apart : Block → Prop
  | .started => True
  | .returned => True
  | .pru _ => True
  | .initialised => True
  | .wrote _ _ _ _ => True
  | .edge => True
  | _ => False

theorem apart_unseen : ∀ b, Apart b → ¬ Handles b ∧ standsHandlers b none := by
  intro b apart
  cases b with
  | returned => exact ⟨id,trivial⟩
  | started | pru | initialised | wrote | edge => exact ⟨id,rfl⟩
  | _ => exact apart.elim

theorem aside {a : Access} (not_vars : ∀ v, a ≠ .vars v) (not_read : a ≠ .read_event) (waits : ¬ Waits a) : NoHandler none a :=
  ⟨not_vars,not_read,fun waiting => absurd waiting waits⟩

theorem pru_aside (a : MeasureSync.Access) : NoHandler none (.pru a) :=
  aside nofun nofun (by rintro (same | same | same) <;> cases same)

theorem check_only {f : TimeSyncProgram.Call} {next : Code} (only : next.Only (NoHandler none) Apart) :
    (check f next).Only (NoHandler none) Apart := by
  refine ⟨aside nofun nofun (by rintro (same | same | same) <;> cases same),fun err => ?_⟩
  show Prog.Only _ _ (if err ≠ 0 then .ret .returned else next)
  split
  · exact trivial
  · exact only

theorem main_only : main.Only (NoHandler none) Apart := by
  have memset : NoHandler none .memset := aside nofun nofun (by rintro (same | same | same) <;> cases same)
  have exec : NoHandler none .exec_program := aside nofun nofun (by rintro (same | same | same) <;> cases same)
  have ring : ∀ a, NoHandler none (.to_pru a) := fun a => aside nofun nofun (by rintro (same | same | same) <;> cases same)
  refine check_only (check_only (check_only (check_only ⟨memset,fun _ => ?_⟩)))
  have threads : start_threads.Only (NoHandler none) Apart := ⟨exec,fun _ => check_only (check_only trivial)⟩
  show Prog.Only _ _ (onToPru init_rbuffer >>= fun _ => check .init_qot start_threads)
  exact Prog.only_bind (Prog.only_embed (Prog.only_any ring init_rbuffer)) fun _ _ => check_only threads

theorem teardown_only : teardown.Only (NoHandler none) Apart := by
  refine ⟨aside nofun nofun ?_,fun _ => ⟨aside nofun nofun ?_,fun _ => ⟨aside nofun nofun ?_,fun _ => trivial⟩⟩⟩ <;>
    (rintro (same | same | same) <;> cases same)

theorem check_pin_only (g : Globals) (rest : Rest) : (check_pin g rest).Only (NoHandler none) Apart := by
  have reports : (report g rest).Only (NoHandler none) Apart := by
    refine ⟨pru_aside _,fun ts => ?_⟩
    show Prog.Only _ _ (onSend (rbuf_write_uint64 ts) >>= fun status => .ret (Block.wrote rest g ts status))
    exact Prog.only_bind (Prog.only_embed (Prog.only_any (fun _ => pru_aside _) _)) fun _ _ => trivial
  refine ⟨pru_aside _,fun pin => ?_⟩
  show Prog.Only _ _ (if g.input_high = false then if pin ≠ 0 then report g rest else .ret (Block.pru (rest.block g))
    else if pin = 0 then .ret (Block.pru (rest.block { g with input_high := false })) else .ret (Block.pru (rest.block g)))
  split
  · split
    · exact reports
    · exact trivial
  · split <;> exact trivial

theorem poll_only (g : Globals) (l : Locals) : (poll g l).Only (NoHandler none) Apart :=
  Prog.only_bind (Prog.only_embed (Prog.only_any (fun _ => pru_aside _) _)) fun _ _ => check_pin_only g _

theorem uncut_only (b : MeasureSync.Block) : (uncut b).Only (NoHandler none) Apart :=
  Prog.only_bind (Prog.only_embed (Prog.only_any pru_aside _)) fun _ _ => trivial

theorem pru_only (b : MeasureSync.Block) : (pru b).Only (NoHandler none) Apart := by
  cases b with
  | main =>
    refine ⟨aside nofun nofun (by rintro (same | same | same) <;> cases same),fun _ => ?_⟩
    show Prog.Only _ _ (onSend init_rbuffer >>= fun _ => .ret Block.initialised)
    exact Prog.only_bind (Prog.only_embed (Prog.only_any (fun _ => pru_aside _) _)) fun _ _ => trivial
  | test g l =>
    simp only [pru]
    split
    · exact uncut_only _
    · exact check_pin_only g _
  | poll g l => exact poll_only g l
  | polled g l =>
    simp only [pru]
    split
    · exact poll_only g l
    · exact uncut_only _
  | adjusted g l => exact check_pin_only g _
  | top g l => exact uncut_only _
  | halted => exact uncut_only _

theorem handlers_proved : handlers.Proved := by
  intro b q₀ stands
  cases b with
  | main => cases stands; exact unhandled_follows apart_unseen main_only
  | started => cases stands; exact unhandled_follows apart_unseen teardown_only
  | returned =>
    refine unhandled_follows (B := fun b => b = .returned) ?_ ⟨⟨by simp,by simp,?_⟩,fun _ => rfl⟩
    · rintro _ rfl
      exact ⟨id,trivial⟩
    · rintro (same | same | same) <;> cases same
  | receive_pru_thread =>
    cases stands
    refine ⟨fun _ => receive_rest,fun input w w₀ r t seen acted => ⟨_,w₀,View.Turn.none,?_⟩⟩
    exact ⟨noHandler_act (show NoHandler _ .created_receive from resting receive_rest (by simp) (by simp)) seen acted,wait_rest_follows⟩
  | woken =>
    cases stands
    refine unhandled_follows (B := fun b => b = .drain) ?_ ⟨resting receive_rest (by simp) (by simp),fun _ => rfl⟩
    rintro _ rfl
    exact ⟨id,rfl⟩
  | drain => cases stands; exact received_follows
  | read data status =>
    cases stands
    by_cases found : status = 0
    · show handlers.Follows (body (.read data status)) _
      simp only [body,found,↓reduceIte]
      exact vars_follows (p := .access (.store_last_pru_ts data.toInt64.toUInt64) .ret) (b := .stored_pru data)
        (.stored_pru data) (fun _ => begin_sees) rfl rfl
    · show handlers.Follows (body (.read data status)) _
      simp only [body,found,↓reduceIte]
      exact wait_rest_follows
  | stored_pru data =>
    cases stands
    exact vars_follows (.handled_report data) (fun _ => done_sees) rfl rfl
  | handled_report data => cases stands; exact received_follows
  | send_pru_thread =>
    cases stands
    refine ⟨fun _ => send_rest 1,fun input w w₀ r t seen acted => ⟨_,w₀,View.Turn.none,?_⟩⟩
    exact ⟨noHandler_act (show NoHandler _ .created_send from resting (send_rest 1) (by simp) (by simp)) seen acted,send_host_follows 1⟩
  | sending i => cases stands; exact send_host_follows i
  | sent i nano_ts status => cases stands; exact send_host_follows i
  | rising i nano_ts =>
    cases stands
    exact vars_follows (p := .access (.store_last_host_ts nano_ts) .ret) (b := .stored_host i nano_ts)
      (.stored_host i nano_ts) (fun _ => begin_sees) rfl rfl
  | stored_host i nano_ts =>
    cases stands
    exact vars_follows (.handled_edge i nano_ts) (fun _ => done_sees) rfl rfl
  | handled_edge i nano_ts => cases stands; exact send_host_follows i
  | falling i nano_ts => cases stands; exact send_host_follows i
  | pru b => cases stands; exact unhandled_follows apart_unseen (pru_only b)
  | initialised => cases stands; exact unhandled_follows apart_unseen ⟨pru_aside _,fun _ => trivial⟩
  | wrote rest g ts status => cases stands; exact unhandled_follows apart_unseen ⟨pru_aside _,fun _ => trivial⟩
  | edge =>
    cases stands
    refine unhandled_follows apart_unseen ⟨aside (by simp) (by simp) ?_,fun _ => trivial⟩
    rintro (same | same | same) <;> cases same

/-! ### The whole -/

open ReportThreads (of outcome move)
open ReportPairs (Row row InStep)

/-- The thread that receives waits for an interrupt that is neither there nor about to come. -/
def ReceiveWaits (c : Config Party Access Access.Answer Block World) : Prop :=
  (∃ next, c.code .receive = .access .wait_evtout_0 next) ∧ c.shared.evtout_0 = false ∧
    ¬ ∃ next, c.code .pru = .access (.pru (.trig_intc 3)) next

/-- The thread that sends waits for an event, and there is none. -/
def SendWaits (c : Config Party Access Access.Answer Block World) : Prop :=
  (∃ next, c.code .send = .access .read_event next) ∧ c.shared.taken = c.shared.queue.length

/-- The lines of the first pulses: the rising edges on channel 1, and the reports
    that the ring buffer has taken. -/
def lines (w : World) (n : Nat) : List Row :=
  (List.range n).map fun k => row ((edges_of w.queue).getD (2 * k) 0) (w.accepted.getD k 0)

/-- How late the reports of the first pulses are. -/
def lateness (w : World) (n : Nat) : List Int :=
  (List.range n).map fun k => (w.accepted.getD k 0).toInt64.toInt - ((edges_of w.queue).getD (2 * k) 0).toInt64.toInt

/-- No handler has run into another, and none is at work. -/
def Undisturbed (r : ReportThreads.World) : Prop := r.overlapped = false ∧ r.receiving = false ∧ r.sending = false

/-- The pulses of which both timestamps have been handled. -/
def measured (r : ReportThreads.World) : Nat := min (of .receive r.handled).length (((of .send r.handled).length + 1) / 2)

/-- The host reads no ring buffer before it is there; it gets the reports in order,
    and all of them by the time that it waits; it handles what it gets in order,
    and everything by the time that both threads wait; and in step the lines and
    the statistics are those of the pulses. -/
structure Measured (c : Config Party Access Access.Answer Block World) : Prop where
  initialised : ∀ a next, c.code .receive = .access (.from_pru a) next → c.shared.ready = true
  in_order : c.shared.reports.reports <+: c.shared.accepted
  reports_handled : of .receive c.shared.reports.handled <+: c.shared.accepted
  edges_handled : of .send c.shared.reports.handled <+: edges_of c.shared.queue
  all_reports : ReceiveWaits c → of .receive c.shared.reports.handled = c.shared.accepted
  all_edges : SendWaits c → of .send c.shared.reports.handled = edges_of c.shared.queue
  one_by_one : Undisturbed c.shared.reports → c.shared.reports.memory = (outcome c.shared.reports.handled).memory
  in_step : Undisturbed c.shared.reports → InStep (c.shared.reports.handled.map move) →
    c.shared.reports.memory.rows = lines c.shared (measured c.shared.reports) ∧
      Stats.diff (Stats.output true c.shared.reports.memory.rows) = some (lateness c.shared (measured c.shared.reports))

variable {c : Config Party Access Access.Answer Block World}

theorem messages_delivered {c₀ : Config TimeSyncReceive.Party TimeSyncReceive.Access TimeSyncReceive.Access.Answer
      TimeSyncReceive.Block TimeSyncReceive.World} (shows : messages.Shows c c₀) (delivers : TimeSyncReceive.Delivers c₀) :
    (∀ a next, c.code .receive = .access (.from_pru a) next → c.shared.ready = true) ∧
      c.shared.reports.reports <+: c.shared.accepted ∧
      (ReceiveWaits c → c.shared.reports.reports = c.shared.accepted) := by
  obtain ⟨n,seen⟩ := shows.shared
  have shared : c₀.shared = messagesOf c.shared n := seen
  refine ⟨?_,?_,?_⟩
  · intro a next code
    have follows : messages.Follows (.access (.from_pru a) next) (some (c₀.code .receive)) := code ▸ shows.code .receive
    obtain ⟨next₀,same⟩ := (View.marked follows).ring a rfl
    have ready := delivers.initialised a next₀ (Option.some.inj same)
    rw [shared] at ready
    exact ready
  · have first := delivers.in_order
    rw [shared] at first
    exact first
  · rintro ⟨⟨next,code⟩,quiet,not_trig⟩
    have follows : messages.Follows (.access .wait_evtout_0 next) (some (c₀.code .receive)) := code ▸ shows.code .receive
    obtain ⟨next₀,same⟩ := (View.marked follows).waits rfl
    have no_trig : ¬ TimeSyncReceive.AtTrig (c₀.code .pru) := by
      rintro ⟨next',at_trig⟩
      have more := shows.more .pru
      have follows := shows.code .pru
      cases code : c.code .pru with
      | ret b => simp [code,Prog.isAccess] at more
      | access a next =>
        rw [code] at follows
        obtain rfl := (View.marked follows).trigs ⟨next',congrArg some at_trig⟩
        exact not_trig ⟨next,code⟩
    have all := delivers.no_lost_wakeup ⟨next₀,Option.some.inj same⟩ (by rw [shared]; exact quiet) no_trig
    rw [shared] at all
    exact all

theorem handlers_settled {c₀ : Config ReportThreads.Party ReportThreads.Access ReportThreads.Access.Answer
      ReportThreads.Block ReportThreads.World} (shows : handlers.Shows c c₀) (settles : ReportThreads.Settles c₀) :
    (∀ i, of i c.shared.reports.handled <+: c.shared.reports.got i) ∧
      c.shared.reports.edges <+: edges_of c.shared.queue ∧
      (ReceiveWaits c → c.shared.reports.reports = of .receive c.shared.reports.handled) ∧
      (SendWaits c → of .send c.shared.reports.handled = edges_of c.shared.queue) ∧
      (Undisturbed c.shared.reports → c.shared.reports.memory = (outcome c.shared.reports.handled).memory) := by
  obtain ⟨shared,taken_le,edges⟩ := shows.shared
  obtain ⟨first,waits,one_by_one⟩ := settles
  rw [shared] at first waits one_by_one
  have rests : ∀ i₀ {i a next}, handlers.part i = some i₀ → c.code i = .access a next → Waits a →
      c.shared.reports.got i₀ = of i₀ c.shared.reports.handled := by
    intro i₀ i a next plays code waiting
    have follows := shows.code i
    rw [code,plays] at follows
    obtain ⟨a₀,next₀,same,not_vars⟩ := View.marked follows waiting
    exact waits i₀ a₀ next₀ (Option.some.inj same) not_vars
  refine ⟨first,?_,?_,?_,fun ⟨clean,receiving,sending⟩ => one_by_one clean receiving sending⟩
  · rw [edges]
    exact ((List.take_prefix _ _).filter _).map _
  · rintro ⟨⟨next,code⟩,_⟩
    exact rests .receive rfl code (.inr (.inl rfl))
  · rintro ⟨⟨next,code⟩,all⟩
    rw [← rests .send rfl code (.inr (.inr rfl))]
    show c.shared.reports.edges = _
    rw [edges,all,List.take_length]

theorem always_delivers (m n : rbuffer) (schedule : List (TimeSyncReceive.Party × UInt64)) :
    TimeSyncReceive.Delivers (TimeSyncReceive.system.run
      (TimeSyncReceive.system.start (TimeSyncReceive.initial m n) TimeSyncReceive.first) schedule) := by
  apply TimeSyncReceive.holds_delivers
  refine TimeSyncReceive.outline.sound TimeSyncReceive.bodies_proved ?_ ?_ schedule
  · exact ⟨nofun,nofun,fun _ => ⟨rfl,rfl,rfl,rfl⟩,.inr (.inr (.inr rfl))⟩
  · intro i
    cases i with
    | main => exact rfl
    | receive => exact rfl
    | pru => exact ⟨rfl,rfl⟩

/-- One answer of the outside: all calls succeed, the pin is high, and every edge is at 3 s and 500 ns. -/
def answer : Input := ⟨0,⟨7,1,fun a => (memory a RbufferQueue.fresh).1⟩,⟨sizeof_event,⟨⟨3,500⟩,1⟩⟩,⟨3,500⟩⟩

/-- The host starts, the PRU reports a pulse, which is captured, and the threads
    handle both of its timestamps. -/
def firstPulse : List (Party × Input) :=
  List.replicate 13 (.main,answer) ++ List.replicate 20 (.pru,answer) ++ [(.edges,answer)] ++
    List.replicate 22 (.receive,answer) ++ List.replicate 30 (.send,answer)

end NeslPru.MeasureReports
