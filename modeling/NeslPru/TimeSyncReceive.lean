import NeslPru.RbufferChannel

/-!
The messages of `time_sync` from the PRU to the host: the start of both by the
host's `main`, the messages of the PRU, each followed by an interrupt, and the
thread of the host that waits for the interrupt, clears it and reads until
nothing is left. The interrupt is one flag, however many messages it stands for.
-/
namespace NeslPru.TimeSyncReceive
open NeslPru.Access NeslPru.RelyGuarantee NeslPru.Rbuffer NeslPru.RbufferQueue NeslPru.RbufferAtomic
open NeslPru.RbufferChannel
set_option linter.unusedSimpArgs false

inductive Party where
  | main
  | receive
  | pru
deriving DecidableEq

/-- `send_to_pru` is an access to the ring buffer of the host, `ring` one to
    that of the PRU. -/
inductive Access where
  | memset
  | send_to_pru (a : Rbuffer.Access)
  | exec_program
  | create_thread
  | wait_end
  | created
  | wait_event
  | clear_event
  | executed
  | read_pru_time
  | trig_intc
  | ring (a : Rbuffer.Access)

@[reducible] def Access.Answer : Access → Type
  | .memset => Unit
  | .send_to_pru a => a.Answer
  | .exec_program => Unit
  | .create_thread => Unit
  | .wait_end => Unit
  | .created => Unit
  | .wait_event => Unit
  | .clear_event => Unit
  | .executed => Unit
  | .read_pru_time => UInt64
  | .trig_intc => Unit
  | .ring a => a.Answer

inductive Block where
  | main
  | ended
  | thread
  | woken
  | drain
  | polled (data : UInt64) (status : Int16)
  | pru
  | initialised
  | wrote (data : UInt64) (status : Int16)
  | triggered

open Prog (call)

/-- A program of the ring buffer header, run on the ring buffer of the PRU. -/
def onRing {α : Type} (p : RingProg α) : Prog Access Access.Answer α := p.embed .ring (fun _ r => r)

/-- The host's `main` as far as it sets up the shared memory and starts the others. -/
def main : Prog Access Access.Answer Block := do
  call Access.memset
  init_rbuffer.embed Access.send_to_pru (fun _ r => r)
  call Access.exec_program
  call Access.create_thread
  return .ended

def wait : Prog Access Access.Answer Block := do
  call Access.wait_event
  return .woken

/-- One pass of the inner loop of `receive_pru_thread`, which starts with `status` 0. -/
def poll : Prog Access Access.Answer Block := do
  let (data,status) ← onRing (rbuf_read_uint64 (some 0))
  return .polled data (status.getD 0)

/-- One message of the PRU. -/
def send : Prog Access Access.Answer Block := do
  let data : UInt64 ← call Access.read_pru_time
  let status ← onRing (rbuf_write_uint64 data)
  return .wrote data status

def body : Block → Prog Access Access.Answer Block
  | .main => main
  | .ended => do
    call Access.wait_end
    return .ended
  | .thread => do
    call Access.created
    wait
  | .woken => do
    call Access.clear_event
    return .drain
  | .drain => poll
  | .polled _ status => if status = 0 then poll else wait
  | .pru => do
    call Access.executed
    onRing init_rbuffer
    return .initialised
  | .initialised => send
  | .wrote _ _ => do
    call Access.trig_intc
    return .triggered
  | .triggered => send

/-- The memory, which parties have been started, and the interrupt. `ready` says
    that the PRU has initialised its ring buffer, `owed` that it is between a
    write and the interrupt, and `draining` that the thread of the host has been
    woken and has not yet found the ring buffer empty. -/
structure World where
  rbuf : rbuffer
  send_to_pru : rbuffer
  exec : Bool
  thread : Bool
  pending : Bool
  ready : Bool
  owed : Bool
  draining : Bool
  accepted : List UInt64
  delivered : List UInt64

/-- What is all zero after `memset`. -/
def zeroed : rbuffer := (memory .memset fresh).2

/-- The input of a step is what the PRU sends if it reads its clock. A turn of
    `main` at its last wait changes nothing. -/
def act : (a : Access) → UInt64 → World → Option (a.Answer × World)
  | .memset, _, w => some ((),{ w with rbuf := zeroed, send_to_pru := zeroed })
  | .send_to_pru a, _, w => some ((memory a w.send_to_pru).1,{ w with send_to_pru := (memory a w.send_to_pru).2 })
  | .exec_program, _, w => some ((),{ w with exec := true })
  | .create_thread, _, w => some ((),{ w with thread := true })
  | .wait_end, _, w => some ((),w)
  | .created, _, w => if w.thread then some ((),w) else none
  | .wait_event, _, w => if w.pending then some ((),w) else none
  | .clear_event, _, w => some ((),{ w with pending := false })
  | .executed, _, w => if w.exec then some ((),w) else none
  | .read_pru_time, data, w => some (data,w)
  | .trig_intc, _, w => some ((),{ w with pending := true })
  | .ring a, _, w => some ((memory a w.rbuf).1,{ w with rbuf := (memory a w.rbuf).2 })

def enter : Block → World → World
  | .woken, w => { w with draining := true }
  | .polled data status, w =>
    if status = 0 then { w with delivered := w.delivered ++ [data] } else { w with draining := false }
  | .initialised, w => { w with ready := true }
  | .wrote data status, w =>
    { w with owed := true, accepted := if status = 0 then w.accepted ++ [data] else w.accepted }
  | .triggered, w => { w with owed := false }
  | _, w => w

def system : System Access Access.Answer Block UInt64 World where
  act := act
  body := body
  enter := enter
  starts := by
    intro b
    cases b with
    | polled data status => simp only [body]; split <;> rfl
    | _ => rfl

def first : Party → Block
  | .main => .main
  | .receive => .thread
  | .pru => .pru

/-- Nothing has been started, no interrupt is pending, and the memory holds anything. -/
def initial (m n : rbuffer) : World where
  rbuf := m
  send_to_pru := n
  exec := false
  thread := false
  pending := false
  ready := false
  owed := false
  draining := false
  accepted := []
  delivered := []

/-- The thread of the host is at the wait. -/
def AtWait (p : Prog Access Access.Answer Block) : Prop := ∃ next, p = .access .wait_event next

/-- The PRU is at the interrupt. -/
def AtTrig (p : Prog Access Access.Answer Block) : Prop := ∃ next, p = .access .trig_intc next

/-- The host reads no ring buffer before the PRU has initialised it, what it
    delivers is the start of what the PRU's writes have accepted, and when it
    waits for an interrupt that is neither pending nor about to come, everything
    has been delivered. -/
structure Delivers (c : Config Party Access Access.Answer Block World) : Prop where
  initialised : ∀ a next, c.code .receive = .access (.ring a) next → c.shared.ready = true
  in_order : c.shared.delivered <+: c.shared.accepted
  no_lost_wakeup : AtWait (c.code .receive) → c.shared.pending = false → ¬ AtTrig (c.code .pru) →
    c.shared.delivered = c.shared.accepted

/-- `awake` says that everything has been delivered or the thread of the host
    will look again: it is draining, or an interrupt is pending or owed. -/
structure Inv (w : World) : Prop where
  executed : w.ready = true → w.exec = true
  carries : w.ready = true → Carries w.rbuf w.accepted w.delivered
  before : w.ready = false → w.accepted = [] ∧ w.delivered = [] ∧ w.pending = false ∧ w.draining = false
  awake : w.pending = true ∨ w.owed = true ∨ w.draining = true ∨ w.delivered = w.accepted

/-- What the other parties may do. -/
def Rely : Party → World → World → Prop
  | .main, w, w' => w'.exec = w.exec
  | .receive, w, w' => w'.draining = w.draining ∧ w'.delivered = w.delivered ∧
      (w.ready = true → w'.ready = true ∧ Fills w.rbuf w'.rbuf)
  | .pru, w, w' => w'.ready = w.ready ∧ w'.owed = w.owed ∧ w'.accepted = w.accepted ∧
      (w.exec = true → w'.exec = true ∧ (w.ready = true → Drains w.rbuf w'.rbuf) ∧
        (w.ready = false → w'.rbuf = w.rbuf))

/-- Where in its code a party makes an access. -/
def Place : Party → Access → World → Prop
  | .main, _, _ => True
  | .receive, a, w => (∀ b, a = .ring b → w.ready = true) ∧ (a = .wait_event → w.draining = false)
  | .pru, a, w => a ≠ .trig_intc → w.owed = false

/-- What a party knows at the start of a block. -/
def Knows : Party → Block → World → Prop
  | .main, .main, w => w.exec = false
  | .main, .ended, _ => True
  | .receive, .thread, w => w.draining = false
  | .receive, .woken, w => w.ready = true ∧ w.draining = true
  | .receive, .drain, w => w.ready = true ∧ w.draining = true
  | .receive, .polled _ status, w => w.ready = true ∧ w.draining = decide (status = 0)
  | .pru, .pru, w => w.ready = false ∧ w.owed = false
  | .pru, .initialised, w => w.ready = true ∧ w.owed = false
  | .pru, .wrote _ _, w => w.ready = true
  | .pru, .triggered, w => w.ready = true ∧ w.owed = false
  | _, _, _ => False

def outline : Outline Party system where
  inv := Inv
  rely := Rely
  guar i a w w' := Place i a w ∧ ∀ j, j ≠ i → Rely j w w'
  pre := Knows
  refl i w := by cases i <;> simp [Rely,fills_refl,drains_refl]
  trans i w w' w'' := by
    cases i
    · exact fun first second => second.trans first
    · rintro ⟨draining,delivered,fills⟩ ⟨draining',delivered',fills'⟩
      refine ⟨draining'.trans draining,delivered'.trans delivered,fun ready => ?_⟩
      obtain ⟨ready',filled⟩ := fills ready
      obtain ⟨ready'',filled'⟩ := fills' ready'
      exact ⟨ready'',fills_trans filled filled'⟩
    · rintro ⟨ready,owed,accepted,ring⟩ ⟨ready',owed',accepted',ring'⟩
      refine ⟨ready'.trans ready,owed'.trans owed,accepted'.trans accepted,fun exec => ?_⟩
      obtain ⟨exec',drains,same⟩ := ring exec
      obtain ⟨exec'',drains',same'⟩ := ring' exec'
      rw [ready] at drains' same'
      exact ⟨exec'',fun on => drains_trans (drains on) (drains' on),fun off => (same' off).trans (same off)⟩
  compat other kept := kept.2 _ (Ne.symm other)

variable {w w' : World}

/-- The ring buffer of the PRU as a part of the world. -/
def component : Component system Rbuffer.Access.Answer rbuffer :=
  .of World.rbuf (fun w m => { w with rbuf := m }) (fun _ _ => rfl) Access.ring memory (fun _ _ _ => rfl)

/-- Nothing changes that the parties know of. -/
structure Quiet (w w' : World) : Prop where
  rbuf : w'.rbuf = w.rbuf
  exec : w'.exec = w.exec
  pending : w'.pending = w.pending
  ready : w'.ready = w.ready
  owed : w'.owed = w.owed
  draining : w'.draining = w.draining
  accepted : w'.accepted = w.accepted
  delivered : w'.delivered = w.delivered

theorem quiet_refl (w : World) : Quiet w w := ⟨rfl,rfl,rfl,rfl,rfl,rfl,rfl,rfl⟩

theorem quiet_inv (inv : Inv w) (quiet : Quiet w w') : Inv w' := by
  obtain ⟨rbuf,exec,pending,ready,owed,draining,accepted,delivered⟩ := quiet
  refine ⟨?_,?_,?_,?_⟩
  · rw [exec,ready]
    exact inv.executed
  · rw [ready,rbuf,accepted,delivered]
    exact inv.carries
  · rw [ready,accepted,delivered,pending,draining]
    exact inv.before
  · rw [pending,owed,draining,accepted,delivered]
    exact inv.awake

theorem quiet_rely (quiet : Quiet w w') (j : Party) : Rely j w w' := by
  obtain ⟨rbuf,exec,pending,ready,owed,draining,accepted,delivered⟩ := quiet
  cases j with
  | main => exact exec
  | receive => exact ⟨draining,delivered,fun on => ⟨ready.trans on,by rw [rbuf]; exact fills_refl _⟩⟩
  | pru => exact ⟨ready,owed,accepted,fun on => ⟨exec.trans on,fun _ => by rw [rbuf]; exact drains_refl _,fun _ => rbuf⟩⟩

/-- A quiet access made in its place. -/
theorem sat_quiet {i : Party} {K : World → Prop} {a : Access} {f : a.Answer → Prog Access Access.Answer Block}
    (knows : K w) (stable : ∀ {w w'}, Rely i w w' → K w → K w') (place : ∀ {w}, K w → Place i a w)
    (quiet : ∀ {data w r t}, K w → Inv w → act a data w = some (r,t) → Quiet w t ∧ K t)
    (next : ∀ r t, K t → Inv t → Quiet t (system.settle (f r) t) ∧ outline.Sat i (f r) t) :
    outline.Sat i (.access a f) w := by
  intro w₁ data r t relied (inv : Inv w₁) acted
  have knows₁ := stable relied knows
  obtain ⟨here,knows_t⟩ := quiet knows₁ inv acted
  have inv_t := quiet_inv inv here
  obtain ⟨settled,sat⟩ := next r t knows_t inv_t
  refine ⟨quiet_inv inv_t settled,⟨place knows₁,fun j _ => ?_⟩,sat⟩
  exact outline.trans j (quiet_rely here j) (quiet_rely settled j)

theorem pending_ready (inv : Inv w) (pending : w.pending = true) : w.ready = true := by
  by_contra off
  have := (inv.before (by simpa using off)).2.2.1
  simp [this] at pending

/-- Of what the thread does only the PRU sees something. -/
theorem seen_by_pru (exec : w'.exec = w.exec) (seen : Rely .pru w w') : ∀ j, j ≠ .receive → Rely j w w' := by
  rintro (_ | _ | _) other
  · exact exec
  · exact absurd rfl other
  · exact seen

/-- Of what the PRU does only the thread sees something. -/
theorem seen_by_receive (exec : w'.exec = w.exec) (seen : Rely .receive w w') : ∀ j, j ≠ .pru → Rely j w w' := by
  rintro (_ | _ | _) other
  · exact exec
  · exact seen
  · exact absurd rfl other

/-! ### The host's `main` -/

theorem exec_off (inv : Inv w) (stopped : w.exec = false) : w.ready = false := by
  by_contra on
  have := inv.executed (by simpa using on)
  simp [this] at stopped

/-- Before the PRU runs, only `main` touches the memory. -/
theorem stopped_keeps (m n : rbuffer) (exec : Bool) (inv : Inv w) (stopped : w.exec = false) :
    Inv { w with rbuf := m, send_to_pru := n, exec := exec } ∧
      ∀ j, j ≠ .main → Rely j w { w with rbuf := m, send_to_pru := n, exec := exec } := by
  have off := exec_off inv stopped
  refine ⟨⟨?_,?_,inv.before,inv.awake⟩,?_⟩
  · exact fun (on : w.ready = true) => by simp [off] at on
  · exact fun (on : w.ready = true) => by simp [off] at on
  · intro j other
    cases j with
    | main => exact absurd rfl other
    | receive => exact ⟨rfl,rfl,fun on => by simp [off] at on⟩
    | pru => exact ⟨rfl,rfl,rfl,fun on => by simp [stopped] at on⟩

theorem ended_sat : outline.Sat .main (body .ended) w := by
  refine sat_quiet (K := fun _ => True) trivial (fun _ _ => trivial) (fun _ => trivial) ?_ ?_
  · intro _ w r t _ _ acted
    cases acted
    exact ⟨quiet_refl _,trivial⟩
  · exact fun _ t _ _ => ⟨quiet_refl _,trivial⟩

theorem main_sat (stopped : w.exec = false) : outline.Sat .main main w := by
  have stable : ∀ {w w'}, Rely .main w w' → w.exec = false → w'.exec = false := fun same off => same.trans off
  intro w₁ _ r t same (inv₁ : Inv w₁) acted
  cases acted
  have stopped₁ := stable same stopped
  obtain ⟨inv,others⟩ := stopped_keeps zeroed zeroed w₁.exec inv₁ stopped₁
  refine ⟨inv,⟨trivial,others⟩,?_⟩
  refine outline.sat_open (i := .main) (fun w => w.exec = false) (fun _ _ off same _ => stable same off) ?_ ?_ _ rfl stopped₁
  · intro a _ w r t stopped inv acted
    cases acted
    obtain ⟨inv',others⟩ := stopped_keeps w.rbuf (memory a w.send_to_pru).2 w.exec inv stopped
    exact ⟨stopped,inv',trivial,others⟩
  · intro _ a _ w r t stopped inv acted
    cases acted
    obtain ⟨inv',others⟩ := stopped_keeps w.rbuf (memory a w.send_to_pru).2 w.exec inv stopped
    refine ⟨inv',⟨trivial,others⟩,?_⟩
    intro w₂ _ r t same (inv₂ : Inv w₂) acted
    cases acted
    have stopped₂ : w₂.exec = false := stable same stopped
    obtain ⟨inv',others⟩ := stopped_keeps w₂.rbuf w₂.send_to_pru true inv₂ stopped₂
    refine ⟨inv',⟨trivial,others⟩,?_⟩
    refine sat_quiet (K := fun _ => True) trivial (fun _ _ => trivial) (fun _ => trivial) ?_ ?_
    · intro _ w r t _ _ acted
      cases acted
      exact ⟨⟨rfl,rfl,rfl,rfl,rfl,rfl,rfl,rfl⟩,trivial⟩
    · exact fun _ t _ _ => ⟨quiet_refl _,trivial⟩

/-! ### The thread of the host -/

/-- Between the interrupt and the read that finds nothing. -/
def Draining (w : World) : Prop := w.ready = true ∧ w.draining = true

theorem draining_rely (relied : Rely .receive w w') (draining : Draining w) : Draining w' :=
  ⟨(relied.2.2 draining.1).1,relied.1.trans draining.2⟩

theorem wait_sat (asleep : w.draining = false) : outline.Sat .receive wait w := by
  intro w₁ _ r t relied (inv : Inv w₁) acted
  have asleep₁ : w₁.draining = false := relied.1.trans asleep
  simp only [system,act] at acted
  split at acted
  · rename_i pending
    cases acted
    have ready := pending_ready inv pending
    refine ⟨⟨inv.executed,inv.carries,?_,.inr (.inr (.inl rfl))⟩,⟨⟨nofun,fun _ => asleep₁⟩,?_⟩,ready,rfl⟩
    · exact fun (off : w₁.ready = false) => by simp [off] at ready
    · exact seen_by_pru rfl (outline.refl .pru w₁)
  · cases acted

theorem thread_sat (asleep : w.draining = false) : outline.Sat .receive (body .thread) w := by
  refine sat_quiet asleep (fun relied asleep => relied.1.trans asleep) (fun _ => ⟨nofun,nofun⟩) ?_ ?_
  · intro _ w r t asleep _ acted
    simp only [act] at acted
    split at acted
    · cases acted
      exact ⟨quiet_refl _,asleep⟩
    · cases acted
  · exact fun _ t asleep _ => ⟨quiet_refl _,wait_sat asleep⟩

theorem woken_sat (draining : Draining w) : outline.Sat .receive (body .woken) w := by
  intro w₁ _ r t relied (inv : Inv w₁) acted
  cases acted
  obtain ⟨ready,awake⟩ := draining_rely relied draining
  refine ⟨⟨inv.executed,inv.carries,?_,.inr (.inr (.inl awake))⟩,⟨⟨nofun,nofun⟩,?_⟩,ready,awake⟩
  · exact fun (off : w₁.ready = false) => by simp [off] at ready
  · exact seen_by_pru rfl (outline.refl .pru w₁)

/-- The read that finds nothing finds everything delivered. -/
theorem polled_keeps {m : rbuffer} {result : UInt64 × Option Int16} (inv : Inv w) (draining : Draining w)
    (read : Read words 2 (some 0) w.rbuf result m) :
    let b := Block.polled result.1 (result.2.getD 0)
    Inv (enter b { w with rbuf := m }) ∧ (∀ j, j ≠ .receive → Rely j w (enter b { w with rbuf := m })) ∧
      Knows .receive b (enter b { w with rbuf := m }) := by
  obtain ⟨ready,awake⟩ := draining
  rcases carries_read (inv.carries ready) read with ⟨data,rfl,carries,drains⟩ | ⟨rfl,rfl,all⟩
  · refine ⟨⟨inv.executed,fun _ => carries,?_,.inr (.inr (.inl awake))⟩,?_,ready,awake⟩
    · exact fun (off : w.ready = false) => by simp [off] at ready
    · exact seen_by_pru rfl ⟨rfl,rfl,rfl,fun exec => ⟨exec,fun _ => drains,fun off => by simp [off] at ready⟩⟩
  · refine ⟨⟨inv.executed,inv.carries,?_,.inr (.inr (.inr all.symm))⟩,?_,ready,rfl⟩
    · exact fun (off : w.ready = false) => by simp [off] at ready
    · exact seen_by_pru rfl (outline.refl .pru w)

theorem poll_sat (draining : Draining w) : outline.Sat .receive poll w := by
  refine outline.sat_call component Draining ?_ ?_ ?_ _ (rbuf_read_uint64_atomic (some 0) w.rbuf) draining
  · intro w w' draining relied inv
    have draining' := draining_rely relied draining
    exact ⟨draining',(relied.2.2 draining.1).2,(inv.carries draining'.1).inBounds⟩
  · rintro a w m draining inv ⟨rfl,_⟩
    exact ⟨draining,inv,⟨fun _ _ => draining.1,nofun⟩,fun j _ => outline.refl j w⟩
  · rintro ⟨data,status⟩ a w m draining inv ⟨_,read⟩
    obtain ⟨inv',others,knows⟩ := polled_keeps inv draining read
    exact ⟨inv',⟨⟨fun _ _ => draining.1,nofun⟩,others⟩,knows⟩

theorem polled_sat {data : UInt64} {status : Int16} (knows : Knows .receive (.polled data status) w) :
    outline.Sat .receive (body (.polled data status)) w := by
  obtain ⟨ready,draining⟩ := knows
  by_cases more : status = 0
  · simp only [body,more,↓reduceIte]
    exact poll_sat ⟨ready,by simpa [more] using draining⟩
  · simp only [body,more,↓reduceIte]
    exact wait_sat (by simpa [more] using draining)

/-! ### The PRU -/

/-- Before the ring buffer is initialised nobody else touches it. -/
def Booting (w : World) : Prop := w.exec = true ∧ w.ready = false ∧ w.owed = false

theorem init_sat (booting : Booting w) : outline.Sat .pru (onRing init_rbuffer >>= fun _ => .ret .initialised) w := by
  refine outline.sat_alone component Booting ?_ ?_ ?_ init_rbuffer rfl booting (init_rbuffer_exec w.rbuf)
  · rintro w w' ⟨exec,off,free⟩ ⟨ready,owed,_,ring⟩ _
    obtain ⟨exec',_,same⟩ := ring exec
    exact ⟨⟨exec',ready.trans off,owed.trans free⟩,same off⟩
  · rintro a w m ⟨exec,off,free⟩ inv
    refine ⟨⟨exec,off,free⟩,⟨inv.executed,?_,inv.before,inv.awake⟩,fun _ => free,?_⟩
    · exact fun (on : w.ready = true) => by simp [off] at on
    · exact seen_by_receive rfl ⟨rfl,rfl,fun on => by simp [off] at on⟩
  · rintro a w ⟨exec,off,free⟩ inv
    obtain ⟨accepted,delivered,_⟩ := inv.before off
    have nothing : w.delivered = w.accepted := by rw [accepted,delivered]
    refine ⟨⟨fun _ => exec,?_,nofun,.inr (.inr (.inr nothing))⟩,⟨fun _ => free,?_⟩,rfl,free⟩
    · intro _
      show Carries fresh w.accepted w.delivered
      rw [accepted,delivered]
      exact carries_fresh
    · exact seen_by_receive rfl ⟨rfl,rfl,fun on => by simp [off] at on⟩

theorem boot_sat (off : w.ready = false) (free : w.owed = false) : outline.Sat .pru (body .pru) w := by
  intro w₁ _ r t relied (inv : Inv w₁) acted
  have free₁ : w₁.owed = false := relied.2.1.trans free
  simp only [system,act] at acted
  split at acted
  · rename_i exec
    cases acted
    exact ⟨inv,⟨fun _ => free₁,fun j _ => outline.refl j w₁⟩,init_sat ⟨exec,relied.1.trans off,free₁⟩⟩
  · cases acted

/-- Between two messages. -/
def Sending (w : World) : Prop := w.exec = true ∧ w.ready = true ∧ w.owed = false

theorem sending_rely (relied : Rely .pru w w') (sending : Sending w) : Sending w' ∧ Drains w.rbuf w'.rbuf := by
  obtain ⟨exec,on,free⟩ := sending
  obtain ⟨ready,owed,_,ring⟩ := relied
  obtain ⟨exec',drains,_⟩ := ring exec
  exact ⟨⟨exec',ready.trans on,owed.trans free⟩,drains on⟩

/-- After the write an interrupt is owed. -/
theorem wrote_keeps {m : rbuffer} {data : UInt64} {status : Int16} (inv : Inv w) (sending : Sending w)
    (wrote : Wrote (words data) w.rbuf status m) :
    Inv (enter (.wrote data status) { w with rbuf := m }) ∧
      ∀ j, j ≠ .pru → Rely j w (enter (.wrote data status) { w with rbuf := m }) := by
  obtain ⟨exec,on,_⟩ := sending
  have before : ∀ {p : Prop}, w.ready = false → p := fun off => by simp [on] at off
  rcases carries_wrote (inv.carries on) wrote with ⟨rfl,carries,fills⟩ | ⟨rfl,rfl,_⟩
  · refine ⟨⟨inv.executed,fun _ => carries,before,.inr (.inl rfl)⟩,?_⟩
    exact seen_by_receive rfl ⟨rfl,rfl,fun ready => ⟨ready,fills⟩⟩
  · refine ⟨⟨inv.executed,inv.carries,before,.inr (.inl rfl)⟩,?_⟩
    exact seen_by_receive rfl ⟨rfl,rfl,fun ready => ⟨ready,fills_refl _⟩⟩

theorem send_sat (sending : Sending w) : outline.Sat .pru send w := by
  refine sat_quiet sending (fun relied sending => (sending_rely relied sending).1) (fun sending _ => sending.2.2) ?_ ?_
  · intro _ w r t sending _ acted
    cases acted
    exact ⟨quiet_refl _,sending⟩
  · intro data t sending _
    refine ⟨quiet_refl _,?_⟩
    refine outline.sat_call component Sending ?_ ?_ ?_ _ (rbuf_write_uint64_atomic data t.rbuf) sending
    · intro w w' sending relied inv
      obtain ⟨sending',drains⟩ := sending_rely relied sending
      exact ⟨sending',drains,(inv.carries sending'.2.1).inBounds⟩
    · rintro a w m sending inv unseen
      refine ⟨sending,⟨inv.executed,fun ready => carries_unseen (inv.carries ready) unseen,inv.before,inv.awake⟩,
        fun _ => sending.2.2,?_⟩
      exact seen_by_receive rfl ⟨rfl,rfl,fun ready => ⟨ready,unseen_fills unseen⟩⟩
    · rintro status a w m sending inv ⟨_,wrote⟩
      obtain ⟨inv',others⟩ := wrote_keeps inv sending wrote
      exact ⟨inv',⟨fun _ => sending.2.2,others⟩,sending.2.1⟩

theorem trig_sat {data : UInt64} {status : Int16} (ready : w.ready = true) :
    outline.Sat .pru (body (.wrote data status)) w := by
  intro w₁ _ r t relied (inv : Inv w₁) acted
  cases acted
  have ready₁ : w₁.ready = true := relied.1.trans ready
  refine ⟨⟨inv.executed,inv.carries,?_,.inl rfl⟩,⟨fun other => absurd rfl other,?_⟩,ready₁,rfl⟩
  · exact fun (off : w₁.ready = false) => by simp [off] at ready₁
  · exact seen_by_receive rfl (outline.refl .receive w₁)

theorem bodies_proved : outline.Proved := by
  intro i b w (inv : Inv w) (knows : Knows i b w)
  show outline.Sat i (body b) w
  cases i with
  | main =>
    cases b with
    | main => exact main_sat knows
    | ended => exact ended_sat
    | _ => exact knows.elim
  | receive =>
    cases b with
    | thread => exact thread_sat knows
    | woken => exact woken_sat knows
    | drain => exact poll_sat knows
    | polled data status => exact polled_sat knows
    | _ => exact knows.elim
  | pru =>
    cases b with
    | pru => exact boot_sat knows.1 knows.2
    | initialised => exact send_sat ⟨inv.executed knows.1,knows⟩
    | wrote data status => exact trig_sat knows
    | triggered => exact send_sat ⟨inv.executed knows.1,knows⟩
    | _ => exact knows.elim

/-- A state in which every access can be made and that differs only in what
    others may do. -/
theorem all_enabled (inv : Inv w) (ready : w.ready = true) :
    let w' := { w with pending := true, thread := true, exec := true }
    Inv w' ∧ (∀ j, j ≠ .main → Rely j w w') ∧ ∀ a, ∃ r t, act a 0 w' = some (r,t) := by
  refine ⟨⟨fun _ => rfl,inv.carries,?_,.inl rfl⟩,?_,?_⟩
  · exact fun (off : w.ready = false) => by simp [off] at ready
  · intro j other
    cases j with
    | main => exact absurd rfl other
    | receive => exact outline.refl .receive w
    | pru => exact ⟨rfl,rfl,rfl,fun _ => ⟨rfl,fun _ => drains_refl _,fun _ => rfl⟩⟩
  · intro a
    cases a <;> exact ⟨_,_,rfl⟩

theorem holds_delivers {c : Config Party Access Access.Answer Block World} (holds : outline.Holds c) : Delivers c := by
  have inv : Inv c.shared := holds.inv
  refine ⟨?_,?_,?_⟩
  · intro a next code
    have sat := holds.sat .receive
    rw [code] at sat
    obtain ⟨_,⟨place,_⟩,_⟩ := sat c.shared 0 _ _ (outline.refl _ _) inv rfl
    exact place.1 a rfl
  · by_cases ready : c.shared.ready = true
    · exact carries_isPrefix (inv.carries ready)
    · rw [(inv.before (by simpa using ready)).2.1]
      exact List.nil_prefix
  · rintro ⟨next,at_wait⟩ unpending not_trig
    by_cases ready : c.shared.ready = true
    · obtain ⟨inv',others,enabled⟩ := all_enabled inv ready
      have asleep : c.shared.draining = false := by
        have sat := holds.sat .receive
        rw [at_wait] at sat
        obtain ⟨_,⟨place,_⟩,_⟩ := sat _ 0 _ _ (others .receive (by decide)) inv' rfl
        exact place.2 rfl
      have free : c.shared.owed = false := by
        have sat := holds.sat .pru
        have more := holds.more .pru
        cases code : c.code .pru with
        | ret b => simp [code,Prog.isAccess] at more
        | access a next =>
          rw [code] at sat
          obtain ⟨r,t,acted⟩ := enabled a
          obtain ⟨_,⟨place,_⟩,_⟩ := sat _ 0 r t (others .pru (by decide)) inv' acted
          refine place ?_
          rintro rfl
          exact not_trig ⟨next,code⟩
      rcases inv.awake with pending | owed | draining | all
      · simp [unpending] at pending
      · simp [free] at owed
      · simp [asleep] at draining
      · exact all
    · obtain ⟨accepted,delivered,_⟩ := inv.before (by simpa using ready)
      rw [accepted,delivered]

/-- Whatever the memory holds at first, whatever the PRU sends and however the
    three parties interleave, the channel to the host delivers. -/
theorem channel_delivers (m n : rbuffer) (schedule : List (Party × UInt64)) :
    Delivers (system.run (system.start (initial m n) first) schedule) := by
  apply holds_delivers
  refine outline.sound bodies_proved ?_ ?_ schedule
  · exact ⟨nofun,nofun,fun _ => ⟨rfl,rfl,rfl,rfl⟩,.inr (.inr (.inr rfl))⟩
  · intro i
    cases i with
    | main => exact rfl
    | receive => exact rfl
    | pru => exact ⟨rfl,rfl⟩

example : (system.run (system.start (initial fresh fresh) first) (List.replicate 6 (.main,0) ++
    List.replicate 12 (.pru,7) ++ List.replicate 9 (.receive,0))).shared.delivered = [7] := by
  decide +kernel

end NeslPru.TimeSyncReceive
