import NeslPru.RbufferChannel

/-!
The messages of `iep_timer` from the PRU to the host: a count and an interrupt
each time, and a thread of the host that takes one message for each interrupt
that it sees. The interrupt is one flag, so that a message whose interrupt comes
while the flag is still set stays behind (`left_behind`).
-/
namespace NeslPru.IepTimerReceive
open NeslPru.Access NeslPru.RelyGuarantee NeslPru.Rbuffer NeslPru.RbufferQueue NeslPru.RbufferAtomic
open NeslPru.RbufferChannel
set_option linter.unusedSimpArgs false

inductive Party where
  | main
  | thread
  | pru
deriving DecidableEq

/-- `trig_end` is the interrupt of the other number, which `main` waits for. -/
inductive Access where
  | wait_end
  | set_stop
  | exited
  | wait_event
  | clear_event
  | load_stop
  | IEP_CNT
  | trig_intc
  | trig_end
  | ring (a : Rbuffer.Access)

@[reducible] def Access.Answer : Access → Type
  | .wait_end => Unit
  | .set_stop => Unit
  | .exited => Unit
  | .wait_event => Unit
  | .clear_event => Unit
  | .load_stop => Bool
  | .IEP_CNT => UInt32
  | .trig_intc => Unit
  | .trig_end => Unit
  | .ring a => a.Answer

inductive Block where
  | main
  | exited
  | threadFunction
  | woken
  | cleared
  | taken (data : UInt32) (status : Int16)
  | pru (n : Nat)
  | loop (i : Nat)
  | wrote (i : Nat) (data : UInt32) (status : Int16)

open Prog (call)

/-- A program of the ring buffer header, run on the ring buffer of the PRU. -/
def onRing {α : Type} (p : RingProg α) : Prog Access Access.Answer α := p.embed .ring (fun _ r => r)

/-- The one read of `threadFunction` for an interrupt, which starts with `status` 0. -/
def take : Prog Access Access.Answer Block := do
  let (data,status) ← onRing (rbuf_read_uint32 (some 0))
  return .taken data (status.getD 0)

/-- One message of the PRU, with `i` more to come. -/
def send (i : Nat) : Prog Access Access.Answer Block := do
  let data : UInt32 ← call Access.IEP_CNT
  let status ← onRing (rbuf_write_uint32 data)
  return .wrote i data status

/-- The PRU starts with the number of messages that it sends. -/
def body : Block → Prog Access Access.Answer Block
  | .main => do
    call Access.wait_end
    call Access.set_stop
    return .exited
  | .exited => do
    call Access.exited
    return .exited
  | .threadFunction => do
    call Access.wait_event
    return .woken
  | .woken => do
    call Access.clear_event
    return .cleared
  | .cleared => take
  | .taken _ _ => do
    let stop : Bool ← call Access.load_stop
    return if stop then .exited else .threadFunction
  | .pru n => do
    onRing init_rbuffer
    return .loop n
  | .loop 0 => do
    call Access.trig_end
    return .exited
  | .loop (i + 1) => send i
  | .wrote i _ _ => do
    call Access.trig_intc
    return .loop i

/-- The memory and the two interrupts. `ready` says that the PRU has initialised
    the ring buffer, `owed` that it is between a write and the interrupt, and
    `reading` that the thread has cleared an interrupt and not yet read.
    `coalesced` counts the interrupts that came while one was pending, and
    `refused` the writes that found the ring buffer full. -/
structure World where
  rbuf : rbuffer
  stop : Bool
  pending : Bool
  pending_end : Bool
  ready : Bool
  owed : Bool
  reading : Bool
  coalesced : Nat
  refused : Nat
  accepted : List UInt32
  printed : List UInt32

/-- The input of a step is what `IEP_CNT` holds. A turn of a party that has ended
    changes nothing. -/
def act : (a : Access) → UInt32 → World → Option (a.Answer × World)
  | .wait_end, _, w => if w.pending_end then some ((),w) else none
  | .set_stop, _, w => some ((),{ w with stop := true })
  | .exited, _, w => some ((),w)
  | .wait_event, _, w => if w.pending then some ((),w) else none
  | .clear_event, _, w => some ((),{ w with pending := false })
  | .load_stop, _, w => some (w.stop,w)
  | .IEP_CNT, iep_cnt, w => some (iep_cnt,w)
  | .trig_intc, _, w =>
    some ((),{ w with pending := true, coalesced := if w.pending then w.coalesced + 1 else w.coalesced })
  | .trig_end, _, w => some ((),{ w with pending_end := true })
  | .ring a, _, w => some ((memory a w.rbuf).1,{ w with rbuf := (memory a w.rbuf).2 })

/-- A message is printed when its read has succeeded. -/
def enter : Block → World → World
  | .cleared, w => { w with reading := true }
  | .taken data status, w =>
    { w with reading := false, printed := if status = 0 then w.printed ++ [data] else w.printed }
  | .loop _, w => { w with ready := true, owed := false }
  | .wrote _ data status, w =>
    if status = 0 then { w with owed := true, accepted := w.accepted ++ [data] }
    else { w with owed := true, refused := w.refused + 1 }
  | _, w => w

def system : System Access Access.Answer Block UInt32 World where
  act := act
  body := body
  enter := enter
  starts := by
    intro b
    cases b with
    | loop i => cases i <;> rfl
    | _ => rfl

/-- The program of the repository sends 30 messages. -/
def first (n : Nat) : Party → Block
  | .main => .main
  | .thread => .threadFunction
  | .pru => .pru n

/-- No interrupt is pending, and the memory holds anything. -/
def initial (m : rbuffer) : World where
  rbuf := m
  stop := false
  pending := false
  pending_end := false
  ready := false
  owed := false
  reading := false
  coalesced := 0
  refused := 0
  accepted := []
  printed := []

/-- The thread of the host is at the wait. -/
def AtWait (p : Prog Access Access.Answer Block) : Prop := ∃ next, p = .access .wait_event next

/-- The PRU is at the interrupt. -/
def AtTrig (p : Prog Access Access.Answer Block) : Prop := ∃ next, p = .access .trig_intc next

/-- What is printed is the start of what the PRU's writes have accepted, and when
    the thread waits for an interrupt that is neither pending nor about to come,
    everything has been printed and the ring buffer is empty. -/
structure Delivers (c : Config Party Access Access.Answer Block World) : Prop where
  in_order : c.shared.printed <+: c.shared.accepted
  none_left : AtWait (c.code .thread) → c.shared.pending = false → ¬ AtTrig (c.code .pru) →
    c.shared.printed = c.shared.accepted ∧ (c.shared.ready = true → contents c.shared.rbuf = [])

/-- The reads that the host will still make for the interrupts it has or will get. -/
def World.tokens (w : World) : Nat := w.owed.toNat + w.pending.toNat + w.reading.toNat

/-- Every message that waits has a read to come or lost it to an interrupt that
    was already pending; a read to come has a message or lost it to a full buffer. -/
structure Inv (w : World) : Prop where
  carries : w.ready = true → CarriesWords w.rbuf w.accepted w.printed
  before : w.ready = false → w.accepted = [] ∧ w.printed = [] ∧ w.tokens = 0 ∧ w.coalesced = 0
  most : w.ready = true → queued w.rbuf ≤ w.tokens + w.coalesced
  least : w.ready = true → w.tokens + w.coalesced ≤ queued w.rbuf + w.refused

/-- What the other parties may do. -/
def Rely : Party → World → World → Prop
  | .main, _, _ => True
  | .thread, w, w' => w'.reading = w.reading ∧ w'.printed = w.printed ∧ (w.pending = true → w'.pending = true) ∧
      (w.ready = true → w'.ready = true ∧ Fills w.rbuf w'.rbuf)
  | .pru, w, w' => w'.ready = w.ready ∧ w'.owed = w.owed ∧ w'.accepted = w.accepted ∧
      (w.ready = true → Drains w.rbuf w'.rbuf) ∧ (w.ready = false → w'.rbuf = w.rbuf)

/-- Where in its code a party makes an access. -/
def Place : Party → Access → World → Prop
  | .main, _, _ => True
  | .thread, a, w => a = .wait_event → w.reading = false
  | .pru, a, w => a ≠ .trig_intc → w.owed = false

/-- What a party knows at the start of a block. -/
def Knows : Party → Block → World → Prop
  | .main, .main, _ => True
  | .main, .exited, _ => True
  | .thread, .threadFunction, w => w.reading = false
  | .thread, .woken, w => w.ready = true ∧ w.pending = true ∧ w.reading = false
  | .thread, .cleared, w => w.ready = true ∧ w.reading = true
  | .thread, .taken _ _, w => w.reading = false
  | .thread, .exited, _ => True
  | .pru, .pru _, w => w.ready = false ∧ w.owed = false
  | .pru, .loop _, w => w.ready = true ∧ w.owed = false
  | .pru, .wrote _ _ _, w => w.ready = true ∧ w.owed = true
  | .pru, .exited, w => w.owed = false
  | _, _, _ => False

def outline : Outline Party system where
  inv := Inv
  rely := Rely
  guar i a w w' := Place i a w ∧ ∀ j, j ≠ i → Rely j w w'
  pre := Knows
  refl i w := by cases i <;> simp [Rely,fills_refl,drains_refl]
  trans i w w' w'' := by
    cases i
    · exact fun _ _ => trivial
    · rintro ⟨reading,printed,pending,fills⟩ ⟨reading',printed',pending',fills'⟩
      refine ⟨reading'.trans reading,printed'.trans printed,fun set => pending' (pending set),fun ready => ?_⟩
      obtain ⟨ready',filled⟩ := fills ready
      obtain ⟨ready'',filled'⟩ := fills' ready'
      exact ⟨ready'',fills_trans filled filled'⟩
    · rintro ⟨ready,owed,accepted,drains,same⟩ ⟨ready',owed',accepted',drains',same'⟩
      rw [ready] at drains' same'
      exact ⟨ready'.trans ready,owed'.trans owed,accepted'.trans accepted,
        fun on => drains_trans (drains on) (drains' on),fun off => (same' off).trans (same off)⟩
  compat other kept := kept.2 _ (Ne.symm other)

variable {w w' : World}

/-- The ring buffer as a part of the world. -/
def component : Component system Rbuffer.Access.Answer rbuffer :=
  .of World.rbuf (fun w m => { w with rbuf := m }) (fun _ _ => rfl) Access.ring memory (fun _ _ _ => rfl)

/-- Nobody but a party itself sees that it stops or sets `stop`. -/
theorem flags_keep (stop pending_end : Bool) (inv : Inv w) :
    Inv { w with stop := stop, pending_end := pending_end } ∧
      ∀ j, Rely j w { w with stop := stop, pending_end := pending_end } := by
  refine ⟨⟨inv.carries,inv.before,inv.most,inv.least⟩,?_⟩
  rintro (_ | _ | _)
  · exact trivial
  · exact outline.refl .thread w
  · exact outline.refl .pru w

theorem tokens_ready (inv : Inv w) (some_token : 0 < w.tokens) : w.ready = true := by
  by_contra off
  have none := (inv.before (by simpa using off)).2.2.1
  omega

theorem pending_ready (inv : Inv w) (pending : w.pending = true) : w.ready = true := by
  apply tokens_ready inv
  rw [World.tokens,pending,Bool.toNat_true]
  omega

theorem on_not_off {p : Prop} (on : w.ready = true) (off : w.ready = false) : p := by
  simp [on] at off

/-- Of what the thread does only the PRU sees something. -/
theorem seen_by_pru (seen : Rely .pru w w') : ∀ j, j ≠ .thread → Rely j w w' := by
  rintro (_ | _ | _) other
  · exact trivial
  · exact absurd rfl other
  · exact seen

/-- Of what the PRU does only the thread sees something. -/
theorem seen_by_thread (seen : Rely .thread w w') : ∀ j, j ≠ .pru → Rely j w w' := by
  rintro (_ | _ | _) other
  · exact trivial
  · exact seen
  · exact absurd rfl other

/-- Once the ring buffer has been initialised. -/
theorem inv_of_ready (ready : w.ready = true) (carries : CarriesWords w.rbuf w.accepted w.printed)
    (most : queued w.rbuf ≤ w.tokens + w.coalesced) (least : w.tokens + w.coalesced ≤ queued w.rbuf + w.refused) : Inv w :=
  ⟨fun _ => carries,on_not_off ready,fun _ => most,fun _ => least⟩

/-! ### The host -/

theorem exited_sat {i : Party} (knows : Knows i .exited w) : outline.Sat i (body .exited) w := by
  intro w₁ _ r t relied (inv : Inv w₁) acted
  cases acted
  cases i with
  | main => exact ⟨inv,⟨trivial,fun j _ => outline.refl j w₁⟩,trivial⟩
  | thread => exact ⟨inv,⟨nofun,fun j _ => outline.refl j w₁⟩,trivial⟩
  | pru =>
    have free : w₁.owed = false := relied.2.1.trans knows
    exact ⟨inv,⟨fun _ => free,fun j _ => outline.refl j w₁⟩,free⟩

theorem main_sat : outline.Sat .main (body .main) w := by
  intro w₁ _ r t _ (inv₁ : Inv w₁) acted
  simp only [system,act] at acted
  split at acted
  · cases acted
    refine ⟨inv₁,⟨trivial,fun j _ => outline.refl j w₁⟩,?_⟩
    intro w₂ _ r t _ (inv₂ : Inv w₂) acted
    cases acted
    obtain ⟨inv,others⟩ := flags_keep true w₂.pending_end inv₂
    exact ⟨inv,⟨trivial,fun j _ => others j⟩,trivial⟩
  · cases acted

theorem wait_sat (idle : w.reading = false) : outline.Sat .thread (body .threadFunction) w := by
  intro w₁ _ r t relied (inv : Inv w₁) acted
  have idle₁ : w₁.reading = false := relied.1.trans idle
  simp only [system,act] at acted
  split at acted
  · rename_i pending
    cases acted
    exact ⟨inv,⟨fun _ => idle₁,fun j _ => outline.refl j w₁⟩,pending_ready inv pending,pending,idle₁⟩
  · cases acted

theorem woken_sat (ready : w.ready = true) (pending : w.pending = true) (idle : w.reading = false) :
    outline.Sat .thread (body .woken) w := by
  intro w₁ _ r t relied (inv : Inv w₁) acted
  cases acted
  obtain ⟨reading,_,still,ring⟩ := relied
  have ready₁ := (ring ready).1
  have pending₁ := still pending
  have idle₁ : w₁.reading = false := reading.trans idle
  have same : World.tokens { w₁ with pending := false, reading := true } = w₁.tokens := by
    simp [World.tokens,pending₁,idle₁]
  refine ⟨inv_of_ready ready₁ (inv.carries ready₁) ?_ ?_,⟨nofun,?_⟩,ready₁,rfl⟩
  · exact (inv.most ready₁).trans_eq (congrArg (· + w₁.coalesced) same.symm)
  · exact (congrArg (· + w₁.coalesced) same).trans_le (inv.least ready₁)
  · exact seen_by_pru (outline.refl .pru w₁)

/-- Between the interrupt and the end of the read. -/
def Reading (w : World) : Prop := w.ready = true ∧ w.reading = true

/-- The one token that a read uses up. -/
theorem tokens_taken {w w' : World} (owed : w'.owed = w.owed) (pending : w'.pending = w.pending)
    (busy : w.reading = true) (idle : w'.reading = false) : w.tokens = w'.tokens + 1 := by
  simp [World.tokens,owed,pending,idle,busy]

/-- A read takes the oldest message, or there is none. -/
theorem taken_keeps {m : rbuffer} {result : UInt32 × Option Int16} (inv : Inv w) (reading : Reading w)
    (read : Read (fun data => [data]) 1 (some 0) w.rbuf result m) :
    let b := Block.taken result.1 (result.2.getD 0)
    Inv (enter b { w with rbuf := m }) ∧ (∀ j, j ≠ .thread → Rely j w (enter b { w with rbuf := m })) := by
  obtain ⟨ready,busy⟩ := reading
  intro b
  have used : w.tokens = (enter b { w with rbuf := m }).tokens + 1 := tokens_taken rfl rfl busy rfl
  have most := inv.most ready
  have least := inv.least ready
  rcases carriesWords_read (inv.carries ready) read with ⟨data,rfl,carries,drains,fewer⟩ | ⟨rfl,rfl,none⟩
  · refine ⟨inv_of_ready ready carries ?_ ?_,?_⟩
    · show queued m ≤ World.tokens _ + w.coalesced
      omega
    · show World.tokens _ + w.coalesced ≤ queued m + w.refused
      omega
    · exact seen_by_pru ⟨rfl,rfl,rfl,fun _ => drains,on_not_off ready⟩
  · refine ⟨inv_of_ready ready (inv.carries ready) ?_ ?_,?_⟩
    · show queued w.rbuf ≤ World.tokens _ + w.coalesced
      omega
    · show World.tokens _ + w.coalesced ≤ queued w.rbuf + w.refused
      omega
    · exact seen_by_pru (outline.refl .pru w)

theorem take_sat (reading : Reading w) : outline.Sat .thread take w := by
  refine outline.sat_call component Reading ?_ ?_ ?_ _ (rbuf_read_uint32_atomic (some 0) w.rbuf) reading
  · rintro w w' ⟨ready,busy⟩ ⟨same,_,_,ring⟩ inv
    obtain ⟨ready',fills⟩ := ring ready
    exact ⟨⟨ready',same.trans busy⟩,fills,(inv.carries ready').inBounds⟩
  · rintro a w m reading inv ⟨rfl,_⟩
    exact ⟨reading,inv,⟨nofun,fun j _ => outline.refl j w⟩⟩
  · rintro ⟨data,status⟩ a w m reading inv ⟨_,read⟩
    obtain ⟨inv',others⟩ := taken_keeps inv reading read
    exact ⟨inv',⟨nofun,others⟩,rfl⟩

theorem taken_sat {data : UInt32} {status : Int16} (idle : w.reading = false) :
    outline.Sat .thread (body (.taken data status)) w := by
  intro w₁ _ r t relied (inv : Inv w₁) acted
  cases acted
  have idle₁ : w₁.reading = false := relied.1.trans idle
  by_cases stop : w₁.stop = true
  · simp only [stop,↓reduceIte]
    exact ⟨inv,⟨nofun,fun j _ => outline.refl j w₁⟩,trivial⟩
  · simp only [stop,↓reduceIte]
    exact ⟨inv,⟨nofun,fun j _ => outline.refl j w₁⟩,idle₁⟩

/-! ### The PRU -/

/-- Before the ring buffer is initialised nobody else touches it. -/
def Booting (w : World) : Prop := w.ready = false ∧ w.owed = false

theorem init_sat {n : Nat} (booting : Booting w) : outline.Sat .pru (body (.pru n)) w := by
  refine outline.sat_alone component Booting ?_ ?_ ?_ init_rbuffer rfl booting (init_rbuffer_exec w.rbuf)
  · rintro w w' ⟨off,free⟩ ⟨ready,owed,_,_,same⟩ _
    exact ⟨⟨ready.trans off,owed.trans free⟩,same off⟩
  · rintro a w m ⟨off,free⟩ inv
    refine ⟨⟨off,free⟩,⟨?_,inv.before,?_,?_⟩,fun _ => free,?_⟩
    · exact fun on => on_not_off on off
    · exact fun on => on_not_off on off
    · exact fun on => on_not_off on off
    · exact seen_by_thread ⟨rfl,rfl,id,fun on => on_not_off on off⟩
  · rintro a w ⟨off,free⟩ inv
    obtain ⟨accepted,printed,tokens,coalesced⟩ := inv.before off
    have same : World.tokens { w with rbuf := fresh, ready := true, owed := false } = w.tokens := by
      simp [World.tokens,free]
    refine ⟨inv_of_ready rfl ?_ ?_ ?_,⟨fun _ => free,?_⟩,rfl,rfl⟩
    · show CarriesWords fresh w.accepted w.printed
      rw [accepted,printed]
      exact carriesWords_fresh
    · show queued fresh ≤ _
      rw [queued_fresh]
      exact Nat.zero_le _
    · show World.tokens { w with rbuf := fresh, ready := true, owed := false } + w.coalesced ≤ _
      rw [same,tokens,coalesced]
      exact Nat.zero_le _
    · exact seen_by_thread ⟨rfl,rfl,id,fun on => on_not_off on off⟩

/-- Between two messages. -/
def Sending (w : World) : Prop := w.ready = true ∧ w.owed = false

theorem sending_rely (relied : Rely .pru w w') (sending : Sending w) : Sending w' ∧ Drains w.rbuf w'.rbuf := by
  obtain ⟨on,free⟩ := sending
  obtain ⟨ready,owed,_,drains,_⟩ := relied
  exact ⟨⟨ready.trans on,owed.trans free⟩,drains on⟩

/-- The one token that a write brings. -/
theorem tokens_wrote {w w' : World} (free : w.owed = false) (owed : w'.owed = true) (pending : w'.pending = w.pending)
    (reading : w'.reading = w.reading) : w'.tokens = w.tokens + 1 := by
  simp only [World.tokens,free,owed,pending,reading,Bool.toNat_true,Bool.toNat_false]
  omega

/-- After the write an interrupt is owed. -/
theorem wrote_keeps {m : rbuffer} {i : Nat} {data : UInt32} {status : Int16} (inv : Inv w) (sending : Sending w)
    (wrote : Wrote [data] w.rbuf status m) :
    Inv (enter (.wrote i data status) { w with rbuf := m }) ∧
      (∀ j, j ≠ .pru → Rely j w (enter (.wrote i data status) { w with rbuf := m })) ∧
      Knows .pru (.wrote i data status) (enter (.wrote i data status) { w with rbuf := m }) := by
  obtain ⟨on,free⟩ := sending
  have most := inv.most on
  have least := inv.least on
  rcases carriesWords_wrote (inv.carries on) wrote with ⟨rfl,carries,fills,more⟩ | ⟨rfl,rfl⟩
  · have brought : World.tokens { w with rbuf := m, owed := true, accepted := w.accepted ++ [data] } = w.tokens + 1 :=
      tokens_wrote free rfl rfl rfl
    refine ⟨inv_of_ready on carries ?_ ?_,?_,on,rfl⟩
    · show queued m ≤ World.tokens { w with rbuf := m, owed := true, accepted := w.accepted ++ [data] } + w.coalesced
      omega
    · show World.tokens { w with rbuf := m, owed := true, accepted := w.accepted ++ [data] } + w.coalesced ≤
        queued m + w.refused
      omega
    · exact seen_by_thread ⟨rfl,rfl,id,fun ready => ⟨ready,fills⟩⟩
  · have brought : World.tokens { w with owed := true, refused := w.refused + 1 } = w.tokens + 1 :=
      tokens_wrote free rfl rfl rfl
    refine ⟨inv_of_ready on (inv.carries on) ?_ ?_,?_,on,rfl⟩
    · show queued w.rbuf ≤ World.tokens { w with owed := true, refused := w.refused + 1 } + w.coalesced
      omega
    · show World.tokens { w with owed := true, refused := w.refused + 1 } + w.coalesced ≤ queued w.rbuf + (w.refused + 1)
      omega
    · exact seen_by_thread ⟨rfl,rfl,id,fun ready => ⟨ready,fills_refl _⟩⟩

theorem send_sat {i : Nat} (sending : Sending w) : outline.Sat .pru (send i) w := by
  intro w₁ data r t relied (inv₁ : Inv w₁) acted
  cases acted
  have sending₁ := (sending_rely relied sending).1
  refine ⟨inv₁,⟨fun _ => sending₁.2,fun j _ => outline.refl j w₁⟩,?_⟩
  refine outline.sat_call component Sending ?_ ?_ ?_ _ (rbuf_write_uint32_atomic data w₁.rbuf) sending₁
  · intro w w' sending relied inv
    obtain ⟨sending',drains⟩ := sending_rely relied sending
    exact ⟨sending',drains,(inv.carries sending'.1).inBounds⟩
  · rintro a w m sending inv unseen
    have same : queued m = queued w.rbuf := by
      rw [← length_contents,unseen.same_contents,length_contents]
      rfl
    refine ⟨sending,⟨fun on => carriesWords_unseen (inv.carries on) unseen,inv.before,?_,?_⟩,fun _ => sending.2,?_⟩
    · exact fun on => same.trans_le (inv.most on)
    · exact fun on => (inv.least on).trans_eq (congrArg (· + w.refused) same.symm)
    · exact seen_by_thread ⟨rfl,rfl,id,fun ready => ⟨ready,unseen_fills unseen⟩⟩
  · rintro status a w m sending inv ⟨_,wrote⟩
    obtain ⟨inv',others,knows⟩ := wrote_keeps (i := i) inv sending wrote
    exact ⟨inv',⟨fun _ => sending.2,others⟩,knows⟩

/-- The interrupt is the token that was owed, unless one is pending already. -/
theorem triggered_total (owed : w.owed = true) :
    let w' := { w with pending := true, coalesced := if w.pending then w.coalesced + 1 else w.coalesced, ready := true,
                       owed := false }
    w'.tokens + w'.coalesced = w.tokens + w.coalesced := by
  simp only [World.tokens,owed,Bool.toNat_true,Bool.toNat_false]
  by_cases pending : w.pending = true
  · simp only [pending,↓reduceIte,Bool.toNat_true]
    omega
  · simp only [pending,Bool.false_eq_true,↓reduceIte,Bool.toNat_false]

theorem trig_sat {i : Nat} {data : UInt32} {status : Int16} (ready : w.ready = true) (owed : w.owed = true) :
    outline.Sat .pru (body (.wrote i data status)) w := by
  intro w₁ _ r t relied (inv : Inv w₁) acted
  cases acted
  have on : w₁.ready = true := relied.1.trans ready
  have total := triggered_total (relied.2.1.trans owed)
  refine ⟨inv_of_ready rfl (inv.carries on) ?_ ?_,⟨fun other => absurd rfl other,?_⟩,rfl,rfl⟩
  · exact (inv.most on).trans_eq total.symm
  · exact total.trans_le (inv.least on)
  · exact seen_by_thread ⟨rfl,rfl,fun _ => rfl,fun _ => ⟨rfl,fills_refl _⟩⟩

/-- After the last message the PRU interrupts `main`, and halts. -/
theorem end_sat (sending : Sending w) : outline.Sat .pru (body (.loop 0)) w := by
  intro w₁ _ r t relied (inv₁ : Inv w₁) acted
  cases acted
  have sending₁ := (sending_rely relied sending).1
  obtain ⟨inv,others⟩ := flags_keep w₁.stop true inv₁
  exact ⟨inv,⟨fun _ => sending₁.2,fun j _ => others j⟩,sending₁.2⟩

theorem bodies_proved : outline.Proved := by
  intro i b w (inv : Inv w) (knows : Knows i b w)
  show outline.Sat i (body b) w
  cases i with
  | main =>
    cases b with
    | main => exact main_sat
    | exited => exact exited_sat knows
    | _ => exact knows.elim
  | thread =>
    cases b with
    | threadFunction => exact wait_sat knows
    | woken => exact woken_sat knows.1 knows.2.1 knows.2.2
    | cleared => exact take_sat knows
    | taken data status => exact taken_sat knows
    | exited => exact exited_sat knows
    | _ => exact knows.elim
  | pru =>
    cases b with
    | pru n => exact init_sat knows
    | loop i =>
      cases i with
      | zero => exact end_sat knows
      | succ i => exact send_sat knows
    | wrote i data status => exact trig_sat knows.1 knows.2
    | exited => exact exited_sat knows
    | _ => exact knows.elim

/-- A state in which every access can be made and that differs only in what
    others may do. -/
theorem all_enabled (inv : Inv w) (ready : w.ready = true) (unpending : w.pending = false) :
    let w' := { w with pending := true, pending_end := true, refused := w.refused + 1 }
    Inv w' ∧ (∀ j, Rely j w w') ∧ ∀ a, ∃ r t, act a 0 w' = some (r,t) := by
  have more : World.tokens { w with pending := true, pending_end := true, refused := w.refused + 1 } = w.tokens + 1 := by
    simp only [World.tokens,unpending,Bool.toNat_true,Bool.toNat_false]
    omega
  have most := inv.most ready
  have least := inv.least ready
  refine ⟨inv_of_ready ready (inv.carries ready) ?_ ?_,?_,?_⟩
  · show queued w.rbuf ≤ World.tokens { w with pending := true, pending_end := true, refused := w.refused + 1 } + w.coalesced
    omega
  · show World.tokens { w with pending := true, pending_end := true, refused := w.refused + 1 } + w.coalesced ≤
      queued w.rbuf + (w.refused + 1)
    omega
  · rintro (_ | _ | _)
    · exact trivial
    · exact ⟨rfl,rfl,fun _ => rfl,fun on => ⟨on,fills_refl _⟩⟩
    · exact ⟨rfl,rfl,rfl,fun _ => drains_refl _,fun _ => rfl⟩
  · intro a
    cases a <;> exact ⟨_,_,rfl⟩

variable {c : Config Party Access Access.Answer Block World}

/-- Where the thread waits in vain there is no read to come. -/
theorem no_tokens (holds : outline.Holds c) (at_wait : AtWait (c.code .thread)) (unpending : c.shared.pending = false)
    (not_trig : ¬ AtTrig (c.code .pru)) : c.shared.tokens = 0 := by
  have inv : Inv c.shared := holds.inv
  by_cases ready : c.shared.ready = true
  · obtain ⟨inv',others,enabled⟩ := all_enabled inv ready unpending
    have idle : c.shared.reading = false := by
      obtain ⟨next,code⟩ := at_wait
      have sat := holds.sat .thread
      rw [code] at sat
      obtain ⟨_,⟨place,_⟩,_⟩ := sat _ 0 _ _ (others .thread) inv' rfl
      exact place rfl
    have free : c.shared.owed = false := by
      have sat := holds.sat .pru
      have more := holds.more .pru
      cases code : c.code .pru with
      | ret b => simp [code,Prog.isAccess] at more
      | access a next =>
        rw [code] at sat
        obtain ⟨r,t,acted⟩ := enabled a
        obtain ⟨_,⟨place,_⟩,_⟩ := sat _ 0 r t (others .pru) inv' acted
        refine place ?_
        rintro rfl
        exact not_trig ⟨next,code⟩
    simp [World.tokens,idle,free,unpending]
  · exact (inv.before (by simpa using ready)).2.2.1

/-- What is left in the ring buffer when the thread waits in vain are as many
    messages as interrupts came while one was pending, less at most one for each
    write that the full ring buffer refused. -/
theorem left_behind (holds : outline.Holds c) (at_wait : AtWait (c.code .thread)) (unpending : c.shared.pending = false)
    (not_trig : ¬ AtTrig (c.code .pru)) (ready : c.shared.ready = true) :
    (contents c.shared.rbuf).length ≤ c.shared.coalesced ∧
      c.shared.coalesced ≤ (contents c.shared.rbuf).length + c.shared.refused := by
  have inv : Inv c.shared := holds.inv
  have none := no_tokens holds at_wait unpending not_trig
  have most := inv.most ready
  have least := inv.least ready
  rw [length_contents]
  omega

theorem holds_delivers (holds : outline.Holds c) (separate : c.shared.coalesced = 0) : Delivers c := by
  have inv : Inv c.shared := holds.inv
  by_cases ready : c.shared.ready = true
  · have waiting := (inv.carries ready).waiting
    refine ⟨⟨contents c.shared.rbuf,waiting.symm⟩,?_⟩
    intro at_wait unpending not_trig
    have few := (left_behind holds at_wait unpending not_trig ready).1
    have empty : contents c.shared.rbuf = [] := List.length_eq_zero_iff.mp (by omega)
    rw [empty,List.append_nil] at waiting
    exact ⟨waiting.symm,fun _ => empty⟩
  · obtain ⟨accepted,printed,_⟩ := inv.before (by simpa using ready)
    have same : c.shared.printed = c.shared.accepted := by rw [accepted,printed]
    exact ⟨by rw [same],fun _ _ _ => ⟨same,fun on => absurd on ready⟩⟩

theorem run_holds (n : Nat) (m : rbuffer) (schedule : List (Party × UInt32)) :
    outline.Holds (system.run (system.start (initial m) (first n)) schedule) := by
  refine outline.sound bodies_proved ?_ ?_ schedule
  · exact ⟨nofun,fun _ => ⟨rfl,rfl,rfl,rfl⟩,nofun,nofun⟩
  · intro i
    cases i with
    | main => exact trivial
    | thread => exact rfl
    | pru => exact ⟨rfl,rfl⟩

/-- However many messages the PRU sends and however the parties interleave, the
    host delivers them all as long as no interrupt comes while one is pending. -/
theorem separate_delivers (n : Nat) (m : rbuffer) (schedule : List (Party × UInt32))
    (separate : (system.run (system.start (initial m) (first n)) schedule).shared.coalesced = 0) :
    Delivers (system.run (system.start (initial m) (first n)) schedule) :=
  holds_delivers (run_holds n m schedule) separate

/-- Two messages that the host takes one after the other. -/
def prompt : List (Party × UInt32) :=
  List.replicate 9 (.pru,7) ++ List.replicate 7 (.thread,0) ++ List.replicate 6 (.pru,8) ++ List.replicate 7 (.thread,0)

theorem separate_delivers_prompt : Delivers (system.run (system.start (initial fresh) (first 30)) prompt) :=
  separate_delivers 30 fresh prompt (by decide +kernel)

/-- Two messages before the host takes its first turn, which then takes one. -/
def late : List (Party × UInt32) := List.replicate 15 (.pru,7) ++ List.replicate 7 (.thread,0)

theorem stranded : ¬ Delivers (system.run (system.start (initial fresh) (first 30)) late) := by
  intro delivers
  have left : (system.run (system.start (initial fresh) (first 30)) late).shared.printed ≠
      (system.run (system.start (initial fresh) (first 30)) late).shared.accepted := by
    decide +kernel
  refine left (delivers.none_left ⟨_,rfl⟩ (by decide +kernel) ?_).1
  rintro ⟨next,code⟩
  cases code

end NeslPru.IepTimerReceive
