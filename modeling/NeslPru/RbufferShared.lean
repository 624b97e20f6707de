import NeslPru.RbufferAtomic

/-!
One ring buffer between two processors. One party makes any calls of the two
write functions and the other any calls of the two read functions, each load and
store is one step, and the steps interleave in any order.
-/
namespace NeslPru.RbufferShared
open NeslPru.Access NeslPru.RelyGuarantee NeslPru.Cyclic NeslPru.Rbuffer NeslPru.RbufferQueue NeslPru.RbufferAtomic
set_option linter.unusedSimpArgs false

inductive Party where
  | writer
  | reader
deriving DecidableEq

inductive WriteCall where
  | uint32 (data : UInt32)
  | uint64 (data : UInt64)

/-- The words that a call sends, low word first. -/
def WriteCall.words : WriteCall → List UInt32
  | .uint32 data => [data]
  | .uint64 data => RbufferQueue.words data

def WriteCall.prog : WriteCall → RingProg Int16
  | .uint32 data => rbuf_write_uint32 data
  | .uint64 data => rbuf_write_uint64 data

/-- A read whose `*status` holds `status` before the call. A call with `NULL`
    makes the same accesses (`rbuf_read_uint32_null`, `rbuf_read_uint64_null`). -/
inductive ReadCall where
  | uint32 (status : Int16)
  | uint64 (status : Int16)

inductive Access where
  | next_write
  | next_read
  | ring (a : Rbuffer.Access)

@[reducible] def Access.Answer : Access → Type
  | .next_write => WriteCall
  | .next_read => ReadCall
  | .ring a => a.Answer

inductive Block where
  | write
  | wrote (call : WriteCall) (status : Int16)
  | read
  | read_uint32 (data : UInt32) (status : Option Int16)
  | read_uint64 (data : UInt64) (status : Option Int16)

/-- The ring buffer, the words of the calls that wrote them with result 0, and
    the words of the values that were read with status 0. -/
structure Shared where
  rbuf : rbuffer
  accepted : List UInt32
  delivered : List UInt32

/-- The call that each party makes if it is about to make one. -/
structure Choice where
  write : WriteCall
  read : ReadCall

def act : (a : Access) → Choice → Shared → Option (a.Answer × Shared)
  | .next_write, choice, s => some (choice.write,s)
  | .next_read, choice, s => some (choice.read,s)
  | .ring a, _, s => some ((memory a s.rbuf).1,{ s with rbuf := (memory a s.rbuf).2 })

open Prog (call)

/-- A program of the ring buffer header, run on the shared ring buffer. -/
def onRing {α : Type} (p : RingProg α) : Prog Access Access.Answer α := p.embed .ring (fun _ r => r)

def writes : Prog Access Access.Answer Block := do
  let c : WriteCall ← call Access.next_write
  let status ← onRing c.prog
  return .wrote c status

def reads : Prog Access Access.Answer Block := do
  match (← call Access.next_read : ReadCall) with
  | .uint32 status =>
    let (data,status) ← onRing (rbuf_read_uint32 (some status))
    return .read_uint32 data status
  | .uint64 status =>
    let (data,status) ← onRing (rbuf_read_uint64 (some status))
    return .read_uint64 data status

def body : Block → Prog Access Access.Answer Block
  | .write | .wrote _ _ => writes
  | .read | .read_uint32 _ _ | .read_uint64 _ _ => reads

def enter : Block → Shared → Shared
  | .wrote c status, s => if status = 0 then { s with accepted := s.accepted ++ c.words } else s
  | .read_uint32 data status, s => if status = some 0 then { s with delivered := s.delivered ++ [data] } else s
  | .read_uint64 data status, s => if status = some 0 then { s with delivered := s.delivered ++ words data } else s
  | .write, s => s
  | .read, s => s

def system : System Access Access.Answer Block Choice Shared where
  act := act
  body := body
  enter := enter
  starts := by intro b; cases b <;> rfl

def first : Party → Block
  | .writer => .write
  | .reader => .read

/-- The slots that a program loads from next, one after the other, before it
    does anything else. -/
def loadsAhead (m : rbuffer) : Prog Access Access.Answer Block → List Nat
  | .access (.ring (.load_buffer i)) next => i.toNat :: loadsAhead m (next (m.cell i.toNat))
  | _ => []

/-- Word number `k` of those that were ever accepted goes to this slot. -/
def place (k : Nat) : Nat := (k + 1) % 256

/-- The ring buffer is safe: both indices are in bounds, no store hits a word
    that is accepted and not yet delivered or that the reader is about to load,
    what is delivered is a prefix of what is accepted, and the rest stands in
    its slots, at most 255 words of it. -/
structure Safe (c : Config Party Access Access.Answer Block Shared) : Prop where
  c_lt : c.shared.rbuf.c.toNat < 256
  p_lt : c.shared.rbuf.p.toNat < 256
  stores : ∀ i value next, c.code .writer = .access (.ring (.store_buffer i value)) next →
    (∀ k, c.shared.delivered.length ≤ k → k < c.shared.accepted.length → i.toNat ≠ place k) ∧
      i.toNat ∉ loadsAhead c.shared.rbuf (c.code .reader)
  in_order : c.shared.delivered <+: c.shared.accepted
  kept : ∀ k (inside : k < c.shared.accepted.length), c.shared.delivered.length ≤ k →
    c.shared.rbuf.cell (place k) = c.shared.accepted[k]
  bounded : c.shared.accepted.length ≤ c.shared.delivered.length + 255

def component : Component system Rbuffer.Access.Answer rbuffer :=
  .of Shared.rbuf (fun s m => { s with rbuf := m }) (fun _ _ => rfl) Access.ring memory (fun _ _ _ => rfl)

/-- The accepted words are the delivered ones followed by those in the ring. -/
structure Inv (s : Shared) : Prop where
  inBounds : InBounds s.rbuf
  c_is : s.rbuf.c.toNat = s.delivered.length % 256
  balance : s.accepted = s.delivered ++ contents s.rbuf

/-- What the other party may do. -/
def Rely : Party → Shared → Shared → Prop
  | .writer, s, t => t.accepted = s.accepted ∧ Drains s.rbuf t.rbuf
  | .reader, s, t => t.delivered = s.delivered ∧ Fills s.rbuf t.rbuf

/-- What each access of a party keeps. -/
def Guar : Party → Access → Shared → Shared → Prop
  | .writer, a, s, t => Rely .reader s t ∧ ∀ i value, a = .ring (.store_buffer i value) → Free s.rbuf i
  | .reader, a, s, t => Rely .writer s t ∧ ∀ i, a = .ring (.load_buffer i) → Occupied s.rbuf i

def outline : Outline Party system where
  inv := Inv
  rely := Rely
  guar := Guar
  pre i b _ := body b = body (first i)
  refl i s := by cases i <;> simp [Rely,drains_refl,fills_refl]
  trans i s t u := by
    cases i
    · exact fun first second => ⟨second.1.trans first.1,drains_trans first.2 second.2⟩
    · exact fun first second => ⟨second.1.trans first.1,fills_trans first.2 second.2⟩
  compat {i j a s t} other := by
    cases i <;> cases j
    · exact absurd rfl other
    · exact fun kept => kept.1
    · exact fun kept => kept.1
    · exact absurd rfl other

theorem unseen_keeps {s : Shared} {m : rbuffer} {a : Rbuffer.Access} (inv : Inv s) (unseen : Unseen a s.rbuf m) :
    Inv { s with rbuf := m } ∧ Guar .writer (.ring a) s { s with rbuf := m } := by
  refine ⟨⟨unseen.inBounds,?_,?_⟩,⟨rfl,unseen.same_c,?_⟩,?_⟩
  · rw [← inv.c_is,unseen.same_c]
  · rw [inv.balance,unseen.same_contents]
  · rw [unseen.same_contents]
  · intro i value same
    cases same
    exact unseen.stores i value rfl

theorem looks_keeps {s : Shared} {m : rbuffer} {a : Rbuffer.Access} (inv : Inv s) (looks : Looks a s.rbuf m) :
    Inv { s with rbuf := m } ∧ Guar .reader (.ring a) s { s with rbuf := m } := by
  obtain ⟨rfl,loads⟩ := looks
  refine ⟨inv,⟨rfl,drains_refl _⟩,?_⟩
  intro i same
  cases same
  exact loads i rfl

theorem wrote_keeps {s : Shared} {m : rbuffer} {a : Rbuffer.Access} {c : WriteCall} {status : Int16} (inv : Inv s)
    (publishes : ∀ i value, a ≠ .store_buffer i value) (wrote : Wrote c.words s.rbuf status m) :
    Inv (enter (.wrote c status) { s with rbuf := m }) ∧
      Guar .writer (.ring a) s (enter (.wrote c status) { s with rbuf := m }) := by
  have no_store : ∀ i value, Access.ring a = .ring (.store_buffer i value) → Free s.rbuf i := by
    intro i value same
    cases same
    exact absurd rfl (publishes i value)
  cases wrote with
  | accepted room inBounds same_c appended =>
    refine ⟨⟨inBounds,?_,?_⟩,⟨rfl,same_c,?_⟩,no_store⟩
    · show m.c.toNat = s.delivered.length % 256
      rw [same_c]
      exact inv.c_is
    · simp [enter,appended,inv.balance]
    · simp [enter,appended]
  | full no_room => exact ⟨inv,⟨rfl,fills_refl _⟩,no_store⟩

/-- What a block of the reader records. -/
def Records (b : Block) (values : List UInt32) (status : Option Int16) : Prop :=
  ∀ s, enter b s = if status = some 0 then { s with delivered := s.delivered ++ values } else s

theorem read_keeps {α : Type} [OfNat α 0] {values : α → List UInt32} {n : Nat} {before : Int16} {s : Shared} {m : rbuffer}
    {a : Rbuffer.Access} {result : α × Option Int16} {b : Block} (inv : Inv s) (records : Records b (values result.1) result.2)
    (releases : ∀ i, a ≠ .load_buffer i) (read : Read values n (some before) s.rbuf result m) :
    Inv (enter b { s with rbuf := m }) ∧ Guar .reader (.ring a) s (enter b { s with rbuf := m }) := by
  have no_load : ∀ i, Access.ring a = .ring (.load_buffer i) → Occupied s.rbuf i := by
    intro i same
    cases same
    exact absurd rfl (releases i)
  rw [records]
  cases read with
  | @taken data _ many inBounds same_p same_buffer oldest =>
    have more : queued s.rbuf = (values data).length + queued m := by
      rw [← length_contents,oldest,List.length_append,length_contents]
    have c_is := inv.c_is
    simp only [setStatus,Option.map_some,↓reduceIte]
    refine ⟨⟨inBounds,?_,?_⟩,⟨rfl,same_p,same_buffer,?_⟩,no_load⟩
    · have := inBounds.c_lt
      have := inBounds.p_lt
      have := inv.inBounds.c_lt
      simp only [queued,same_p] at more
      simp only [List.length_append]
      omega
    · simp [inv.balance,oldest]
    · rw [oldest]
      exact List.suffix_append _ _
  | short few => exact ⟨inv,⟨rfl,drains_refl _⟩,no_load⟩

theorem write_atomic (c : WriteCall) (m : rbuffer) : WriteAtomic c.words c.prog m := by
  cases c with
  | uint32 data => exact rbuf_write_uint32_atomic data m
  | uint64 data => exact rbuf_write_uint64_atomic data m

/-- The call of the writer, up to what it records. -/
theorem write_sat {s : Shared} (c : WriteCall) :
    outline.Sat .writer (onRing c.prog >>= fun status => .ret (.wrote c status)) s := by
  refine outline.sat_call component (fun _ => True) ?_ ?_ ?_ c.prog (write_atomic c s.rbuf) trivial
  · intro s s' _ relied inv
    exact ⟨trivial,relied.2,inv.inBounds⟩
  · intro a s m _ inv unseen
    exact ⟨trivial,unseen_keeps inv unseen⟩
  · rintro status a s m _ inv ⟨publishes,wrote⟩
    obtain ⟨inv',guar⟩ := wrote_keeps inv publishes wrote
    exact ⟨inv',guar,rfl⟩

/-- The call of the reader, up to what it records. -/
theorem read_sat {α : Type} [OfNat α 0] {values : α → List UInt32} {n : Nat} {before : Int16} {s : Shared}
    {p : RingProg (α × Option Int16)} {b : α × Option Int16 → Block} (atomic : ReadAtomic values n (some before) p s.rbuf)
    (records : ∀ r, Records (b r) (values r.1) r.2) (again : ∀ r, body (b r) = reads) :
    outline.Sat .reader (onRing p >>= fun r => .ret (b r)) s := by
  refine outline.sat_call component (fun _ => True) ?_ ?_ ?_ p atomic trivial
  · intro s s' _ relied inv
    exact ⟨trivial,relied.2,inv.inBounds⟩
  · intro a s m _ inv looks
    exact ⟨trivial,looks_keeps inv looks⟩
  · rintro result a s m _ inv ⟨releases,read⟩
    obtain ⟨inv',guar⟩ := read_keeps inv (records result) releases read
    exact ⟨inv',guar,again result⟩

theorem bodies_proved : outline.Proved := by
  intro i b s _ same
  show outline.Sat i (body b) s
  rw [show body b = body (first i) from same]
  cases i with
  | writer =>
    intro s₁ choice c s₂ _ inv₁ chosen
    cases chosen
    cases choice.write with
    | uint32 data => exact ⟨inv₁,⟨⟨rfl,fills_refl _⟩,nofun⟩,write_sat (.uint32 data)⟩
    | uint64 data => exact ⟨inv₁,⟨⟨rfl,fills_refl _⟩,nofun⟩,write_sat (.uint64 data)⟩
  | reader =>
    intro s₁ choice c s₂ _ inv₁ chosen
    cases chosen
    cases choice.read with
    | uint32 before =>
      exact ⟨inv₁,⟨⟨rfl,drains_refl _⟩,nofun⟩,
        read_sat (rbuf_read_uint32_atomic (some before) _) (fun _ _ => rfl) (fun _ => rfl)⟩
    | uint64 before =>
      exact ⟨inv₁,⟨⟨rfl,drains_refl _⟩,nofun⟩,
        read_sat (rbuf_read_uint64_atomic (some before) _) (fun _ _ => rfl) (fun _ => rfl)⟩

/-- The reader is about to load from slots that hold queued words. -/
theorem loadsAhead_occupied {s : Shared} {p : Prog Access Access.Answer Block} (inv : Inv s)
    (sat : outline.Sat .reader p s) : ∀ i ∈ loadsAhead s.rbuf p, ∃ j < queued s.rbuf, i = slot RBUF_SIZE (s.rbuf.c.toNat + 1) j := by
  induction p with
  | ret b => simp [loadsAhead]
  | access a next ih =>
    cases a with
    | next_write => simp [loadsAhead]
    | next_read => simp [loadsAhead]
    | ring a =>
      cases a with
      | load_buffer i =>
        obtain ⟨_,⟨_,loads⟩,rest⟩ := sat s ⟨.uint32 0,.uint32 0⟩ (s.rbuf.cell i.toNat) s (outline.refl _ s) inv rfl
        intro k member
        rcases List.mem_cons.mp member with rfl | later
        · exact loads i rfl
        · exact ih _ rest k later
      | _ => simp [loadsAhead]

/-- Accepted words that are still to be delivered are the queued ones. -/
theorem place_slot {s : Shared} (inv : Inv s) {k : Nat} (waits : s.delivered.length ≤ k) (inside : k < s.accepted.length) :
    k - s.delivered.length < queued s.rbuf ∧
      place k = slot RBUF_SIZE (s.rbuf.c.toNat + 1) (k - s.delivered.length) := by
  have c_is := inv.c_is
  have all : s.accepted.length = s.delivered.length + queued s.rbuf := by rw [inv.balance]; simp
  refine ⟨by omega,?_⟩
  simp only [place,slot,RBUF_SIZE]
  omega

theorem free_place {s : Shared} (inv : Inv s) {i : UInt16} (free : Free s.rbuf i) {k : Nat}
    (waits : s.delivered.length ≤ k) (inside : k < s.accepted.length) : i.toNat ≠ place k := by
  obtain ⟨j,fits,j_lt,here⟩ := free
  obtain ⟨few,there⟩ := place_slot inv waits inside
  intro same
  have := queued_lt s.rbuf
  have := slot_injective (here.symm.trans (same.trans there)) j_lt (by simp only [RBUF_SIZE]; omega)
  omega

theorem holds_safe {c : Config Party Access Access.Answer Block Shared} (holds : outline.Holds c) : Safe c := by
  have inv : Inv c.shared := holds.inv
  have all : c.shared.accepted.length = c.shared.delivered.length + queued c.shared.rbuf := by rw [inv.balance]; simp
  refine ⟨inv.inBounds.c_lt,inv.inBounds.p_lt,?_,?_,?_,?_⟩
  · intro i value next code
    have sat := holds.sat .writer
    rw [code] at sat
    obtain ⟨_,⟨_,stores⟩,_⟩ := sat c.shared ⟨.uint32 0,.uint32 0⟩ () _ (outline.refl _ _) inv rfl
    have free := stores i value rfl
    refine ⟨fun k => free_place inv free,?_⟩
    intro member
    obtain ⟨j,fits,j_lt,here⟩ := free
    obtain ⟨k,few,there⟩ := loadsAhead_occupied inv (holds.sat .reader) _ member
    have := queued_lt c.shared.rbuf
    have := slot_injective (here.symm.trans there) j_lt (by simp only [RBUF_SIZE]; omega)
    omega
  · rw [inv.balance]
    exact List.prefix_append _ _
  · intro k inside waits
    obtain ⟨few,here⟩ := place_slot inv waits inside
    rw [here,cell_contents (by simpa using few)]
    simp only [inv.balance]
    rw [List.getElem_append_right waits]
  · have := queued_lt c.shared.rbuf
    omega

/-- Whatever the two parties call and however their accesses interleave, a ring
    buffer set up by `init_rbuffer` stays safe. -/
theorem spsc_safe (m : rbuffer) (schedule : List (Party × Choice)) :
    Safe (system.run (system.start ⟨(init_rbuffer.exec memory m).2,[],[]⟩ first) schedule) := by
  apply holds_safe
  refine outline.sound bodies_proved ⟨fresh_inBounds,rfl,?_⟩ (fun _ => rfl) schedule
  simp [init_rbuffer_exec,contents_fresh]

end NeslPru.RbufferShared
