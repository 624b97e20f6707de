import NeslPru.Linearizable
import NeslPru.RbufferFifo

/-!
The ring buffer called by two parties at the same time, of which one writes and
one reads. However the loads and stores of the two interleave, the calls in the
order in which they return are answered as a queue of at most 255 words answers
them, those that find it too full or too empty included.
-/
namespace NeslPru.RbufferLinear
open NeslPru.Access NeslPru.RelyGuarantee NeslPru.Calls NeslPru.Linearizable NeslPru.Rbuffer NeslPru.RbufferQueue
open NeslPru.RbufferAtomic NeslPru.RbufferFifo

variable {Party : Type}

/-- The accesses stay inside the structure. -/
def InStruct : Rbuffer.Access → Prop
  | .load_buffer i => i.toNat < RBUF_SIZE
  | .store_buffer i _ => i.toNat < RBUF_SIZE
  | _ => True

/-- The ring buffer header, for one party that writes and one that reads. -/
def interface (writer reader : Party) :
    Interface Party Rbuffer.Access.Answer rbuffer RbufferFifo.Call Reply (Fifo UInt32 255) where
  device := memory
  prog
    | .write_uint32 data => rbuf_write_uint32 data >>= fun result => .ret (.wrote result)
    | .write_uint64 data => rbuf_write_uint64 data >>= fun result => .ret (.wrote result)
    | .read_uint32 status => rbuf_read_uint32 status >>= fun r => .ret (.read_uint32 r.1 r.2)
    | .read_uint64 status => rbuf_read_uint64 status >>= fun r => .ret (.read_uint64 r.1 r.2)
  may
    | i, .write_uint32 _ | i, .write_uint64 _ => i = writer
    | i, .read_uint32 _ | i, .read_uint64 _ => i = reader
  allowed := InStruct
  spec := fifo
  represents := Represents
  rely i m m' := (i = writer → Drains m m') ∧ (i = reader → Fills m m')

/-- The accesses of the two write functions. -/
def Writes : Rbuffer.Access → Prop
  | .load_c | .load_p | .store_p _ | .store_buffer _ _ => True
  | _ => False

/-- The accesses of the two read functions. -/
def Reads : Rbuffer.Access → Prop
  | .load_c | .load_p | .store_c _ | .load_buffer _ => True
  | _ => False

theorem rbuf_write_uint32_only (data : UInt32) : (rbuf_write_uint32 data).Only Writes fun _ => True := by
  simp only [rbuf_write_uint32,Prog.call_bind,Prog.pure_eq]
  refine ⟨trivial,fun p => ⟨trivial,fun c => ?_⟩⟩
  dsimp only
  split
  · exact ⟨trivial,fun _ => ⟨trivial,fun _ => trivial⟩⟩
  · trivial

theorem rbuf_write_uint64_only (data : UInt64) : (rbuf_write_uint64 data).Only Writes fun _ => True := by
  simp only [rbuf_write_uint64,Prog.call_bind,Prog.pure_eq]
  refine ⟨trivial,fun p => ⟨trivial,fun c => ?_⟩⟩
  dsimp only
  split
  · refine ⟨trivial,fun c => ?_⟩
    dsimp only
    split
    · exact ⟨trivial,fun _ => ⟨trivial,fun _ => ⟨trivial,fun _ => trivial⟩⟩⟩
    · trivial
  · trivial

theorem rbuf_read_uint32_only (status : Option Int16) : (rbuf_read_uint32 status).Only Reads fun _ => True := by
  simp only [rbuf_read_uint32,Prog.call_bind,Prog.pure_eq]
  refine ⟨trivial,fun c => ⟨trivial,fun p => ?_⟩⟩
  dsimp only
  split
  · exact ⟨trivial,fun _ => ⟨trivial,fun _ => trivial⟩⟩
  · trivial

theorem rbuf_read_uint64_only (status : Option Int16) : (rbuf_read_uint64 status).Only Reads fun _ => True := by
  simp only [rbuf_read_uint64,Prog.call_bind,Prog.pure_eq]
  refine ⟨trivial,fun c => ⟨trivial,fun p => ?_⟩⟩
  dsimp only
  split
  · refine ⟨trivial,fun p => ?_⟩
    dsimp only
    split
    · exact ⟨trivial,fun _ => ⟨trivial,fun _ => ⟨trivial,fun _ => trivial⟩⟩⟩
    · trivial
  · trivial

theorem slot_lt (m : rbuffer) (j : Nat) : Cyclic.slot RBUF_SIZE (m.c.toNat + 1) j < RBUF_SIZE :=
  Nat.mod_lt _ (by decide)

theorem unseen_inStruct {a : Rbuffer.Access} {m m' : rbuffer} (writes : Writes a) (unseen : Unseen a m m') :
    InStruct a := by
  cases a with
  | store_buffer i value =>
    obtain ⟨j,_,_,here⟩ := unseen.stores i value rfl
    show i.toNat < RBUF_SIZE
    rw [here]
    exact slot_lt m j
  | load_buffer i => exact writes.elim
  | _ => trivial

theorem looks_inStruct {a : Rbuffer.Access} {m m' : rbuffer} (reads : Reads a) (looks : Looks a m m') :
    InStruct a := by
  cases a with
  | load_buffer i =>
    obtain ⟨j,_,here⟩ := looks.loads i rfl
    show i.toNat < RBUF_SIZE
    rw [here]
    exact slot_lt m j
  | store_buffer i value => exact reads.elim
  | _ => trivial

theorem wrote_fills {values : List UInt32} {m m' : rbuffer} {status : Int16} (wrote : Wrote values m status m') :
    Fills m m' := by
  cases wrote with
  | accepted room inBounds' same_c appended => exact ⟨same_c,by rw [appended]; exact List.prefix_append _ _⟩
  | full no_room => exact fills_refl m

theorem read_drains {α : Type} [OfNat α 0] {values : α → List UInt32} {n : Nat} {status : Option Int16} {m m' : rbuffer}
    {result : α × Option Int16} (read : Read values n status m result m') : Drains m m' := by
  cases read with
  | taken many inBounds' same_p same_buffer oldest =>
    exact ⟨same_p,same_buffer,by rw [oldest]; exact List.suffix_append _ _⟩
  | short few => exact drains_refl m

variable {writer reader : Party}

/-- A call of the writer takes effect in its last access. -/
theorem write_commits {values : List UInt32} {p : RingProg Int16} {c : RbufferFifo.Call} {m : rbuffer}
    (atomic : WriteAtomic values p m) (only : p.Only Writes fun _ => True)
    (answers : ∀ m m' q status, Represents m q → Wrote values m status m' →
      .wrote status = (fifo.answer q c).1 ∧ Represents m' (fifo.answer q c).2) :
    Atomic memory (interface writer reader).Valid ((interface writer reader).rely writer)
      ((interface writer reader).Silent writer) ((interface writer reader).Commits writer c)
      (p >>= fun result => .ret (.wrote result)) m := by
  refine atomic_map Reply.wrote ?_ ?_ ?_ p (atomic_only p atomic only)
  · rintro m m' ⟨drains,_⟩ ⟨q,represents⟩
    exact ⟨drains rfl,represents.inBounds⟩
  · rintro a m m' _ ⟨writes,unseen⟩
    refine ⟨unseen_inStruct writes unseen,?_,?_⟩
    · intro q represents
      exact ⟨unseen.inBounds,by rw [represents.items,unseen.same_contents]⟩
    · intro j other
      exact ⟨fun same => absurd same other,fun _ => ⟨unseen.same_c,by rw [unseen.same_contents]⟩⟩
  · rintro status a m m' _ ⟨writes,publishes,wrote⟩
    refine ⟨?_,fun q represents => answers m m' q status represents wrote,?_⟩
    · cases a with
      | store_buffer i value => exact absurd rfl (publishes i value)
      | load_buffer i => exact writes.elim
      | _ => trivial
    · intro j other
      exact ⟨fun same => absurd same other,fun _ => wrote_fills wrote⟩

/-- A call of the reader takes effect in its last access. -/
theorem read_commits {α : Type} [OfNat α 0] {values : α → List UInt32} {n : Nat} {status : Option Int16}
    {p : RingProg (α × Option Int16)} {c : RbufferFifo.Call} {reply : α × Option Int16 → Reply} {m : rbuffer}
    (atomic : ReadAtomic values n status p m) (only : p.Only Reads fun _ => True)
    (answers : ∀ m m' q result, Represents m q → Read values n status m result m' →
      reply result = (fifo.answer q c).1 ∧ Represents m' (fifo.answer q c).2) :
    Atomic memory (interface writer reader).Valid ((interface writer reader).rely reader)
      ((interface writer reader).Silent reader) ((interface writer reader).Commits reader c)
      (p >>= fun result => .ret (reply result)) m := by
  refine atomic_map reply ?_ ?_ ?_ p (atomic_only p atomic only)
  · rintro m m' ⟨_,fills⟩ ⟨q,represents⟩
    exact ⟨fills rfl,represents.inBounds⟩
  · rintro a m m' _ ⟨reads,looks⟩
    obtain rfl := looks.same
    refine ⟨looks_inStruct reads looks,fun _ represents => represents,?_⟩
    intro j other
    exact ⟨fun _ => drains_refl _,fun same => absurd same other⟩
  · rintro result a m m' _ ⟨reads,releases,read⟩
    refine ⟨?_,fun q represents => answers m m' q result represents read,?_⟩
    · cases a with
      | load_buffer i => exact absurd rfl (releases i)
      | store_buffer i value => exact reads.elim
      | _ => trivial
    · intro j other
      exact ⟨fun _ => read_drains read,fun same => absurd same other⟩

theorem interface_lawful : (interface writer reader).Lawful where
  starts call := by cases call <;> rfl
  refl i m := ⟨fun _ => drains_refl m,fun _ => fills_refl m⟩
  trans i l m n first second :=
    ⟨fun same => drains_trans (first.1 same) (second.1 same),fun same => fills_trans (first.2 same) (second.2 same)⟩
  atomic i call m may := by
    cases call with
    | write_uint32 data =>
      obtain rfl : i = writer := may
      refine write_commits (rbuf_write_uint32_atomic data m) (rbuf_write_uint32_only data) ?_
      intro m m' q status represents wrote
      simp only [fifo]
      rcases wrote_push represents wrote with ⟨q',pushed,rfl,represents'⟩ | ⟨refused,rfl,rfl⟩
      · simp [pushed,represents']
      · simp [refused,represents]
    | write_uint64 data =>
      obtain rfl : i = writer := may
      refine write_commits (rbuf_write_uint64_atomic data m) (rbuf_write_uint64_only data) ?_
      intro m m' q status represents wrote
      simp only [fifo]
      rcases wrote_push represents wrote with ⟨q',pushed,rfl,represents'⟩ | ⟨refused,rfl,rfl⟩
      · simp [pushed,represents']
      · simp [refused,represents]
    | read_uint32 status =>
      obtain rfl : i = reader := may
      refine read_commits (rbuf_read_uint32_atomic status m) (rbuf_read_uint32_only status) ?_
      intro m m' q result represents read
      simp only [fifo]
      rcases read_pop represents read with ⟨data,q',popped,rfl,represents'⟩ | ⟨refused,rfl,rfl⟩
      · simp [popped,represents']
      · simp [refused,represents]
    | read_uint64 status =>
      obtain rfl : i = reader := may
      refine read_commits (rbuf_read_uint64_atomic status m) (rbuf_read_uint64_only status) ?_
      intro m m' q result represents read
      simp only [fifo]
      rcases read_pop represents read with ⟨data,q',popped,rfl,represents'⟩ | ⟨refused,rfl,rfl⟩
      · have whole := join_words data
        simp only [words] at popped
        simp [popped,represents',whole]
      · simp [refused,represents]

theorem represents_fresh : Represents fresh Fifo.empty := ⟨fresh_inBounds,contents_fresh.symm⟩

/-- From `init_rbuffer` on, whatever one party writes and another one reads and
    however their loads and stores interleave, the calls in the order of their
    returns are answered as the queue answers them, and the ring buffer holds
    what the queue holds. -/
theorem ring_linearizable [DecidableEq Party] (writer reader : Party) (m : rbuffer)
    (schedule : List (Party × ∀ i, Option { call : RbufferFifo.Call // (interface writer reader).may i call })) :
    (interface writer reader).Follows Fifo.empty
      ((interface writer reader).system.run
        ((interface writer reader).system.start ⟨(init_rbuffer.exec memory m).2,[]⟩ Interface.Block.idle) schedule).shared :=
  interface_lawful.linear represents_fresh schedule

end NeslPru.RbufferLinear
