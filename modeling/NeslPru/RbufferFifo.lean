import NeslPru.RbufferAtomic

/-!
The ring buffer called by one party is a queue of at most 255 words: every
sequence of calls is answered as the queue answers it, and a call that fails
leaves both indices and every slot as they were.
-/
namespace NeslPru.RbufferFifo
open NeslPru.Access NeslPru.RelyGuarantee NeslPru.Calls NeslPru.Rbuffer NeslPru.RbufferQueue NeslPru.RbufferAtomic
set_option linter.unusedSimpArgs false

inductive Call where
  | write_uint32 (data : UInt32)
  | write_uint64 (data : UInt64)
  | read_uint32 (status : Option Int16)
  | read_uint64 (status : Option Int16)

/-- What a call returns, and what it leaves in `*status`. -/
inductive Reply where
  | wrote (result : Int16)
  | read_uint32 (data : UInt32) (status : Option Int16)
  | read_uint64 (data : UInt64) (status : Option Int16)
deriving DecidableEq

/-- The functions of the header, run on a ring buffer that nobody else uses. -/
def ring : Machine Call Reply rbuffer where
  answer m
    | .write_uint32 data => ((rbuf_write_uint32 data).exec memory m).map .wrote id
    | .write_uint64 data => ((rbuf_write_uint64 data).exec memory m).map .wrote id
    | .read_uint32 status => ((rbuf_read_uint32 status).exec memory m).map (fun r => .read_uint32 r.1 r.2) id
    | .read_uint64 status => ((rbuf_read_uint64 status).exec memory m).map (fun r => .read_uint64 r.1 r.2) id

/-- A queue of at most 255 words, where a 64-bit value is its low word and then
    its high word. -/
def fifo : Machine Call Reply (Fifo UInt32 255) where
  answer q
    | .write_uint32 data =>
      match q.push [data] with
      | some q' => (.wrote 0,q')
      | none => (.wrote (-1),q)
    | .write_uint64 data =>
      match q.push (words data) with
      | some q' => (.wrote 0,q')
      | none => (.wrote (-1),q)
    | .read_uint32 status =>
      match q.pop 1 with
      | some ([first],q') => (.read_uint32 first (setStatus status 0),q')
      | _ => (.read_uint32 0 (setStatus status (-1)),q)
    | .read_uint64 status =>
      match q.pop 2 with
      | some ([first,second],q') => (.read_uint64 (join first second) (setStatus status 0),q')
      | _ => (.read_uint64 0 (setStatus status (-1)),q)

/-- The queue has no room, or not enough words, for a call. -/
def Refuses (q : Fifo UInt32 255) : Call → Prop
  | .write_uint32 data => q.push [data] = none
  | .write_uint64 data => q.push (words data) = none
  | .read_uint32 _ => q.pop 1 = none
  | .read_uint64 _ => q.pop 2 = none

/-- A reply by which the caller sees that the call failed. -/
def Reply.Failed : Reply → Prop
  | .wrote result => result = -1
  | .read_uint32 _ status => status = some (-1)
  | .read_uint64 _ status => status = some (-1)

/-- The queue that a ring buffer stands for. -/
structure Represents (m : rbuffer) (q : Fifo UInt32 255) : Prop where
  inBounds : InBounds m
  items : q.items = contents m

theorem full_write_uint32 {m : rbuffer} (inBounds : InBounds m) {data : UInt32} (full : 255 < queued m + 1) :
    (rbuf_write_uint32 data).exec memory m = (-1,m) := by
  have := queued_lt m
  have same : m.p = m.c := (p_eq_c_iff inBounds).mpr (by omega)
  simp [rbuf_write_uint32,Prog.exec,memory,same]

theorem full_write_uint64 {m : rbuffer} (inBounds : InBounds m) {data : UInt64} (full : 255 < queued m + 2) :
    (rbuf_write_uint64 data).exec memory m = (-1,m) := by
  have := queued_lt m
  by_cases all : queued m = 255
  · have same : m.p = m.c := (p_eq_c_iff inBounds).mpr all
    simp [rbuf_write_uint64,Prog.exec,memory,same]
  · have other : m.p ≠ m.c := fun same => all ((p_eq_c_iff inBounds).mp same)
    have next : RBUF_IDX (m.p.toNat + 1) = m.c := (next_p_eq_c_iff inBounds).mpr (by omega)
    simp [rbuf_write_uint64,Prog.exec,memory,other,next]

/-- The accesses before the last one leave the queue as it is. -/
def Kept (m m' : rbuffer) : Prop := m'.c = m.c ∧ contents m' = contents m

theorem kept_trans {m n o : rbuffer} (first : Kept m n) (second : Kept n o) : Kept m o :=
  ⟨second.1.trans first.1,second.2.trans first.2⟩

/-- A call of the writer that runs alone. -/
theorem write_alone {values : List UInt32} {p : RingProg Int16} {m : rbuffer} (inBounds : InBounds m)
    (atomic : WriteAtomic values p m) (full : 255 < queued m + values.length → p.exec memory m = (-1,m)) :
    Wrote values m (p.exec memory m).1 (p.exec memory m).2 := by
  by_cases too_full : 255 < queued m + values.length
  · rw [full too_full]
    exact .full too_full
  · obtain ⟨_,m₁,⟨same_c,same_contents⟩,_,_,wrote⟩ := atomic.exec Kept drains_refl (fun _ => ⟨rfl,rfl⟩)
      kept_trans (fun _ unseen => ⟨unseen.inBounds,unseen.same_c,unseen.same_contents⟩) p inBounds
    have same_queued : queued m₁ = queued m := by rw [← length_contents,same_contents,length_contents]
    generalize p.exec memory m = result at wrote ⊢
    obtain ⟨status,m'⟩ := result
    cases wrote with
    | accepted room inBounds' c' appended =>
      exact .accepted (by omega) inBounds' (c'.trans same_c) (by rw [appended,same_contents])
    | full no_room => omega

/-- A call of the reader that runs alone. -/
theorem read_alone {α : Type} [OfNat α 0] {values : α → List UInt32} {n : Nat} {status : Option Int16}
    {p : RingProg (α × Option Int16)} {m : rbuffer} (inBounds : InBounds m) (atomic : ReadAtomic values n status p m) :
    Read values n status m (p.exec memory m).1 (p.exec memory m).2 := by
  obtain ⟨_,m₁,same,_,_,read⟩ := atomic.exec Eq fills_refl (fun _ => rfl) Eq.trans
    (fun valid looks => ⟨looks.same ▸ valid,looks.same.symm⟩) p inBounds
  subst same
  exact read

theorem wrote_push {m m' : rbuffer} {q : Fifo UInt32 255} {values : List UInt32} {status : Int16}
    (represents : Represents m q) (wrote : Wrote values m status m') :
    (∃ q', q.push values = some q' ∧ status = 0 ∧ Represents m' q') ∨
      (q.push values = none ∧ status = -1 ∧ m' = m) := by
  have many : q.items.length = queued m := by rw [represents.items,length_contents]
  cases wrote with
  | accepted room inBounds' _ appended =>
    have fits : q.items.length + values.length ≤ 255 := by omega
    refine .inl ⟨⟨q.items ++ values,by simpa using fits⟩,by simp [Fifo.push,fits],rfl,inBounds',?_⟩
    simp [appended,represents.items]
  | full no_room =>
    have too_many : ¬ q.items.length + values.length ≤ 255 := by omega
    exact .inr ⟨by simp [Fifo.push,too_many],rfl,rfl⟩

theorem read_pop {α : Type} [OfNat α 0] {values : α → List UInt32} {n : Nat} {status : Option Int16} {m m' : rbuffer}
    {q : Fifo UInt32 255} {result : α × Option Int16} (represents : Represents m q)
    (read : Read values n status m result m') :
    (∃ data q', q.pop n = some (values data,q') ∧ result = (data,setStatus status 0) ∧ Represents m' q') ∨
      (q.pop n = none ∧ result = (0,setStatus status (-1)) ∧ m' = m) := by
  have many : q.items.length = queued m := by rw [represents.items,length_contents]
  cases read with
  | @taken data _ length inBounds' _ _ oldest =>
    subst length
    have items : q.items = values data ++ contents m' := by rw [represents.items,oldest]
    have enough : (values data).length ≤ q.items.length := by rw [items]; simp
    have rest : (q.items.drop (values data).length).length ≤ 255 := by
      have := q.bounded
      simp
      omega
    refine .inl ⟨data,⟨q.items.drop (values data).length,rest⟩,?_,rfl,inBounds',by simp [items]⟩
    simp only [Fifo.pop,enough,↓reduceIte]
    simp [items]
  | short few =>
    have too_few : ¬ n ≤ q.items.length := by omega
    exact .inr ⟨by simp [Fifo.pop,too_few],rfl,rfl⟩

@[simp] theorem setStatus_zero (status : Option Int16) : setStatus status 0 ≠ some (-1) := by
  cases status <;> simp [setStatus]

/-- One call: the same reply, related states, and nothing changed when it fails. -/
theorem answer_refines {m : rbuffer} {q : Fifo UInt32 255} (represents : Represents m q) (call : Call) :
    (ring.answer m call).1 = (fifo.answer q call).1 ∧ Represents (ring.answer m call).2 (fifo.answer q call).2 ∧
      ((ring.answer m call).1.Failed ∨ Refuses q call → (ring.answer m call).2 = m) := by
  have inBounds := represents.inBounds
  cases call with
  | write_uint32 data =>
    have wrote := write_alone inBounds (rbuf_write_uint32_atomic data m) (full_write_uint32 inBounds)
    simp only [ring,fifo,Refuses,Prod.map,id,Reply.Failed]
    rcases wrote_push represents wrote with ⟨q',pushed,status,represents'⟩ | ⟨refused,status,same⟩
    · simp [pushed,status,represents']
    · simp [refused,status,same,represents]
  | write_uint64 data =>
    have wrote := write_alone inBounds (rbuf_write_uint64_atomic data m) (full_write_uint64 inBounds)
    simp only [ring,fifo,Refuses,Prod.map,id,Reply.Failed]
    rcases wrote_push represents wrote with ⟨q',pushed,status,represents'⟩ | ⟨refused,status,same⟩
    · simp [pushed,status,represents']
    · simp [refused,status,same,represents]
  | read_uint32 status =>
    have read := read_alone inBounds (rbuf_read_uint32_atomic status m)
    simp only [ring,fifo,Refuses,Prod.map,id,Reply.Failed]
    rcases read_pop represents read with ⟨data,q',popped,result,represents'⟩ | ⟨refused,result,same⟩
    · simp [popped,result,represents']
    · simp [refused,result,same,represents]
  | read_uint64 status =>
    have read := read_alone inBounds (rbuf_read_uint64_atomic status m)
    simp only [ring,fifo,Refuses,Prod.map,id,Reply.Failed]
    rcases read_pop represents read with ⟨data,q',popped,result,represents'⟩ | ⟨refused,result,same⟩
    · have whole := join_words data
      simp only [words] at popped
      simp [popped,result,represents',whole]
    · simp [refused,result,same,represents]

theorem ring_simulates : ring.Simulates fifo Represents := by
  intro m q call represents
  obtain ⟨reply,represents',_⟩ := answer_refines represents call
  exact ⟨reply,represents'⟩

/-- From a fresh ring buffer on, every sequence of calls is answered as the
    queue answers it, and a further call that fails, or that the queue refuses,
    changes no index and no slot. -/
theorem ring_refines_fifo (m : rbuffer) (calls : List Call) :
    ring.replies (init_rbuffer.exec memory m).2 calls = fifo.replies Fifo.empty calls ∧
      ∀ call, (ring.answer (ring.after (init_rbuffer.exec memory m).2 calls) call).1.Failed ∨
          Refuses (fifo.after Fifo.empty calls) call →
        (ring.answer (ring.after (init_rbuffer.exec memory m).2 calls) call).2 =
          ring.after (init_rbuffer.exec memory m).2 calls := by
  have represents : Represents (init_rbuffer.exec memory m).2 Fifo.empty := ⟨fresh_inBounds,contents_fresh.symm⟩
  refine ⟨ring_simulates.replies_eq represents calls,?_⟩
  intro call failed
  exact (answer_refines (ring_simulates.after_related represents calls) call).2.2 failed

example : fifo.replies Fifo.empty [.write_uint32 7,.read_uint64 (some 3),.write_uint64 0x500000004,.read_uint64 none] =
    [.wrote 0,.read_uint64 0 (some (-1)),.wrote 0,.read_uint64 0x400000007 none] := by
  decide

end NeslPru.RbufferFifo
