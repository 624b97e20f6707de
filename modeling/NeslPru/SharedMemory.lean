import NeslPru.Bytes
import NeslPru.RbufferLinear

/-!
The 12 KB of memory that the host and the PRU share. Each `struct rbuffer` is two
`uint16_t` and 256 `uint32_t` in it, the one that the PRU writes at `RBUF_ADDR`
and the one that the host writes right after it. The two threads of the host and
the PRU then call two queues that do not disturb each other, and change no byte
behind them.
-/
namespace NeslPru.SharedMemory
open NeslPru.Access NeslPru.Calls NeslPru.Linearizable NeslPru.Bytes NeslPru.Rbuffer NeslPru.RbufferQueue
open NeslPru.RbufferFifo NeslPru.RbufferLinear
set_option linter.unusedSimpArgs false

def RBUF_ADDR : Nat := 0
/-- `sizeof(struct rbuffer)`; no member needs padding. -/
def sizeof_rbuffer : Nat := 2 + 2 + 4 * RBUF_SIZE

/-- The structure in the bytes from `base` on. -/
def view (base : Nat) (m : Memory) : rbuffer where
  c := UInt16.ofNat (load m base 2)
  p := UInt16.ofNat (load m (base + 2) 2)
  buffer := Vector.ofFn fun i => UInt32.ofNat (load m (base + 4 + 4 * i) 4)

/-- The access to a member of the structure at `base`. -/
def member (base : Nat) : Rbuffer.Access → Bytes.Access
  | .load_c => .load base 2
  | .load_p => .load (base + 2) 2
  | .load_buffer i => .load (base + 4 + 4 * i.toNat) 4
  | .store_c value => .store base 2 value.toNat
  | .store_p value => .store (base + 2) 2 value.toNat
  | .store_buffer i value => .store (base + 4 + 4 * i.toNat) 4 value.toNat
  | .memset => .fill base sizeof_rbuffer 0

/-- The value that an access to a member returns. -/
def value (base : Nat) : (a : Rbuffer.Access) → (member base a).Answer → a.Answer
  | .load_c, n => UInt16.ofNat n
  | .load_p, n => UInt16.ofNat n
  | .load_buffer _, n => UInt32.ofNat n
  | .store_c _, _ => ()
  | .store_p _, _ => ()
  | .store_buffer _ _, _ => ()
  | .memset, _ => ()

/-- A program of the ring buffer header, for the structure at `base`. -/
def onBytes {α : Type} (base : Nat) (p : RingProg α) : Prog Bytes.Access Bytes.Access.Answer α :=
  p.embed (member base) (value base)

variable {base : Nat} {m m' : Memory}

/-- A structure depends on its own bytes only. -/
theorem view_congr (same : ∀ k, Within base sizeof_rbuffer k → m k = m' k) : view base m = view base m' := by
  have part : ∀ offset width, offset + width ≤ sizeof_rbuffer → load m (base + offset) width = load m' (base + offset) width := by
    intro offset width inside
    apply load_congr
    rintro k ⟨after,before⟩
    exact same k ⟨by omega,by omega⟩
  have size : sizeof_rbuffer = 1028 := rfl
  have c := part 0 2 (by omega)
  have p := part 2 2 (by omega)
  simp only [view,rbuffer.mk.injEq]
  refine ⟨by rw [Nat.add_zero] at c; rw [c],by rw [p],?_⟩
  congr 1
  funext i
  have i_lt : i.val < 256 := i.isLt
  have cell := part (4 + 4 * i) 4 (by omega)
  rw [← Nat.add_assoc] at cell
  rw [cell]

/-- An access to a member stays inside the structure. -/
theorem member_touches {a : Rbuffer.Access} (inside : InStruct a) {k : Nat} (touches : (member base a).Touches k) :
    Within base sizeof_rbuffer k := by
  have size : sizeof_rbuffer = 1028 := rfl
  cases a with
  | store_c value =>
    obtain ⟨after,before⟩ := touches
    exact ⟨by omega,by omega⟩
  | store_p value =>
    obtain ⟨after,before⟩ := touches
    exact ⟨by omega,by omega⟩
  | store_buffer i value =>
    obtain ⟨after,before⟩ := touches
    have i_lt : i.toNat < 256 := inside
    exact ⟨by omega,by omega⟩
  | memset => exact touches
  | _ => exact touches.elim

/-- A number that does not meet the bytes of a store is loaded as before. -/
theorem load_store_other {start width address n v : Nat} (apart : address + n ≤ start ∨ start + width ≤ address) :
    load (store m start width v) address n = load m address n := by
  apply load_congr
  rintro k ⟨after,before⟩
  exact store_outside v (fun ⟨after',before'⟩ => by omega)

theorem ofNat_load_store_16 (address : Nat) (v : UInt16) : UInt16.ofNat (load (store m address 2 v.toNat) address 2) = v := by
  have := v.toNat_lt
  rw [load_store,Nat.mod_eq_of_lt (by omega),UInt16.ofNat_toNat]

theorem ofNat_load_store_32 (address : Nat) (v : UInt32) : UInt32.ofNat (load (store m address 4 v.toNat) address 4) = v := by
  have := v.toNat_lt
  rw [load_store,Nat.mod_eq_of_lt (by omega),UInt32.ofNat_toNat]

theorem view_store_c (v : UInt16) : view base (store m base 2 v.toNat) = { view base m with c := v } := by
  simp only [view,rbuffer.mk.injEq]
  refine ⟨ofNat_load_store_16 base v,by rw [load_store_other (by omega)],?_⟩
  congr 1
  funext i
  rw [load_store_other (by omega)]

theorem view_store_p (v : UInt16) : view base (store m (base + 2) 2 v.toNat) = { view base m with p := v } := by
  simp only [view,rbuffer.mk.injEq]
  refine ⟨by rw [load_store_other (by omega)],ofNat_load_store_16 _ v,?_⟩
  congr 1
  funext i
  rw [load_store_other (by omega)]

theorem view_store_buffer {i : Nat} (v : UInt32) :
    view base (store m (base + 4 + 4 * i) 4 v.toNat) =
      { view base m with buffer := (view base m).buffer.setIfInBounds i v } := by
  simp only [view,rbuffer.mk.injEq]
  refine ⟨by rw [load_store_other (by omega)],by rw [load_store_other (by omega)],?_⟩
  apply Vector.ext
  intro j j_lt
  rw [Vector.getElem_ofFn,Vector.getElem_setIfInBounds]
  by_cases same : i = j
  · subst same
    rw [if_pos rfl]
    exact ofNat_load_store_32 _ v
  · rw [if_neg same,Vector.getElem_ofFn]
    dsimp only
    rw [load_store_other (by omega)]

theorem view_fill : view base (fill m base sizeof_rbuffer 0) = ⟨0,0,Vector.replicate RBUF_SIZE 0⟩ := by
  have zero : ∀ offset width, offset + width ≤ sizeof_rbuffer →
      load (fill m base sizeof_rbuffer 0) (base + offset) width = 0 := by
    intro offset width inside
    apply load_fill_zero
    rintro k ⟨after,before⟩
    exact ⟨by omega,by omega⟩
  have size : sizeof_rbuffer = 1028 := rfl
  have c := zero 0 2 (by omega)
  have p := zero 2 2 (by omega)
  simp only [view,rbuffer.mk.injEq]
  refine ⟨by rw [Nat.add_zero] at c; rw [c]; rfl,by rw [p]; rfl,?_⟩
  apply Vector.ext
  intro i i_lt
  have i_lt' : i < 256 := i_lt
  have cell := zero (4 + 4 * i) 4 (by omega)
  rw [← Nat.add_assoc] at cell
  rw [Vector.getElem_ofFn,Vector.getElem_replicate,cell]
  rfl

/-- Each access to a member acts on the structure as it does on the struct alone. -/
theorem member_agrees (base : Nat) {a : Rbuffer.Access} (inside : InStruct a) (m : Memory) :
    value base a (ram (member base a) m).1 = (memory a (view base m)).1 ∧
      view base (ram (member base a) m).2 = (memory a (view base m)).2 := by
  cases a with
  | load_buffer i =>
    have i_lt : i.toNat < RBUF_SIZE := inside
    refine ⟨?_,rfl⟩
    simp [value,member,ram,memory,rbuffer.cell,view,i_lt]
  | store_c v => exact ⟨rfl,view_store_c v⟩
  | store_p v => exact ⟨rfl,view_store_p v⟩
  | store_buffer i v => exact ⟨rfl,view_store_buffer v⟩
  | memset => exact ⟨rfl,view_fill⟩
  | load_c => exact ⟨rfl,rfl⟩
  | load_p => exact ⟨rfl,rfl⟩

theorem member_frame (base : Nat) {a : Rbuffer.Access} (inside : InStruct a) (m : Memory) {k : Nat}
    (outside : ¬ Within base sizeof_rbuffer k) : (ram (member base a) m).2 k = m k :=
  ram_frame _ (fun touches => outside (member_touches inside touches))

/-- A program of the header does to the structure in memory what it does to the
    struct alone, and nothing outside. -/
theorem exec_onBytes {α : Type} (base : Nat) (p : RingProg α) (only : p.Only InStruct fun _ => True) (m : Memory) :
    ((onBytes base p).exec ram m).1 = (p.exec memory (view base m)).1 ∧
      view base ((onBytes base p).exec ram m).2 = (p.exec memory (view base m)).2 ∧
      ∀ k, ¬ Within base sizeof_rbuffer k → ((onBytes base p).exec ram m).2 k = m k := by
  induction p generalizing m with
  | ret v => exact ⟨rfl,rfl,fun _ _ => rfl⟩
  | access a next ih =>
    obtain ⟨inside,later⟩ := only
    obtain ⟨answer,here⟩ := member_agrees base inside m
    obtain ⟨result,there,frame⟩ := ih (memory a (view base m)).1 (later _) (ram (member base a) m).2
    simp only [onBytes,Prog.embed,Prog.exec,answer] at result there frame ⊢
    rw [here] at result there
    exact ⟨result,there,fun k outside => (frame k outside).trans (member_frame base inside m outside)⟩

theorem init_rbuffer_only : init_rbuffer.Only InStruct fun _ => True :=
  ⟨trivial,fun _ => ⟨trivial,fun _ => ⟨trivial,fun _ => trivial⟩⟩⟩

/-! ### Both ring buffers -/

inductive Party where
  | pru
  | receive_pru_thread
  | send_pru_thread
deriving DecidableEq

/-- The ring buffer that the PRU writes, and the one that the host writes. -/
def rings : Interface Party (Sum.elim Rbuffer.Access.Answer Rbuffer.Access.Answer) (rbuffer × rbuffer)
    (RbufferFifo.Call ⊕ RbufferFifo.Call) (Reply ⊕ Reply) (Fifo UInt32 255 × Fifo UInt32 255) :=
  .prod (interface .pru .receive_pru_thread) (interface .send_pru_thread .pru)

def toBytes : Rbuffer.Access ⊕ Rbuffer.Access → Bytes.Access
  | .inl a => member RBUF_ADDR a
  | .inr a => member (RBUF_ADDR + sizeof_rbuffer) a

def fromBytes : (a : Rbuffer.Access ⊕ Rbuffer.Access) → (toBytes a).Answer →
    Sum.elim Rbuffer.Access.Answer Rbuffer.Access.Answer a
  | .inl a, r => value RBUF_ADDR a r
  | .inr a, r => value (RBUF_ADDR + sizeof_rbuffer) a r

def views (m : Memory) : rbuffer × rbuffer := (view RBUF_ADDR m,view (RBUF_ADDR + sizeof_rbuffer) m)

/-- The bytes behind the two ring buffers. -/
def behind (m : Memory) (k : Nat) : UInt8 := m (RBUF_ADDR + 2 * sizeof_rbuffer + k)

def sharedRings : Interface Party Bytes.Access.Answer Memory (RbufferFifo.Call ⊕ RbufferFifo.Call) (Reply ⊕ Reply)
    ((Fifo UInt32 255 × Fifo UInt32 255) × (Nat → UInt8)) :=
  .place rings ram toBytes fromBytes views behind

theorem rings_agree (a : Rbuffer.Access ⊕ Rbuffer.Access) (m : Memory) (inside : rings.allowed a) :
    fromBytes a (ram (toBytes a) m).1 = (rings.device a (views m)).1 ∧
      views (ram (toBytes a) m).2 = (rings.device a (views m)).2 := by
  cases a with
  | inl a =>
    obtain ⟨answer,here⟩ := @member_agrees RBUF_ADDR a inside m
    have there : view (RBUF_ADDR + sizeof_rbuffer) (ram (member RBUF_ADDR a) m).2 = view (RBUF_ADDR + sizeof_rbuffer) m :=
      view_congr (fun k within => member_frame RBUF_ADDR inside m (fun within' => by have := within.1; have := within'.2; omega))
    exact ⟨answer,Prod.ext here there⟩
  | inr a =>
    obtain ⟨answer,here⟩ := @member_agrees (RBUF_ADDR + sizeof_rbuffer) a inside m
    have there : view RBUF_ADDR (ram (member (RBUF_ADDR + sizeof_rbuffer) a) m).2 = view RBUF_ADDR m :=
      view_congr (fun k within => member_frame _ inside m (fun within' => by have := within.2; have := within'.1; omega))
    exact ⟨answer,Prod.ext there here⟩

theorem rings_frame (a : Rbuffer.Access ⊕ Rbuffer.Access) (m : Memory) (inside : rings.allowed a) :
    behind (ram (toBytes a) m).2 = behind m := by
  funext k
  cases a with
  | inl a => exact @member_frame RBUF_ADDR a inside m _ (fun within => by have := within.2; omega)
  | inr a => exact @member_frame (RBUF_ADDR + sizeof_rbuffer) a inside m _ (fun within => by have := within.2; omega)

theorem sharedRings_lawful : sharedRings.Lawful :=
  (interface_lawful.prod interface_lawful).place rings_agree rings_frame

/-- What the host does to the shared memory before it starts the PRU. -/
def host_setup : Prog Bytes.Access Bytes.Access.Answer Unit := do
  Prog.call (Bytes.Access.fill 0 0x3000 0)
  onBytes (RBUF_ADDR + sizeof_rbuffer) init_rbuffer

/-- What the PRU does to it before the first message. -/
def pru_setup : Prog Bytes.Access Bytes.Access.Answer Unit := onBytes RBUF_ADDR init_rbuffer

def setup (m : Memory) : Memory := (pru_setup.exec ram (host_setup.exec ram m).2).2

/-- Before the first call both ring buffers are fresh, and the bytes behind them are clear. -/
theorem setup_views (m : Memory) : views (setup m) = (fresh,fresh) ∧
    ∀ k, behind (setup m) k = if RBUF_ADDR + 2 * sizeof_rbuffer + k < 0x3000 then 0 else m (RBUF_ADDR + 2 * sizeof_rbuffer + k) := by
  obtain ⟨_,host,host_frame⟩ := exec_onBytes (RBUF_ADDR + sizeof_rbuffer) init_rbuffer init_rbuffer_only
    (fill m 0 0x3000 0)
  obtain ⟨_,pru,pru_frame⟩ := exec_onBytes RBUF_ADDR init_rbuffer init_rbuffer_only (host_setup.exec ram m).2
  have size : sizeof_rbuffer = 1028 := rfl
  have start : RBUF_ADDR = 0 := rfl
  refine ⟨Prod.ext pru ?_,?_⟩
  · have kept : view (RBUF_ADDR + sizeof_rbuffer) (setup m) = view (RBUF_ADDR + sizeof_rbuffer) (host_setup.exec ram m).2 :=
      view_congr (fun k within => pru_frame k (fun within' => by have := within.1; have := within'.2; omega))
    exact kept.trans host
  · intro k
    have outside : behind (setup m) k = fill m 0 0x3000 0 (RBUF_ADDR + 2 * sizeof_rbuffer + k) :=
      (pru_frame _ (fun within => by have := within.2; omega)).trans
        (host_frame _ (fun within => by have := within.2; omega))
    rw [outside]
    by_cases below : RBUF_ADDR + 2 * sizeof_rbuffer + k < 0x3000
    · rw [if_pos below]
      exact if_pos ⟨Nat.zero_le _,by omega⟩
    · rw [if_neg below]
      exact fill_outside 0 (fun within => by have := within.2; omega)

/-- The calls on each ring buffer are answered as its own queue answers them,
    and behind the ring buffers the shared memory is clear as the host has left it. -/
structure Separate (m : Memory) (s : Interface.Shared Party Memory (RbufferFifo.Call ⊕ RbufferFifo.Call) (Reply ⊕ Reply)) :
    Prop where
  from_pru : (s.returns.map Interface.Return.reply).filterMap Sum.getLeft? =
    fifo.replies Fifo.empty ((s.returns.map Interface.Return.call).filterMap Sum.getLeft?)
  to_pru : (s.returns.map Interface.Return.reply).filterMap Sum.getRight? =
    fifo.replies Fifo.empty ((s.returns.map Interface.Return.call).filterMap Sum.getRight?)
  queued_from_pru : Represents (view RBUF_ADDR s.mem)
    (fifo.after Fifo.empty ((s.returns.map Interface.Return.call).filterMap Sum.getLeft?))
  queued_to_pru : Represents (view (RBUF_ADDR + sizeof_rbuffer) s.mem)
    (fifo.after Fifo.empty ((s.returns.map Interface.Return.call).filterMap Sum.getRight?))
  untouched : ∀ k, RBUF_ADDR + 2 * sizeof_rbuffer ≤ k → s.mem k = if k < 0x3000 then 0 else m k

/-- Whatever the PRU and the two threads of the host call on the two ring buffers
    and however their loads and stores of the shared memory interleave, each
    ring buffer answers as a queue of its own. -/
theorem shared_memory_separate (m : Memory)
    (schedule : List (Party × ∀ i, Option { call : RbufferFifo.Call ⊕ RbufferFifo.Call // sharedRings.may i call })) :
    Separate m (sharedRings.system.run (sharedRings.system.start ⟨setup m,[]⟩ Interface.Block.idle) schedule).shared := by
  have represents : sharedRings.represents (setup m) ((Fifo.empty,Fifo.empty),behind (setup m)) := by
    refine ⟨?_,rfl⟩
    show rings.represents (views (setup m)) (Fifo.empty,Fifo.empty)
    rw [(setup_views m).1]
    exact ⟨represents_fresh,represents_fresh⟩
  obtain ⟨replies,held⟩ := sharedRings_lawful.linear represents schedule
  generalize (sharedRings.system.run (sharedRings.system.start ⟨setup m,[]⟩ Interface.Block.idle) schedule).shared = s
    at replies held
  obtain ⟨same,after⟩ := Machine.keeping_replies (fifo.beside fifo) ((Fifo.empty,Fifo.empty),behind (setup m))
    (s.returns.map Interface.Return.call)
  obtain ⟨left,left_after⟩ := Machine.beside_left fifo fifo (Fifo.empty,Fifo.empty) (s.returns.map Interface.Return.call)
  obtain ⟨right,right_after⟩ := Machine.beside_right fifo fifo (Fifo.empty,Fifo.empty) (s.returns.map Interface.Return.call)
  have replies' : s.returns.map Interface.Return.reply =
      (fifo.beside fifo).replies (Fifo.empty,Fifo.empty) (s.returns.map Interface.Return.call) := replies.trans same
  have held' : sharedRings.represents s.mem ((fifo.beside fifo).after (Fifo.empty,Fifo.empty) (s.returns.map Interface.Return.call),
      behind (setup m)) := after ▸ held
  obtain ⟨⟨first,second⟩,rest⟩ := held'
  rw [left_after] at first
  rw [right_after] at second
  refine ⟨by rw [replies']; exact left,by rw [replies']; exact right,first,second,?_⟩
  intro k beyond
  have same_rest : behind s.mem = behind (setup m) := rest
  obtain ⟨j,rfl⟩ := Nat.exists_eq_add_of_le beyond
  exact (congrFun same_rest j).trans ((setup_views m).2 j)

end NeslPru.SharedMemory
