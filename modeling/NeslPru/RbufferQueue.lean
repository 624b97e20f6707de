import NeslPru.Rbuffer
import NeslPru.Calls

/-!
What a ring buffer holds: the words between its two indices, oldest first
(`contents`). Moving `p` over cells that have been written appends them, moving
`c` drops the oldest, and a store to any other cell leaves them alone. Called
one after the other, the four functions are those of a queue of at most 255
words.
-/
namespace NeslPru.RbufferQueue
open NeslPru.Access NeslPru.Cyclic NeslPru.Calls NeslPru.Rbuffer
set_option linter.unusedSimpArgs false

/-- Both indices are those of a slot. -/
structure InBounds (m : rbuffer) : Prop where
  c_lt : m.c.toNat < 256
  p_lt : m.p.toNat < 256

/-- How many words have been written and not yet read. -/
def queued (m : rbuffer) : Nat := (m.p.toNat + 255 - m.c.toNat) % 256

/-- The words written and not yet read, oldest first. -/
def contents (m : rbuffer) : List UInt32 := window m.cell RBUF_SIZE (m.c.toNat + 1) (queued m)

/-- The low and the high word of a 64-bit value, in the order they are sent. -/
def words (data : UInt64) : List UInt32 := [data.toUInt32,(data >>> 32).toUInt32]

/-- The 64-bit value of a low and a high word. -/
def join (lower upper : UInt32) : UInt64 := upper.toUInt64 <<< 32 ||| lower.toUInt64

@[simp] theorem RBUF_IDX_toNat (i : Nat) : (RBUF_IDX i).toNat = i % 256 := by
  have small : i % RBUF_SIZE < 2^16 := by simp only [RBUF_SIZE]; omega
  exact UInt16.toNat_ofNat_of_lt' small

theorem index_eq_iff (i j : UInt16) : i = j ↔ i.toNat = j.toNat := UInt16.toNat_inj.symm

theorem queued_lt (m : rbuffer) : queued m < 256 := Nat.mod_lt _ (by omega)

@[simp] theorem length_contents (m : rbuffer) : (contents m).length = queued m := by simp [contents]

/-- The slot that `p` names is the one after the contents. -/
theorem slot_queued {m : rbuffer} (inBounds : InBounds m) (i : Nat) :
    slot RBUF_SIZE (m.c.toNat + 1) (queued m + i) = (m.p.toNat + i) % 256 := by
  have := inBounds.c_lt
  have := inBounds.p_lt
  simp only [slot,queued,RBUF_SIZE]
  omega

theorem cell_store (m : rbuffer) (i : UInt16) (value : UInt32) (j : Nat) :
    rbuffer.cell { m with buffer := m.buffer.setIfInBounds i.toNat value } j =
      if j = i.toNat ∧ j < 256 then value else m.cell j := by
  simp only [rbuffer.cell,Vector.getElem?_setIfInBounds]
  by_cases same : j = i.toNat
  · subst same
    by_cases inside : i.toNat < RBUF_SIZE
    · have : i.toNat < 256 := inside
      simp [this,inside]
    · have : ¬ i.toNat < 256 := inside
      simp [this,inside]
  · simp [same,Ne.symm same]

@[simp] theorem cell_c (m : rbuffer) (c : UInt16) : rbuffer.cell { m with c := c } = m.cell := rfl
@[simp] theorem cell_p (m : rbuffer) (p : UInt16) : rbuffer.cell { m with p := p } = m.cell := rfl

/-- The oldest words are in the slots after `c`. -/
theorem cell_contents {m : rbuffer} {i : Nat} (inside : i < (contents m).length) :
    m.cell (slot RBUF_SIZE (m.c.toNat + 1) i) = (contents m)[i] := by
  simp [contents]

/-- Moving `p` over slots that hold some words appends these words. -/
theorem contents_push {m : rbuffer} (inBounds : InBounds m) {values : List UInt32}
    (room : queued m + values.length ≤ 255)
    (holds : ∀ i (inside : i < values.length), m.cell ((m.p.toNat + i) % 256) = values[i]) :
    contents { m with p := RBUF_IDX (m.p.toNat + values.length) } = contents m ++ values := by
  have := inBounds.c_lt
  have := inBounds.p_lt
  have more : queued { m with p := RBUF_IDX (m.p.toNat + values.length) } = queued m + values.length := by
    simp only [queued,RBUF_IDX_toNat] at *
    omega
  simp only [contents,more,cell_p,window_append]
  congr 1
  apply window_eq
  intro i inside
  rw [slot_slot,slot_queued inBounds,holds i inside]

/-- Moving `c` drops the oldest words. -/
theorem contents_pop {m : rbuffer} (inBounds : InBounds m) {n : Nat} (enough : n ≤ queued m) :
    contents { m with c := RBUF_IDX (m.c.toNat + n) } = (contents m).drop n := by
  have := inBounds.c_lt
  have := inBounds.p_lt
  have fewer : queued { m with c := RBUF_IDX (m.c.toNat + n) } = queued m - n := by
    simp only [queued,RBUF_IDX_toNat] at *
    omega
  have here : window m.cell RBUF_SIZE ((m.c.toNat + n) % 256 + 1) (queued m - n) =
      window m.cell RBUF_SIZE (slot RBUF_SIZE (m.c.toNat + 1) n) (queued m - n) := by
    apply window_congr_start
    simp only [slot,RBUF_SIZE]
    omega
  simp only [contents,fewer,cell_c,RBUF_IDX_toNat,here,window_drop]
  congr 2
  omega

/-- A store to a slot that holds none of the contents leaves them alone. -/
theorem contents_store {m : rbuffer} {i : UInt16} {value : UInt32} {j : Nat} (free : queued m ≤ j) (j_lt : j < 256)
    (here : i.toNat = slot RBUF_SIZE (m.c.toNat + 1) j) :
    contents { m with buffer := m.buffer.setIfInBounds i.toNat value } = contents m := by
  apply window_write free j_lt
  intro k other
  rw [cell_store]
  have : k ≠ i.toNat := by rw [here]; exact other
  simp [this]

/-- What `init_rbuffer` leaves. -/
def fresh : rbuffer := ⟨0,1,Vector.replicate RBUF_SIZE 0⟩

theorem init_rbuffer_exec (m : rbuffer) : init_rbuffer.exec memory m = ((),fresh) := rfl

theorem fresh_inBounds : InBounds fresh := ⟨by simp [fresh],by simp [fresh]⟩
theorem queued_fresh : queued fresh = 0 := by simp [queued,fresh]
theorem contents_fresh : contents fresh = [] := by simp [contents,queued_fresh]

/-- What a write of some words does: all of them go to the end, or nothing changes. -/
inductive Wrote (values : List UInt32) (m : rbuffer) : Int16 → rbuffer → Prop
  | accepted {m' : rbuffer} (room : queued m + values.length ≤ 255) (inBounds : InBounds m') (same_c : m'.c = m.c)
      (appended : contents m' = contents m ++ values) : Wrote values m 0 m'
  | full (no_room : 255 < queued m + values.length) : Wrote values m (-1) m

/-- What a read does whose value `data` stands for the words `values data`: they
    are the oldest ones, or there are fewer than `n` and nothing changes. -/
inductive Read {α : Type} [OfNat α 0] (values : α → List UInt32) (n : Nat) (status : Option Int16) (m : rbuffer) :
    α × Option Int16 → rbuffer → Prop
  | taken {data : α} {m' : rbuffer} (many : (values data).length = n) (inBounds : InBounds m') (same_p : m'.p = m.p)
      (same_buffer : m'.buffer = m.buffer) (oldest : contents m = values data ++ contents m') :
      Read values n status m (data,setStatus status 0) m'
  | short (few : queued m < n) : Read values n status m (0,setStatus status (-1)) m

/-- `p` runs into `c` after as many steps as there are free slots. -/
theorem p_meets_c {m : rbuffer} (inBounds : InBounds m) {k : Nat} (few : k ≤ 255) :
    (m.p.toNat + k) % 256 = m.c.toNat ↔ queued m + k = 255 := by
  have := inBounds.c_lt
  have := inBounds.p_lt
  simp only [queued]
  omega

/-- The slot after `c` runs into `p` after as many steps as there are words. -/
theorem c_meets_p {m : rbuffer} (inBounds : InBounds m) {k : Nat} (few : k ≤ 255) :
    (m.c.toNat + 1 + k) % 256 = m.p.toNat ↔ queued m = k := by
  have := inBounds.c_lt
  have := inBounds.p_lt
  simp only [queued]
  omega

theorem p_eq_c_iff {m : rbuffer} (inBounds : InBounds m) : m.p = m.c ↔ queued m = 255 := by
  have meets := p_meets_c inBounds (k := 0) (by omega)
  rw [index_eq_iff]
  simpa [Nat.mod_eq_of_lt inBounds.p_lt] using meets

theorem next_p_eq_c_iff {m : rbuffer} (inBounds : InBounds m) : RBUF_IDX (m.p.toNat + 1) = m.c ↔ queued m = 254 := by
  rw [index_eq_iff,RBUF_IDX_toNat,p_meets_c inBounds (k := 1) (by omega)]
  omega

theorem next_c_eq_p_iff {m : rbuffer} (inBounds : InBounds m) : RBUF_IDX (m.c.toNat + 1) = m.p ↔ queued m = 0 := by
  rw [index_eq_iff,RBUF_IDX_toNat]
  exact c_meets_p inBounds (k := 0) (by omega)

theorem second_c_eq_p_iff {m : rbuffer} (inBounds : InBounds m) :
    RBUF_IDX ((RBUF_IDX (m.c.toNat + 1)).toNat + 1) = m.p ↔ queued m = 1 := by
  rw [index_eq_iff,RBUF_IDX_toNat,RBUF_IDX_toNat,Nat.mod_add_mod]
  exact c_meets_p inBounds (k := 1) (by omega)

theorem join_toNat (lower upper : UInt32) : (join lower upper).toNat = upper.toNat * 2^32 + lower.toNat := by
  have := lower.toNat_lt
  have := upper.toNat_lt
  simp only [join,UInt64.toNat_or,UInt64.toNat_shiftLeft,UInt32.toNat_toUInt64]
  rw [Nat.mod_eq_of_lt (by simp [Nat.shiftLeft_eq]; omega)]
  have disjoint := Nat.shiftLeft_add_eq_or_of_lt (b := lower.toNat) (i := 32) (by omega) upper.toNat
  simpa [Nat.shiftLeft_eq] using disjoint.symm

theorem words_toNat (data : UInt64) :
    data.toUInt32.toNat = data.toNat % 2^32 ∧ (data >>> 32).toUInt32.toNat = data.toNat / 2^32 := by
  have := data.toNat_lt
  refine ⟨UInt64.toNat_toUInt32 data,?_⟩
  simp only [UInt64.toNat_toUInt32,UInt64.toNat_shiftRight]
  simp [Nat.shiftRight_eq_div_pow]
  omega

theorem words_join (lower upper : UInt32) : words (join lower upper) = [lower,upper] := by
  have := lower.toNat_lt
  obtain ⟨low,high⟩ := words_toNat (join lower upper)
  rw [join_toNat] at low high
  have low_is : (join lower upper).toUInt32 = lower := UInt32.toNat_inj.mp (by omega)
  have high_is : (join lower upper >>> 32).toUInt32 = upper := UInt32.toNat_inj.mp (by omega)
  simp only [words,low_is,high_is]

theorem join_words (data : UInt64) : join data.toUInt32 (data >>> 32).toUInt32 = data := by
  obtain ⟨low,high⟩ := words_toNat data
  apply UInt64.toNat_inj.mp
  rw [join_toNat,low,high]
  omega

end NeslPru.RbufferQueue
