import NeslPru.RbufferQueue
import NeslPru.RelyGuarantee

/-!
The four ring buffer functions beside a function of the other processor. As long
as one processor only writes and the other only reads, each call does all its
work in its last access: there it appends its words or finds too little room, or
it takes the oldest words or finds too few. The accesses before change no word
that is queued.
-/
namespace NeslPru.RbufferAtomic
open NeslPru.Access NeslPru.RelyGuarantee NeslPru.Cyclic NeslPru.Rbuffer NeslPru.RbufferQueue
open NeslPru.Rbuffer.Access
set_option linter.unusedSimpArgs false

/-- What the reader may do between two accesses of the writer. -/
structure Drains (m m' : rbuffer) : Prop where
  same_p : m'.p = m.p
  same_buffer : m'.buffer = m.buffer
  suffix : contents m' <:+ contents m

/-- What the writer may do between two accesses of the reader. -/
structure Fills (m m' : rbuffer) : Prop where
  same_c : m'.c = m.c
  extends_contents : contents m <+: contents m'

/-- Slot `i` holds no queued word. -/
def Free (m : rbuffer) (i : UInt16) : Prop := ∃ j, queued m ≤ j ∧ j < 256 ∧ i.toNat = slot RBUF_SIZE (m.c.toNat + 1) j

/-- Slot `i` holds a queued word. -/
def Occupied (m : rbuffer) (i : UInt16) : Prop := ∃ j < queued m, i.toNat = slot RBUF_SIZE (m.c.toNat + 1) j

/-- An access of the writer that changes nothing that is queued. -/
structure Unseen (a : Rbuffer.Access) (m m' : rbuffer) : Prop where
  inBounds : InBounds m'
  same_p : m'.p = m.p
  same_c : m'.c = m.c
  same_contents : contents m' = contents m
  stores : ∀ i value, a = store_buffer i value → Free m i

/-- An access of the reader that changes nothing. -/
structure Looks (a : Rbuffer.Access) (m m' : rbuffer) : Prop where
  same : m' = m
  loads : ∀ i, a = load_buffer i → Occupied m i

theorem drains_refl (m : rbuffer) : Drains m m := ⟨rfl,rfl,List.suffix_refl _⟩
theorem drains_trans {m n o : rbuffer} (first : Drains m n) (second : Drains n o) : Drains m o :=
  ⟨second.same_p.trans first.same_p,second.same_buffer.trans first.same_buffer,second.suffix.trans first.suffix⟩

theorem fills_refl (m : rbuffer) : Fills m m := ⟨rfl,List.prefix_refl _⟩
theorem fills_trans {m n o : rbuffer} (first : Fills m n) (second : Fills n o) : Fills m o :=
  ⟨second.same_c.trans first.same_c,first.extends_contents.trans second.extends_contents⟩

theorem drains_queued {m m' : rbuffer} (drains : Drains m m') : queued m' ≤ queued m := by
  simpa using drains.suffix.length_le

theorem fills_queued {m m' : rbuffer} (fills : Fills m m') : queued m ≤ queued m' := by
  simpa using fills.extends_contents.length_le

/-- The slot that `p` names and the ones after it up to `c` are free. -/
theorem free_p {m : rbuffer} (inBounds : InBounds m) {k : Nat} {i : UInt16} (room : queued m + k < 256)
    (here : i.toNat = (m.p.toNat + k) % 256) : Free m i :=
  ⟨queued m + k,by omega,room,by rw [here,slot_queued inBounds]⟩

/-- A store to a free slot changes nothing that is queued. -/
theorem unseen_store {m : rbuffer} (inBounds : InBounds m) {i : UInt16} (free : Free m i) (value : UInt32) :
    Unseen (store_buffer i value) m { m with buffer := m.buffer.setIfInBounds i.toNat value } := by
  obtain ⟨j,fits,j_lt,here⟩ := free
  refine ⟨⟨inBounds.c_lt,inBounds.p_lt⟩,rfl,rfl,contents_store fits j_lt here,?_⟩
  rintro i' value' same
  cases same
  exact ⟨j,fits,j_lt,here⟩

theorem unseen_load_c {m : rbuffer} (inBounds : InBounds m) : Unseen load_c m m :=
  ⟨inBounds,rfl,rfl,rfl,fun _ _ same => by cases same⟩

theorem unseen_load_p {m : rbuffer} (inBounds : InBounds m) : Unseen load_p m m :=
  ⟨inBounds,rfl,rfl,rfl,fun _ _ same => by cases same⟩

theorem looks_load_c (m : rbuffer) : Looks load_c m m := ⟨rfl,fun _ same => by cases same⟩
theorem looks_load_p (m : rbuffer) : Looks load_p m m := ⟨rfl,fun _ same => by cases same⟩

/-- The writer has room for `n` words from `p` on and has stored `values` there. -/
structure Staged (p : UInt16) (n : Nat) (values : List UInt32) (m : rbuffer) : Prop where
  inBounds : InBounds m
  at_p : m.p = p
  room : queued m + n ≤ 255
  holds : ∀ i (inside : i < values.length), m.cell ((p.toNat + i) % 256) = values[i]

theorem staged_drains {p : UInt16} {n : Nat} {values : List UInt32} {m m' : rbuffer} (staged : Staged p n values m)
    (drains : Drains m m') (inBounds : InBounds m') : Staged p n values m' := by
  refine ⟨inBounds,drains.same_p.trans staged.at_p,?_,?_⟩
  · have := drains_queued drains
    have := staged.room
    omega
  · intro i inside
    have := staged.holds i inside
    simpa [rbuffer.cell,drains.same_buffer] using this

/-- Storing the next word. -/
theorem staged_store {p : UInt16} {n : Nat} {values : List UInt32} {m : rbuffer} (staged : Staged p n values m)
    {i : UInt16} (here : i.toNat = (p.toNat + values.length) % 256) (fits : values.length < n) (value : UInt32) :
    Unseen (store_buffer i value) m { m with buffer := m.buffer.setIfInBounds i.toNat value } ∧
      Staged p n (values ++ [value]) { m with buffer := m.buffer.setIfInBounds i.toNat value } := by
  have room := staged.room
  have free : Free m i := free_p (k := values.length) staged.inBounds (by omega) (by rw [here,staged.at_p])
  have unseen := unseen_store staged.inBounds free value
  refine ⟨unseen,unseen.inBounds,staged.at_p,?_,?_⟩
  · rw [← length_contents,unseen.same_contents,length_contents]
    exact room
  · intro k inside
    simp only [List.length_append,List.length_singleton] at inside
    rw [cell_store,here]
    by_cases last : k = values.length
    · subst last
      simp [Nat.mod_lt]
    · have other : (p.toNat + k) % 256 ≠ (p.toNat + values.length) % 256 := by omega
      rw [if_neg (by simp [other]),List.getElem_append_left (by omega)]
      exact staged.holds k (by omega)

/-- Publishing the stored words. -/
theorem staged_publish {p : UInt16} {n : Nat} {values : List UInt32} {m : rbuffer} (staged : Staged p n values m)
    (all : values.length = n) : Wrote values m 0 { m with p := RBUF_IDX (p.toNat + n) } := by
  obtain ⟨inBounds,rfl,room,holds⟩ := staged
  subst all
  exact .accepted room ⟨inBounds.c_lt,by simp only [RBUF_IDX_toNat]; omega⟩ rfl (contents_push inBounds room holds)

/-- A call of the writer appends `values` in its last access or finds the ring too full. -/
abbrev WriteAtomic (values : List UInt32) : RingProg Int16 → rbuffer → Prop :=
  Atomic memory InBounds Drains Unseen
    (fun status a m m' => (∀ i value, a ≠ store_buffer i value) ∧ Wrote values m status m')

/-- A call of the reader takes the `n` oldest words in its last access or finds fewer. -/
abbrev ReadAtomic {α : Type} [OfNat α 0] (values : α → List UInt32) (n : Nat) (status : Option Int16) :
    RingProg (α × Option Int16) → rbuffer → Prop :=
  Atomic memory InBounds Fills Looks
    (fun result a m m' => (∀ i, a ≠ load_buffer i) ∧ Read values n status m result m')

theorem rbuf_write_uint32_atomic (data : UInt32) (m : rbuffer) : WriteAtomic [data] (rbuf_write_uint32 data) m := by
  simp only [rbuf_write_uint32,Prog.call_bind,Prog.pure_eq]
  refine .intro (fun m₁ _ inBounds₁ => .inr ⟨rfl,unseen_load_p inBounds₁,.intro ?_⟩)
  intro m₂ drains₂ inBounds₂
  simp only [memory] at drains₂ ⊢
  by_cases full : m₁.p = m₂.c
  · have all : queued m₂ = 255 := (p_eq_c_iff inBounds₂).mp (by rw [drains₂.same_p,full])
    exact .inl ⟨-1,by simp [full],by simp,.full (by simp [all])⟩
  · have some_room : queued m₂ ≠ 255 := by
      rwa [ne_eq,← p_eq_c_iff inBounds₂,drains₂.same_p]
    have := queued_lt m₂
    have staged₂ : Staged m₁.p 1 [] m₂ := ⟨inBounds₂,drains₂.same_p,by omega,by simp⟩
    simp only [full,ne_eq,not_false_eq_true,↓reduceIte]
    refine .inr ⟨rfl,unseen_load_c inBounds₂,.intro (fun m₃ drains₃ inBounds₃ => ?_)⟩
    obtain ⟨unseen₃,staged₃⟩ := staged_store (staged_drains staged₂ drains₃ inBounds₃) (i := m₁.p)
      (by simp [Nat.mod_eq_of_lt inBounds₁.p_lt]) (by simp) data
    refine .inr ⟨rfl,unseen₃,.intro (fun m₄ drains₄ inBounds₄ => ?_)⟩
    exact .inl ⟨0,rfl,by simp,staged_publish (staged_drains staged₃ drains₄ inBounds₄) rfl⟩

theorem rbuf_write_uint64_atomic (data : UInt64) (m : rbuffer) :
    WriteAtomic (words data) (rbuf_write_uint64 data) m := by
  simp only [rbuf_write_uint64,Prog.call_bind,Prog.pure_eq]
  refine .intro (fun m₁ _ inBounds₁ => .inr ⟨rfl,unseen_load_p inBounds₁,.intro ?_⟩)
  intro m₂ drains₂ inBounds₂
  simp only [memory] at drains₂ ⊢
  by_cases full : m₁.p = m₂.c
  · have all : queued m₂ = 255 := (p_eq_c_iff inBounds₂).mp (by rw [drains₂.same_p,full])
    exact .inl ⟨-1,by simp [full],by simp,.full (by simp [all,words])⟩
  have some_room : queued m₂ ≠ 255 := by
    rwa [ne_eq,← p_eq_c_iff inBounds₂,drains₂.same_p]
  have := queued_lt m₂
  simp only [full,ne_eq,not_false_eq_true,↓reduceIte]
  refine .inr ⟨rfl,unseen_load_c inBounds₂,.intro ?_⟩
  intro m₃ drains₃ inBounds₃
  have p₃ : m₃.p = m₁.p := drains₃.same_p.trans drains₂.same_p
  -- The reader only makes room, so that the second load of `c` finds no less of it.
  have := drains_queued drains₃
  simp only [memory]
  by_cases almost : RBUF_IDX (m₁.p.toNat + 1) = m₃.c
  · have all : queued m₃ = 254 := (next_p_eq_c_iff inBounds₃).mp (by rw [p₃,almost])
    exact .inl ⟨-1,by simp [almost],by simp,.full (by simp [all,words])⟩
  · have more_room : queued m₃ ≠ 254 := by
      rwa [ne_eq,← next_p_eq_c_iff inBounds₃,p₃]
    have staged₃ : Staged m₁.p 2 [] m₃ := ⟨inBounds₃,p₃,by omega,by simp⟩
    simp only [almost,not_false_eq_true,↓reduceIte]
    refine .inr ⟨rfl,unseen_load_c inBounds₃,.intro (fun m₄ drains₄ inBounds₄ => ?_)⟩
    obtain ⟨unseen₄,staged₄⟩ := staged_store (staged_drains staged₃ drains₄ inBounds₄) (i := m₁.p)
      (by simp [Nat.mod_eq_of_lt inBounds₁.p_lt]) (by simp) data.toUInt32
    refine .inr ⟨rfl,unseen₄,.intro (fun m₅ drains₅ inBounds₅ => ?_)⟩
    obtain ⟨unseen₅,staged₅⟩ := staged_store (staged_drains staged₄ drains₅ inBounds₅)
      (i := RBUF_IDX (m₁.p.toNat + 1)) (by simp) (by simp) (data >>> 32).toUInt32
    refine .inr ⟨rfl,unseen₅,.intro (fun m₆ drains₆ inBounds₆ => ?_)⟩
    exact .inl ⟨0,rfl,by simp,staged_publish (staged_drains staged₅ drains₆ inBounds₆) rfl⟩

/-- The reader has seen that the slots after `c` hold the words `oldest`. -/
structure Seen (c : UInt16) (oldest : List UInt32) (m : rbuffer) : Prop where
  inBounds : InBounds m
  at_c : m.c = c
  queued_first : oldest <+: contents m

theorem seen_take {m : rbuffer} (inBounds : InBounds m) {c : UInt16} (at_c : m.c = c) (n : Nat) :
    Seen c ((contents m).take n) m :=
  ⟨inBounds,at_c,List.take_prefix n _⟩

theorem seen_fills {c : UInt16} {oldest : List UInt32} {m m' : rbuffer} (seen : Seen c oldest m) (fills : Fills m m')
    (inBounds : InBounds m') : Seen c oldest m' :=
  ⟨inBounds,fills.same_c.trans seen.at_c,seen.queued_first.trans fills.extends_contents⟩

/-- Loading one of the words that were seen. -/
theorem seen_load {c : UInt16} {oldest : List UInt32} {m : rbuffer} (seen : Seen c oldest m) {i : UInt16} {k : Nat}
    (inside : k < oldest.length) (here : i.toNat = (c.toNat + 1 + k) % 256) :
    Looks (load_buffer i) m m ∧ oldest[k] = m.cell i.toNat := by
  have enough : oldest.length ≤ queued m := by simpa using seen.queued_first.length_le
  have place : i.toNat = slot RBUF_SIZE (m.c.toNat + 1) k := by rw [here,seen.at_c]; rfl
  refine ⟨⟨rfl,?_⟩,?_⟩
  · intro i' same
    cases same
    exact ⟨k,by omega,place⟩
  · rw [place,cell_contents (by rw [length_contents]; omega)]
    exact seen.queued_first.getElem inside

/-- Giving back the slots of the words that were seen. -/
theorem seen_release {α : Type} [OfNat α 0] (values : α → List UInt32) {data : α} {c : UInt16} {oldest : List UInt32}
    {m : rbuffer} {n : Nat} (seen : Seen c oldest m) (many : oldest.length = n) (taken : values data = oldest)
    (status : Option Int16) :
    Read values n status m (data,setStatus status 0) { m with c := RBUF_IDX (c.toNat + n) } := by
  obtain ⟨inBounds,rfl,rest,same⟩ := seen
  subst many
  have enough : oldest.length ≤ queued m := by rw [← length_contents,← same]; simp
  refine .taken (by rw [taken]) ⟨by simp only [RBUF_IDX_toNat]; omega,inBounds.p_lt⟩ rfl rfl ?_
  rw [contents_pop inBounds enough,taken,← same]
  simp

theorem rbuf_read_uint32_atomic (status : Option Int16) (m : rbuffer) :
    ReadAtomic (fun data => [data]) 1 status (rbuf_read_uint32 status) m := by
  simp only [rbuf_read_uint32,Prog.call_bind,Prog.pure_eq]
  refine .intro (fun m₁ _ inBounds₁ => .inr ⟨rfl,looks_load_c m₁,.intro ?_⟩)
  intro m₂ fills₂ inBounds₂
  simp only [memory] at fills₂ ⊢
  by_cases nothing : RBUF_IDX (m₁.c.toNat + 1) = m₂.p
  · have empty : queued m₂ = 0 := (next_c_eq_p_iff inBounds₂).mp (by rw [fills₂.same_c,nothing])
    exact .inl ⟨_,by simp [nothing],by simp,.short (by omega)⟩
  · have some_queued : queued m₂ ≠ 0 := by
      rwa [ne_eq,← next_c_eq_p_iff inBounds₂,fills₂.same_c]
    have seen₂ := seen_take inBounds₂ fills₂.same_c 1
    have one : ((contents m₂).take 1).length = 1 := by simp; omega
    generalize (contents m₂).take 1 = oldest at seen₂ one
    simp only [nothing,ne_eq,not_false_eq_true,↓reduceIte]
    refine .inr ⟨rfl,looks_load_p m₂,.intro (fun m₃ fills₃ inBounds₃ => ?_)⟩
    have seen₃ := seen_fills seen₂ fills₃ inBounds₃
    obtain ⟨looks₃,value₃⟩ := seen_load seen₃ (i := RBUF_IDX (m₁.c.toNat + 1)) (k := 0) (by omega) (by simp)
    refine .inr ⟨rfl,looks₃,.intro (fun m₄ fills₄ inBounds₄ => ?_)⟩
    obtain ⟨word,rfl⟩ := List.length_eq_one_iff.mp one
    have data_is : [m₃.cell (RBUF_IDX (m₁.c.toNat + 1)).toNat] = [word] := congrArg (fun w => [w]) value₃.symm
    exact .inl ⟨_,rfl,by simp,seen_release (fun w => [w]) (seen_fills seen₃ fills₄ inBounds₄) rfl data_is status⟩

theorem rbuf_read_uint64_atomic (status : Option Int16) (m : rbuffer) :
    ReadAtomic words 2 status (rbuf_read_uint64 status) m := by
  simp only [rbuf_read_uint64,Prog.call_bind,Prog.pure_eq]
  refine .intro (fun m₁ _ inBounds₁ => .inr ⟨rfl,looks_load_c m₁,.intro ?_⟩)
  intro m₂ fills₂ inBounds₂
  simp only [memory] at fills₂ ⊢
  by_cases nothing : RBUF_IDX (m₁.c.toNat + 1) = m₂.p
  · have empty : queued m₂ = 0 := (next_c_eq_p_iff inBounds₂).mp (by rw [fills₂.same_c,nothing])
    exact .inl ⟨_,by simp [nothing],by simp,.short (by omega)⟩
  have some_queued : queued m₂ ≠ 0 := by
    rwa [ne_eq,← next_c_eq_p_iff inBounds₂,fills₂.same_c]
  simp only [nothing,ne_eq,not_false_eq_true,↓reduceIte]
  refine .inr ⟨rfl,looks_load_p m₂,.intro ?_⟩
  intro m₃ fills₃ inBounds₃
  have c₃ : m₃.c = m₁.c := fills₃.same_c.trans fills₂.same_c
  -- The writer only adds words, so that the second load of `p` finds no fewer of them.
  have := fills_queued fills₃
  simp only [memory]
  by_cases single : RBUF_IDX ((RBUF_IDX (m₁.c.toNat + 1)).toNat + 1) = m₃.p
  · have one : queued m₃ = 1 := (second_c_eq_p_iff inBounds₃).mp (by rw [c₃,single])
    exact .inl ⟨_,by simp only [single,not_true_eq_false,↓reduceIte],by simp,.short (by omega)⟩
  · have more_queued : queued m₃ ≠ 1 := by
      rwa [ne_eq,← second_c_eq_p_iff inBounds₃,c₃]
    have seen₃ := seen_take inBounds₃ c₃ 2
    have two : ((contents m₃).take 2).length = 2 := by simp; omega
    generalize (contents m₃).take 2 = oldest at seen₃ two
    obtain ⟨lower,upper,rfl⟩ := List.length_eq_two.mp two
    simp only [single,not_false_eq_true,↓reduceIte]
    refine .inr ⟨rfl,looks_load_p m₃,.intro (fun m₄ fills₄ inBounds₄ => ?_)⟩
    have seen₄ := seen_fills seen₃ fills₄ inBounds₄
    obtain ⟨looks₄,lower_is⟩ := seen_load seen₄ (i := RBUF_IDX (m₁.c.toNat + 1)) (k := 0) (by simp) (by simp)
    refine .inr ⟨rfl,looks₄,.intro (fun m₅ fills₅ inBounds₅ => ?_)⟩
    have seen₅ := seen_fills seen₄ fills₅ inBounds₅
    obtain ⟨looks₅,upper_is⟩ := seen_load seen₅ (i := RBUF_IDX ((RBUF_IDX (m₁.c.toNat + 1)).toNat + 1)) (k := 1)
      (by simp) (by simp)
    refine .inr ⟨rfl,looks₅,.intro (fun m₆ fills₆ inBounds₆ => ?_)⟩
    have release := seen_release words (seen_fills seen₅ fills₆ inBounds₆) two (words_join lower upper) status
    have data_is : join (m₄.cell (RBUF_IDX (m₁.c.toNat + 1)).toNat)
        (m₅.cell (RBUF_IDX ((RBUF_IDX (m₁.c.toNat + 1)).toNat + 1)).toNat) = join lower upper := by
      rw [← lower_is,← upper_is]
      rfl
    have last_is : RBUF_IDX ((RBUF_IDX (m₁.c.toNat + 1)).toNat + 1) = RBUF_IDX (m₁.c.toNat + 2) := by
      rw [index_eq_iff]
      simp
    refine .inl ⟨_,rfl,by simp,?_⟩
    rw [← data_is,← last_is] at release
    exact release

end NeslPru.RbufferAtomic
