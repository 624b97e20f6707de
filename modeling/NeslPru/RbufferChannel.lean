import NeslPru.RbufferAtomic

/-!
A ring buffer as a channel of 64-bit values, or of 32-bit ones. What has been
sent and not yet been received is in it, and a read finds nothing only if
everything has been received.
-/
namespace NeslPru.RbufferChannel
open NeslPru.Access NeslPru.Rbuffer NeslPru.RbufferQueue NeslPru.RbufferAtomic
set_option linter.unusedSimpArgs false

/-- The values in the ring buffer are those sent after the received ones. -/
structure Carries (m : rbuffer) (sent received : List UInt64) : Prop where
  inBounds : InBounds m
  waiting : ∃ waiting, sent = received ++ waiting ∧ contents m = waiting.flatMap words

variable {m m' : rbuffer} {sent received : List UInt64} {data : UInt64}

theorem carries_fresh : Carries fresh [] [] := ⟨fresh_inBounds,[],rfl,contents_fresh⟩

theorem carries_isPrefix (carries : Carries m sent received) : received <+: sent := by
  obtain ⟨waiting,rfl,_⟩ := carries.waiting
  exact List.prefix_append _ _

theorem length_flatMap_words (values : List UInt64) : (values.flatMap words).length = 2 * values.length := by
  induction values with
  | nil => rfl
  | cons value rest ih =>
    simp only [List.flatMap_cons,List.length_append,ih,List.length_cons,words,List.length_nil]
    omega

theorem carries_queued (carries : Carries m sent received) : received.length + queued m / 2 = sent.length ∧ queued m % 2 = 0 := by
  obtain ⟨waiting,rfl,held⟩ := carries.waiting
  have twice : queued m = 2 * waiting.length := by rw [← length_contents,held,length_flatMap_words]
  rw [twice,List.length_append]
  omega

theorem words_injective {x y : UInt64} (same : words x = words y) : x = y := by
  simp only [words,List.cons.injEq,and_true] at same
  rw [← join_words x,← join_words y,same.1,same.2]

theorem carries_unseen {a : Rbuffer.Access} (carries : Carries m sent received) (unseen : Unseen a m m') :
    Carries m' sent received := by
  obtain ⟨waiting,all,held⟩ := carries.waiting
  exact ⟨unseen.inBounds,waiting,all,unseen.same_contents.trans held⟩

theorem unseen_fills {a : Rbuffer.Access} (unseen : Unseen a m m') : Fills m m' :=
  ⟨unseen.same_c,by rw [unseen.same_contents]⟩

/-- A write sends its value unless the ring buffer is full. -/
theorem carries_wrote {status : Int16} (carries : Carries m sent received) (wrote : Wrote (words data) m status m') :
    (status = 0 ∧ Carries m' (sent ++ [data]) received ∧ Fills m m') ∨ (status = -1 ∧ m' = m ∧ 254 ≤ queued m) := by
  obtain ⟨inBounds,waiting,rfl,held⟩ := carries
  cases wrote with
  | accepted room inBounds' same_c appended =>
    refine .inl ⟨rfl,⟨inBounds',waiting ++ [data],by simp,by simp [appended,held]⟩,same_c,?_⟩
    rw [appended]
    exact List.prefix_append _ _
  | full no_room =>
    simp only [words,List.length_cons,List.length_nil] at no_room
    exact .inr ⟨rfl,rfl,by omega⟩

/-- A read receives the next value, or everything that was sent has been received. -/
theorem carries_read {before : Int16} {result : UInt64 × Option Int16} (carries : Carries m sent received)
    (read : Read words 2 (some before) m result m') :
    (∃ data, result = (data,some 0) ∧ Carries m' sent (received ++ [data]) ∧ Drains m m') ∨
      (result = (0,some (-1)) ∧ m' = m ∧ sent = received) := by
  obtain ⟨inBounds,waiting,rfl,held⟩ := carries
  cases read with
  | @taken data _ _ inBounds' same_p same_buffer oldest =>
    have drains : Drains m m' := ⟨same_p,same_buffer,by rw [oldest]; exact List.suffix_append _ _⟩
    cases waiting with
    | nil =>
      rw [oldest] at held
      simp [words] at held
    | cons value rest =>
      rw [oldest,List.flatMap_cons] at held
      obtain ⟨same,held'⟩ := List.append_inj held rfl
      obtain rfl := words_injective same
      exact .inl ⟨data,rfl,⟨inBounds',rest,by simp,held'⟩,drains⟩
  | short few =>
    have none_waits : waiting.length = 0 := by
      rw [← length_contents,held,length_flatMap_words] at few
      omega
    exact .inr ⟨rfl,rfl,by rw [List.length_eq_zero_iff.mp none_waits,List.append_nil]⟩

/-! ### Single words -/

/-- The words in the ring buffer are those sent after the received ones. -/
structure CarriesWords (m : rbuffer) (sent received : List UInt32) : Prop where
  inBounds : InBounds m
  waiting : sent = received ++ contents m

variable {sent received : List UInt32} {data : UInt32}

theorem carriesWords_fresh : CarriesWords fresh [] [] := ⟨fresh_inBounds,by rw [contents_fresh]; rfl⟩

theorem carriesWords_unseen {a : Rbuffer.Access} (carries : CarriesWords m sent received) (unseen : Unseen a m m') :
    CarriesWords m' sent received :=
  ⟨unseen.inBounds,by rw [unseen.same_contents]; exact carries.waiting⟩

/-- A write sends its word unless the ring buffer is full. -/
theorem carriesWords_wrote {status : Int16} (carries : CarriesWords m sent received) (wrote : Wrote [data] m status m') :
    (status = 0 ∧ CarriesWords m' (sent ++ [data]) received ∧ Fills m m' ∧ queued m' = queued m + 1) ∨
      (status = -1 ∧ m' = m) := by
  obtain ⟨inBounds,rfl⟩ := carries
  cases wrote with
  | accepted room inBounds' same_c appended =>
    refine .inl ⟨rfl,⟨inBounds',by rw [appended,List.append_assoc]⟩,⟨same_c,by rw [appended]; exact List.prefix_append _ _⟩,?_⟩
    rw [← length_contents,appended,List.length_append,length_contents,List.length_singleton]
  | full no_room => exact .inr ⟨rfl,rfl⟩

/-- A read receives the next word, or there is none. -/
theorem carriesWords_read {before : Int16} {result : UInt32 × Option Int16} (carries : CarriesWords m sent received)
    (read : Read (fun data => [data]) 1 (some before) m result m') :
    (∃ data, result = (data,some 0) ∧ CarriesWords m' sent (received ++ [data]) ∧ Drains m m' ∧
        queued m = queued m' + 1) ∨
      (result = (0,some (-1)) ∧ m' = m ∧ queued m = 0) := by
  obtain ⟨inBounds,rfl⟩ := carries
  cases read with
  | @taken data _ _ inBounds' same_p same_buffer oldest =>
    have drains : Drains m m' := ⟨same_p,same_buffer,by rw [oldest]; exact List.suffix_append _ _⟩
    refine .inl ⟨data,rfl,⟨inBounds',by rw [oldest,List.append_assoc]⟩,drains,?_⟩
    rw [← length_contents,oldest,List.length_append,length_contents,List.length_singleton,Nat.add_comm]
  | short few => exact .inr ⟨rfl,rfl,Nat.lt_one_iff.mp few⟩

end NeslPru.RbufferChannel
