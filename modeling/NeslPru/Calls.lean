import Mathlib.Data.List.Basic

/-!
Machines that answer one call after another, and queues of bounded length. Two
machines related by a simulation answer every sequence of calls alike.
-/
namespace NeslPru.Calls

/-- A state that answers a call and moves on. -/
structure Machine (Call Reply State : Type) where
  answer : State → Call → Reply × State

namespace Machine

variable {Call Reply State State' : Type} (M : Machine Call Reply State) (N : Machine Call Reply State')

/-- The state after a sequence of calls. -/
def after (s : State) (calls : List Call) : State := calls.foldl (fun s call => (M.answer s call).2) s

/-- The replies to a sequence of calls, in order. -/
def replies : State → List Call → List Reply
  | _, [] => []
  | s, call :: rest => (M.answer s call).1 :: replies (M.answer s call).2 rest

@[simp] theorem after_nil (s : State) : M.after s [] = s := rfl
@[simp] theorem after_cons (s : State) (call : Call) (rest : List Call) :
    M.after s (call :: rest) = M.after (M.answer s call).2 rest := rfl
@[simp] theorem replies_cons (s : State) (call : Call) (rest : List Call) :
    M.replies s (call :: rest) = (M.answer s call).1 :: M.replies (M.answer s call).2 rest := rfl

theorem after_append (s : State) (first second : List Call) :
    M.after s (first ++ second) = M.after (M.after s first) second := by
  rw [after,List.foldl_append]
  rfl

theorem replies_append (s : State) (first second : List Call) :
    M.replies s (first ++ second) = M.replies s first ++ M.replies (M.after s first) second := by
  induction first generalizing s with
  | nil => rfl
  | cons call rest ih => simp only [List.cons_append,replies_cons,after_cons,ih]

/-- The second machine answers as the first one from related states on, and
    they stay related. -/
def Simulates (related : State → State' → Prop) : Prop :=
  ∀ s t call, related s t →
    (M.answer s call).1 = (N.answer t call).1 ∧ related (M.answer s call).2 (N.answer t call).2

variable {M N} {related : State → State' → Prop}

theorem Simulates.replies_eq (sim : M.Simulates N related) {s : State} {t : State'} (here : related s t)
    (calls : List Call) : M.replies s calls = N.replies t calls := by
  induction calls generalizing s t with
  | nil => rfl
  | cons call rest ih =>
    obtain ⟨same,later⟩ := sim s t call here
    simp only [replies_cons,same,ih later]

theorem Simulates.after_related (sim : M.Simulates N related) {s : State} {t : State'} (here : related s t)
    (calls : List Call) : related (M.after s calls) (N.after t calls) := by
  induction calls generalizing s t with
  | nil => exact here
  | cons call rest ih => exact ih (sim s t call here).2

/-- Two machines side by side. -/
def beside {Call' Reply' : Type} (M : Machine Call Reply State) (N : Machine Call' Reply' State') :
    Machine (Call ⊕ Call') (Reply ⊕ Reply') (State × State') where
  answer
    | q, .inl call => (.inl (M.answer q.1 call).1,((M.answer q.1 call).2,q.2))
    | q, .inr call => (.inr (N.answer q.2 call).1,(q.1,(N.answer q.2 call).2))

/-- A machine together with something that it leaves alone. -/
def keeping (Rest : Type) (M : Machine Call Reply State) : Machine Call Reply (State × Rest) where
  answer q call := ((M.answer q.1 call).1,((M.answer q.1 call).2,q.2))

section
variable {Call' Reply' Rest : Type} (M : Machine Call Reply State) (N : Machine Call' Reply' State')

/-- The first of two machines is not disturbed by the calls of the second one. -/
theorem beside_left (q : State × State') (calls : List (Call ⊕ Call')) :
    ((M.beside N).replies q calls).filterMap Sum.getLeft? = M.replies q.1 (calls.filterMap Sum.getLeft?) ∧
      ((M.beside N).after q calls).1 = M.after q.1 (calls.filterMap Sum.getLeft?) := by
  induction calls generalizing q with
  | nil => exact ⟨rfl,rfl⟩
  | cons call rest ih =>
    cases call with
    | inl call =>
      obtain ⟨replies,after⟩ := ih ((M.answer q.1 call).2,q.2)
      exact ⟨congrArg (_ :: ·) replies,after⟩
    | inr call => exact ih (q.1,(N.answer q.2 call).2)

theorem beside_right (q : State × State') (calls : List (Call ⊕ Call')) :
    ((M.beside N).replies q calls).filterMap Sum.getRight? = N.replies q.2 (calls.filterMap Sum.getRight?) ∧
      ((M.beside N).after q calls).2 = N.after q.2 (calls.filterMap Sum.getRight?) := by
  induction calls generalizing q with
  | nil => exact ⟨rfl,rfl⟩
  | cons call rest ih =>
    cases call with
    | inl call => exact ih ((M.answer q.1 call).2,q.2)
    | inr call =>
      obtain ⟨replies,after⟩ := ih (q.1,(N.answer q.2 call).2)
      exact ⟨congrArg (_ :: ·) replies,after⟩

theorem keeping_replies (q : State × Rest) (calls : List Call) :
    (M.keeping Rest).replies q calls = M.replies q.1 calls ∧
      (M.keeping Rest).after q calls = (M.after q.1 calls,q.2) := by
  induction calls generalizing q with
  | nil => exact ⟨rfl,rfl⟩
  | cons call rest ih =>
    obtain ⟨replies,after⟩ := ih ((M.answer q.1 call).2,q.2)
    exact ⟨congrArg (_ :: ·) replies,after⟩

end

end Machine

/-- A first-in first-out queue of at most `capacity` values. -/
structure Fifo (α : Type) (capacity : Nat) where
  items : List α
  bounded : items.length ≤ capacity

namespace Fifo

variable {α : Type} {capacity : Nat}

@[ext] theorem ext {q r : Fifo α capacity} (same : q.items = r.items) : q = r := by
  cases q; cases r; cases same; rfl

def empty : Fifo α capacity := ⟨[],Nat.zero_le _⟩

/-- All the values at the end, or none when they do not all fit. -/
def push (q : Fifo α capacity) (values : List α) : Option (Fifo α capacity) :=
  if fits : q.items.length + values.length ≤ capacity then
    some ⟨q.items ++ values,by simpa using fits⟩
  else none

/-- The `n` oldest values, or none when there are fewer. -/
def pop (q : Fifo α capacity) (n : Nat) : Option (List α × Fifo α capacity) :=
  if n ≤ q.items.length then
    some (q.items.take n,⟨q.items.drop n,by have := q.bounded; simp; omega⟩)
  else none

end Fifo

end NeslPru.Calls
