import Mathlib.Data.List.Infix
import Mathlib.Logic.Function.Basic

/-!
A value that is kept in parts, where one party stores the parts of a value one by
one and others load them one by one. What is loaded may mix parts of the values
of its window (`Loaded`); it is one of these values if they differ in at most one
part (`one_value`).
-/
namespace NeslPru.Parts

variable {ι β γ : Type} {part : ι → β → γ} {vs vs' : List β} {v : β} {done : Nat} {cell : ι → γ}

/-- The cell while the values `vs` are stored in it, of which the first is there
    at the start: each part is that of value `done` or of a later one, and at
    most one value has been begun after it. -/
structure Keeps (part : ι → β → γ) (vs : List β) (done : Nat) (cell : ι → γ) : Prop where
  begun : vs.length ≤ done + 2
  stored : ∀ i, ∃ k v, done ≤ k ∧ vs[k]? = some v ∧ cell i = part i v

theorem keeps_init (all : ∀ i, cell i = part i v) : Keeps part [v] 0 cell := by
  constructor
  · simp
  · intro i
    exact ⟨0,v,Nat.le_refl _,rfl,all i⟩

/-- The next value is begun once the last one is there. -/
theorem keeps_begin (keeps : Keeps part vs done cell) (all_there : vs.length = done + 1) (v : β) :
    Keeps part (vs ++ [v]) done cell := by
  constructor
  · simp
    omega
  · intro i
    obtain ⟨k,v',after,here,same⟩ := keeps.stored i
    have inside : k < vs.length := (List.getElem?_eq_some_iff.mp here).1
    exact ⟨k,v',after,by rwa [List.getElem?_append_left inside],same⟩

section
variable [DecidableEq ι]

/-- A part of the value that has been begun. -/
theorem keeps_store (keeps : Keeps part vs done cell) (at_work : vs.length = done + 2) (last : vs.getLast? = some v)
    (i : ι) : Keeps part vs done (Function.update cell i (part i v)) := by
  refine ⟨keeps.begun,fun j => ?_⟩
  by_cases same : j = i
  · subst same
    rw [List.getLast?_eq_getElem?,at_work] at last
    exact ⟨done + 1,v,Nat.le_succ _,last,Function.update_self ..⟩
  · rw [Function.update_of_ne same]
    exact keeps.stored j

end

/-- All parts of the value are there. -/
theorem keeps_end (at_work : vs.length = done + 2) (last : vs.getLast? = some v) (all : ∀ i, cell i = part i v) :
    Keeps part vs (done + 1) cell := by
  rw [List.getLast?_eq_getElem?,at_work] at last
  exact ⟨by omega,fun i => ⟨done + 1,v,Nat.le_refl _,last,all i⟩⟩

/-- `x` is this part of a value of the window from `first` on and before `last`. -/
def Loaded (part : ι → β → γ) (vs : List β) (first last : Nat) (i : ι) (x : γ) : Prop :=
  ∃ k v, first ≤ k ∧ k < last ∧ vs[k]? = some v ∧ x = part i v

variable {first last last' : Nat} {i : ι} {x : γ}

theorem loaded_cell (keeps : Keeps part vs done cell) (before : first ≤ done) (i : ι) :
    Loaded part vs first vs.length i (cell i) := by
  obtain ⟨k,v,after,here,same⟩ := keeps.stored i
  exact ⟨k,v,before.trans after,(List.getElem?_eq_some_iff.mp here).1,here,same⟩

/-- Later values only make the window longer. -/
theorem loaded_later (loaded : Loaded part vs first last i x) (later : vs <+: vs') (longer : last ≤ last') :
    Loaded part vs' first last' i x := by
  obtain ⟨k,v,after,before,here,same⟩ := loaded
  obtain ⟨more,rfl⟩ := later
  have inside : k < vs.length := (List.getElem?_eq_some_iff.mp here).1
  exact ⟨k,v,after,by omega,by rwa [List.getElem?_append_left inside],same⟩

/-- The values of the window have this part in common. -/
def Agree (part : ι → β → γ) (vs : List β) (first last : Nat) (i : ι) : Prop :=
  ∀ j k v v', first ≤ j → j < last → first ≤ k → k < last → vs[j]? = some v → vs[k]? = some v' → part i v = part i v'

/-- What is loaded part by part is a value of the window if its values differ
    in part `i₀` at most. -/
theorem one_value {xs : ι → γ} (i₀ : ι) (loaded : ∀ i, Loaded part vs first last i (xs i))
    (agree : ∀ i, i ≠ i₀ → Agree part vs first last i) :
    ∃ k v, first ≤ k ∧ k < last ∧ vs[k]? = some v ∧ ∀ i, xs i = part i v := by
  obtain ⟨k,v,after,before,here,same⟩ := loaded i₀
  refine ⟨k,v,after,before,here,fun i => ?_⟩
  by_cases there : i = i₀
  · subst there
    exact same
  · obtain ⟨j,v',after',before',here',same'⟩ := loaded i
    rw [same']
    exact agree i there j k v' v after' before' after before here' here

end NeslPru.Parts
