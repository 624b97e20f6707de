import Mathlib.Logic.Function.Basic
import Mathlib.Data.List.Infix

/-!
Programs that reach shared state through atomic accesses, and their runs. A
program is the tree of its accesses: what it asks next, and how it goes on for
each answer. Run alone it is a state transformer (`exec`); run beside other
parties it takes one access a step, and any schedule of the parties is allowed
(`System.run`).
-/
namespace NeslPru.Access

/-- Programs over the accesses `A`, where access `a` is answered by an `R a`. -/
inductive Prog (A : Type) (R : A → Type) (α : Type) : Type
  | ret (value : α)
  | access (a : A) (next : R a → Prog A R α)

variable {A A' A'' : Type} {R : A → Type} {R' : A' → Type} {R'' : A'' → Type} {α β γ : Type}

namespace Prog

/-- A program followed by another that takes its value. -/
def bind : Prog A R α → (α → Prog A R β) → Prog A R β
  | .ret value, f => f value
  | .access a next, f => .access a (fun r => (next r).bind f)

instance : Monad (Prog A R) where
  pure := .ret
  bind := .bind

/-- The program of one access. -/
def call (a : A) : Prog A R (R a) := .access a .ret

/-- Whether a program has an access to make. -/
def isAccess : Prog A R α → Bool
  | .ret _ => false
  | .access _ _ => true

/-- The same program over the accesses of a larger interface. -/
def embed (inj : A → A') (answer : ∀ a, R' (inj a) → R a) : Prog A R α → Prog A' R' α
  | .ret value => .ret value
  | .access a next => .access (inj a) (fun r => (next (answer a r)).embed inj answer)

/-- A run without interference, on a device that answers every access. -/
def exec {σ : Type} (device : (a : A) → σ → R a × σ) : Prog A R α → σ → α × σ
  | .ret value, s => (value,s)
  | .access a next, s => (next (device a s).1).exec device (device a s).2

@[simp] theorem pure_eq (value : α) : (pure value : Prog A R α) = .ret value := rfl
@[simp] theorem access_bind (a : A) (next : R a → Prog A R α) (f : α → Prog A R β) :
    (.access a next : Prog A R α) >>= f = .access a (fun r => next r >>= f) := rfl
@[simp] theorem call_bind (a : A) (f : R a → Prog A R β) : (call a : Prog A R (R a)) >>= f = .access a f := rfl

theorem bind_assoc (p : Prog A R α) (f : α → Prog A R β) (g : β → Prog A R γ) :
    p >>= f >>= g = p >>= fun v => f v >>= g := by
  induction p with
  | ret value => rfl
  | access a next ih =>
    simp only [access_bind]
    congr 1
    funext r
    exact ih r

theorem bind_ret (p : Prog A R α) : (p >>= fun v => .ret v) = p := by
  induction p with
  | ret value => rfl
  | access a next ih =>
    simp only [access_bind]
    congr 1
    funext r
    exact ih r

@[simp] theorem isAccess_bind {p : Prog A R α} (f : α → Prog A R β) (more : p.isAccess = true) :
    (p >>= f).isAccess = true := by
  cases p with
  | ret value => simp [isAccess] at more
  | access a next => rfl

@[simp] theorem isAccess_embed (inj : A → A') (answer : ∀ a, R' (inj a) → R a) (p : Prog A R α) :
    (p.embed inj answer).isAccess = p.isAccess := by
  cases p <;> rfl

theorem embed_bind (inj : A → A') (answer : ∀ a, R' (inj a) → R a) (p : Prog A R α) (f : α → Prog A R β) :
    (p >>= f).embed inj answer = p.embed inj answer >>= fun v => (f v).embed inj answer := by
  induction p with
  | ret value => rfl
  | access a next ih =>
    simp only [access_bind,embed]
    congr 1
    funext r
    exact ih (answer a r)

theorem embed_embed (inj : A → A') (answer : ∀ a, R' (inj a) → R a) (inj' : A' → A'') (answer' : ∀ a, R'' (inj' a) → R' a)
    (p : Prog A R α) :
    (p.embed inj answer).embed inj' answer' = p.embed (fun a => inj' (inj a)) (fun a r => answer a (answer' (inj a) r)) := by
  induction p with
  | ret value => rfl
  | access a next ih =>
    simp only [embed]
    congr 1
    funext r
    exact ih (answer a (answer' (inj a) r))

/-- Whatever the answers are, the program makes only accesses of `Q` and returns
    only values of `P`. -/
def Only (Q : A → Prop) (P : α → Prop) : Prog A R α → Prop
  | .ret value => P value
  | .access a next => Q a ∧ ∀ r, Only Q P (next r)

variable {Q : A → Prop} {P : α → Prop}

theorem only_bind {P' : β → Prop} {p : Prog A R α} {f : α → Prog A R β} (first : p.Only Q P)
    (second : ∀ value, P value → (f value).Only Q P') : (p >>= f).Only Q P' := by
  induction p with
  | ret value => exact second value first
  | access a next ih =>
    obtain ⟨here,later⟩ := first
    exact ⟨here,fun r => ih r (later r)⟩

theorem only_embed {Q : A' → Prop} {inj : A → A'} {answer : ∀ a, R' (inj a) → R a} {p : Prog A R α}
    (only : p.Only (fun a => Q (inj a)) P) : (p.embed inj answer).Only Q P := by
  induction p with
  | ret value => exact only
  | access a next ih =>
    obtain ⟨here,later⟩ := only
    exact ⟨here,fun r => ih (answer a r) (later (answer a r))⟩

/-- Where every access is allowed, a program of unknown values is. -/
theorem only_any (all : ∀ a, Q a) (p : Prog A R α) : p.Only Q fun _ => True := by
  induction p with
  | ret value => trivial
  | access a next ih => exact ⟨all a,ih⟩

end Prog

/-- Parties over one shared state. A party runs the body of a block, enters the
    block that the body returns, and so on. An access may depend on an input
    from outside, and `none` means that it cannot be made now. The entry of a
    block happens together with the access before it. -/
structure System (A : Type) (R : A → Type) (Block Input Shared : Type) where
  act : (a : A) → Input → Shared → Option (R a × Shared)
  body : Block → Prog A R Block
  enter : Block → Shared → Shared
  starts : ∀ b, (body b).isAccess = true

/-- The shared state and what each party still has to do in its block. -/
structure Config (Party A : Type) (R : A → Type) (Block Shared : Type) where
  shared : Shared
  code : Party → Prog A R Block

namespace System

variable {Party Block Input Shared : Type} [DecidableEq Party] (S : System A R Block Input Shared)

/-- The state after an access whose answer leaves `p` to do. -/
def settle : Prog A R Block → Shared → Shared
  | .ret b, s => S.enter b s
  | .access _ _, s => s

/-- What is left to do once a finished body has been replaced by the next one. -/
def resume : Prog A R Block → Prog A R Block
  | .ret b => S.body b
  | .access a next => .access a next

/-- One turn of a party; a party that cannot move leaves everything as it is. -/
def step (c : Config Party A R Block Shared) (move : Party × Input) : Config Party A R Block Shared :=
  match c.code move.1 with
  | .ret _ => c
  | .access a next =>
    match S.act a move.2 c.shared with
    | none => c
    | some (r,s) => ⟨S.settle (next r) s,Function.update c.code move.1 (S.resume (next r))⟩

/-- The configuration after a schedule of turns. -/
def run (c : Config Party A R Block Shared) (schedule : List (Party × Input)) : Config Party A R Block Shared :=
  schedule.foldl S.step c

/-- Each party at the start of a block. -/
def start (s : Shared) (first : Party → Block) : Config Party A R Block Shared :=
  ⟨s,fun i => S.body (first i)⟩

theorem settle_of_isAccess {p : Prog A R Block} (more : p.isAccess = true) (s : Shared) : S.settle p s = s := by
  cases p with
  | ret b => simp [Prog.isAccess] at more
  | access a next => rfl

/-- What holds at the start and after every turn holds after every schedule. -/
theorem run_induction {I : Config Party A R Block Shared → Prop} {c : Config Party A R Block Shared} (initial : I c)
    (turn : ∀ c move, I c → I (S.step c move)) (schedule : List (Party × Input)) : I (S.run c schedule) := by
  induction schedule generalizing c with
  | nil => exact initial
  | cons move rest ih => exact ih (turn c move initial)

/-- The same system for inputs that are all of `Q`. -/
def limited (Q : Input → Prop) : System A R Block {input // Q input} Shared where
  act a input := S.act a input
  body := S.body
  enter := S.enter
  starts := S.starts

variable {Q : Input → Prop}

theorem limited_run (c : Config Party A R Block Shared) (schedule : List (Party × {input // Q input})) :
    (S.limited Q).run c schedule = S.run c (schedule.map fun move => (move.1,move.2.val)) := by
  induction schedule generalizing c with
  | nil => rfl
  | cons move rest ih => exact ih _

theorem limited_all {P : Type} (schedule : List (P × {input // Q input})) :
    ∀ move ∈ schedule.map (fun move => (move.1,move.2.val)), Q move.2 := by
  intro move member
  obtain ⟨limited,_,rfl⟩ := List.mem_map.mp member
  exact limited.2.property

/-- A run whose inputs are all of `Q` is one of the system that is limited to them. -/
theorem exists_limited (c : Config Party A R Block Shared) {schedule : List (Party × Input)}
    (all : ∀ move ∈ schedule, Q move.2) :
    ∃ limited : List (Party × {input // Q input}), (S.limited Q).run c limited = S.run c schedule := by
  refine ⟨schedule.attach.map fun move => (move.val.1,⟨move.val.2,all move.val move.property⟩),?_⟩
  rw [limited_run,List.map_map]
  congr 1
  exact List.attach_map_subtype_val schedule

end System

end NeslPru.Access
