import NeslPru.RelyGuarantee

/-!
Seeing one system in another. A party of the larger system plays a part in the
smaller one, or none, and each of its turns is a turn of that part or changes
nothing that is seen (`View.Follows`). If every body follows its part, each run is
seen as a run (`View.shows_run`), so that what holds along every run of the smaller
system holds of what is seen. Where only an outline of the larger system says that
its accesses are made in the right states, they are first restricted to these
(`restrict_run`).
-/
namespace NeslPru.Projection
open NeslPru.Access NeslPru.RelyGuarantee

variable {A A₀ A₁ : Type} {R : A → Type} {R₀ : A₀ → Type} {R₁ : A₁ → Type}
variable {Party Party₀ Block Block₀ Input Input₀ Shared Shared₀ α : Type}

/-- One turn of a party that has `p₀` to do (and none if that is nothing), or no turn. -/
def Turn (S₀ : System A₀ R₀ Block₀ Input₀ Shared₀) (p₀ : Option (Prog A₀ R₀ Block₀)) (s₀ : Shared₀)
    (p₀' : Option (Prog A₀ R₀ Block₀)) (s₀' : Shared₀) : Prop :=
  (p₀' = p₀ ∧ s₀' = s₀) ∨
    ∃ a₀ next₀ input₀ r₀ t₀, p₀ = some (.access a₀ next₀) ∧ S₀.act a₀ input₀ s₀ = some (r₀,t₀) ∧
      p₀' = some (S₀.resume (next₀ r₀)) ∧ s₀' = S₀.settle (next₀ r₀) t₀

/-- The part of each party and what is seen of the shared state. `stands` says
    where a part may be when its party enters a block, and `marks` where it may be
    when its party is at an access. -/
structure View (Party Party₀ : Type) (S : System A R Block Input Shared)
    (S₀ : System A₀ R₀ Block₀ Input₀ Shared₀) where
  part : Party → Option Party₀
  part_inj : ∀ {i j i₀}, part i = some i₀ → part j = some i₀ → i = j
  sees : Shared → Shared₀ → Prop
  stands : Block → Option (Prog A₀ R₀ Block₀) → Prop
  marks : A → Option (Prog A₀ R₀ Block₀) → Prop

namespace View

variable {S : System A R Block Input Shared} {S₀ : System A₀ R₀ Block₀ Input₀ Shared₀}
variable (V : View Party Party₀ S S₀)

/-- Every turn of the code is a turn of its part or is not seen. -/
def Follows : Prog A R Block → Option (Prog A₀ R₀ Block₀) → Prop
  | .ret b, p₀ => V.stands b p₀
  | .access a next, p₀ => V.marks a p₀ ∧ ∀ input s s₀ r t, V.sees s s₀ → S.act a input s = some (r,t) →
      ∃ p₀' s₀', Turn S₀ p₀ s₀ p₀' s₀' ∧ V.sees (S.settle (next r) t) s₀' ∧ Follows (next r) p₀'

def Proved : Prop := ∀ b p₀, V.stands b p₀ → V.Follows (S.body b) p₀

/-- What a configuration of the larger system is seen as. -/
structure Shows (c : Config Party A R Block Shared) (c₀ : Config Party₀ A₀ R₀ Block₀ Shared₀) : Prop where
  shared : V.sees c.shared c₀.shared
  code : ∀ i, V.Follows (c.code i) ((V.part i).map c₀.code)
  more : ∀ i, (c.code i).isAccess = true

variable {V} {p₀ p₀' : Option (Prog A₀ R₀ Block₀)} {s₀ s₀' : Shared₀}

theorem resume_follows (proved : V.Proved) {p : Prog A R Block} (follows : V.Follows p p₀) :
    V.Follows (S.resume p) p₀ ∧ (S.resume p).isAccess = true := by
  cases p with
  | ret b => exact ⟨proved b p₀ follows,S.starts b⟩
  | access a next => exact ⟨follows,rfl⟩

theorem marked {a : A} {next : R a → Prog A R Block} (follows : V.Follows (.access a next) p₀) : V.marks a p₀ := follows.1

section
variable [DecidableEq Party₀]

/-- A turn of a part is a step of the smaller system that leaves the other parts alone. -/
theorem turn_step {c₀ : Config Party₀ A₀ R₀ Block₀ Shared₀} {i : Party}
    (turn : Turn S₀ ((V.part i).map c₀.code) c₀.shared p₀' s₀') :
    ∃ schedule₀, (S₀.run c₀ schedule₀).shared = s₀' ∧ (V.part i).map (S₀.run c₀ schedule₀).code = p₀' ∧
      ∀ j, j ≠ i → (V.part j).map (S₀.run c₀ schedule₀).code = (V.part j).map c₀.code := by
  rcases turn with ⟨rfl,rfl⟩ | ⟨a₀,next₀,input₀,r₀,t₀,here,acted,rfl,rfl⟩
  · exact ⟨[],rfl,rfl,fun _ _ => rfl⟩
  · cases plays : V.part i with
    | none => simp [plays] at here
    | some i₀ =>
      have code : c₀.code i₀ = .access a₀ next₀ := by simpa [plays] using here
      have stepped : S₀.step c₀ (i₀,input₀) =
          ⟨S₀.settle (next₀ r₀) t₀,Function.update c₀.code i₀ (S₀.resume (next₀ r₀))⟩ := by
        simp only [System.step,code,acted]
      refine ⟨[(i₀,input₀)],?_,?_,?_⟩
      · simp only [System.run,List.foldl_cons,List.foldl_nil,stepped]
      · simp [System.run,stepped]
      · intro j other
        cases plays' : V.part j with
        | none => rfl
        | some j₀ =>
          have apart : j₀ ≠ i₀ := by
            rintro rfl
            exact other (V.part_inj plays' plays)
          simp [System.run,stepped,Function.update_of_ne apart]

variable [DecidableEq Party]

/-- Each step is seen as a run of at most one step. -/
theorem shows_step (proved : V.Proved) {c : Config Party A R Block Shared} {c₀ : Config Party₀ A₀ R₀ Block₀ Shared₀}
    (shows : V.Shows c c₀) (move : Party × Input) : ∃ schedule₀, V.Shows (S.step c move) (S₀.run c₀ schedule₀) := by
  obtain ⟨i,input⟩ := move
  unfold System.step
  cases code : c.code i with
  | ret b => exact ⟨[],shows⟩
  | access a next =>
    dsimp only
    cases acted : S.act a input c.shared with
    | none => exact ⟨[],shows⟩
    | some answer =>
      obtain ⟨r,t⟩ := answer
      have follows : V.Follows (.access a next) ((V.part i).map c₀.code) := code ▸ shows.code i
      obtain ⟨p₀',s₀',turn,seen,follows'⟩ := follows.2 input c.shared c₀.shared r t shows.shared acted
      obtain ⟨schedule₀,shared,mine,others⟩ := turn_step turn
      obtain ⟨resumed,resumedMore⟩ := resume_follows proved follows'
      refine ⟨schedule₀,by rw [shared]; exact seen,fun j => ?_,fun j => ?_⟩
      · by_cases same : j = i
        · subst same
          rw [mine]
          simpa using resumed
        · rw [others j same]
          simpa [Function.update_of_ne same] using shows.code j
      · by_cases same : j = i
        · subst same
          simpa using resumedMore
        · simpa [Function.update_of_ne same] using shows.more j

/-- Each run is seen as a run. -/
theorem shows_run (proved : V.Proved) {c : Config Party A R Block Shared} {c₀ : Config Party₀ A₀ R₀ Block₀ Shared₀}
    (shows : V.Shows c c₀) (schedule : List (Party × Input)) :
    ∃ schedule₀, V.Shows (S.run c schedule) (S₀.run c₀ schedule₀) := by
  induction schedule generalizing c c₀ with
  | nil => exact ⟨[],shows⟩
  | cons move rest ih =>
    obtain ⟨first₀,shows'⟩ := shows_step proved shows move
    obtain ⟨rest₀,shows''⟩ := ih shows'
    refine ⟨first₀ ++ rest₀,?_⟩
    have joined : S₀.run c₀ (first₀ ++ rest₀) = S₀.run (S₀.run c₀ first₀) rest₀ := List.foldl_append
    rw [joined]
    exact shows''

end

theorem shows_start (proved : V.Proved) {s : Shared} {first : Party → Block} {first₀ : Party₀ → Block₀}
    (seen : V.sees s s₀) (stand : ∀ i, V.stands (first i) ((V.part i).map fun i₀ => S₀.body (first₀ i₀))) :
    V.Shows (S.start s first) (S₀.start s₀ first₀) :=
  ⟨seen,fun i => proved _ _ (stand i),fun _ => S.starts _⟩

/-! ### Programs -/

theorem Turn.none : Turn S₀ p₀ s₀ p₀ s₀ := .inl ⟨rfl,rfl⟩

theorem Turn.act {a₀ : A₀} {next₀ : R₀ a₀ → Prog A₀ R₀ Block₀} {input₀ : Input₀} {r₀ : R₀ a₀} {t₀ : Shared₀}
    (acted : S₀.act a₀ input₀ s₀ = some (r₀,t₀)) :
    Turn S₀ (some (.access a₀ next₀)) s₀ (some (S₀.resume (next₀ r₀))) (S₀.settle (next₀ r₀) t₀) :=
  .inr ⟨a₀,next₀,input₀,r₀,t₀,rfl,acted,rfl,rfl⟩

/-- What is left to do follows its part from a state on. -/
def Goes (p : Prog A R Block) (s : Shared) (p₀ : Option (Prog A₀ R₀ Block₀)) (s₀ : Shared₀) : Prop :=
  ∃ p₀' s₀', Turn S₀ p₀ s₀ p₀' s₀' ∧ V.sees (S.settle p s) s₀' ∧ V.Follows p p₀'

variable {inj : A₁ → A} {answer : ∀ a, R (inj a) → R₁ a} {f : α → Prog A R Block}

/-- A body of which nothing is seen. -/
theorem follows_only {Q : A → Prop} {B : Block → Prop} (marks : ∀ a, Q a → V.marks a p₀)
    (silent : ∀ {a input s s₀ r t}, Q a → V.sees s s₀ → S.act a input s = some (r,t) → V.sees t s₀)
    (ends : ∀ {b s s₀}, B b → V.sees s s₀ → V.sees (S.enter b s) s₀) (stands : ∀ b, B b → V.stands b p₀)
    {p : Prog A R Block} (only : p.Only Q B) : V.Follows p p₀ := by
  induction p with
  | ret b => exact stands b only
  | access a next ih =>
    obtain ⟨allowed,later⟩ := only
    refine ⟨marks a allowed,fun input s s₀ r t seen acted => ⟨p₀,s₀,Turn.none,?_,ih r (later r)⟩⟩
    have seen' := silent allowed seen acted
    have last := later r
    generalize next r = after at last
    cases after with
    | ret b => exact ends last seen'
    | access a' next' => exact seen'

/-- A call whose accesses are not seen; with the last of them the part may have a turn. -/
theorem follows_silent (marks : ∀ a, V.marks (inj a) p₀)
    (silent : ∀ a {input s s₀ r t}, V.sees s s₀ → S.act (inj a) input s = some (r,t) → V.sees t s₀)
    (ends : ∀ v s s₀, V.sees s s₀ → V.Goes (f v) s p₀ s₀)
    (p : Prog A₁ R₁ α) (more : p.isAccess = true) : V.Follows (p.embed inj answer >>= f) p₀ := by
  induction p with
  | ret v => simp [Prog.isAccess] at more
  | access a next ih =>
    refine ⟨marks a,fun input s s₀ r t seen acted => ?_⟩
    have seen' := silent a seen acted
    change V.Goes ((next (answer a r)).embed inj answer >>= f) t p₀ s₀
    have rest := ih (answer a r)
    generalize next (answer a r) = after at rest
    cases after with
    | ret v => exact ends v t s₀ seen'
    | access a' next' => exact ⟨p₀,s₀,Turn.none,seen',rest rfl⟩

variable {inj₀ : A₁ → A₀} {answer₀ : ∀ a, R₀ (inj₀ a) → R₁ a} {f₀ : α → Prog A₀ R₀ Block₀}

/-- A call that the part makes too, access by access. -/
theorem follows_embed (marks : ∀ a next₀, V.marks (inj a) (some (.access (inj₀ a) next₀)))
    (same : ∀ a {input s s₀ r t}, V.sees s s₀ → S.act (inj a) input s = some (r,t) →
      ∃ input₀ r₀ t₀, S₀.act (inj₀ a) input₀ s₀ = some (r₀,t₀) ∧ answer₀ a r₀ = answer a r ∧ V.sees t t₀)
    (ends : ∀ v s s₀, V.sees s s₀ → V.sees (S.settle (f v) s) (S₀.settle (f₀ v) s₀) ∧
      V.Follows (f v) (some (S₀.resume (f₀ v))))
    (p : Prog A₁ R₁ α) (more : p.isAccess = true) :
    V.Follows (p.embed inj answer >>= f) (some (p.embed inj₀ answer₀ >>= f₀)) := by
  induction p with
  | ret v => simp [Prog.isAccess] at more
  | access a next ih =>
    refine ⟨marks a _,fun input s s₀ r t seen acted => ?_⟩
    obtain ⟨input₀,r₀,t₀,acted₀,answers,seen'⟩ := same a seen acted
    refine ⟨_,_,Turn.act acted₀,?_⟩
    change V.sees (S.settle ((next (answer a r)).embed inj answer >>= f) t)
        (S₀.settle ((next (answer₀ a r₀)).embed inj₀ answer₀ >>= f₀) t₀) ∧
      V.Follows ((next (answer a r)).embed inj answer >>= f)
        (some (S₀.resume ((next (answer₀ a r₀)).embed inj₀ answer₀ >>= f₀)))
    rw [answers]
    have rest := ih (answer a r)
    generalize next (answer a r) = after at rest
    cases after with
    | ret v => exact ends v t t₀ seen'
    | access a' next' => exact ⟨seen',rest rfl⟩

end View

/-! ### Systems whose accesses are made in some states only -/

open Classical in
/-- The system in which an access cannot be made unless `knows` holds. -/
noncomputable def restrict (S : System A R Block Input Shared) (knows : A → Shared → Prop) :
    System A R Block Input Shared where
  act a input s := if knows a s then S.act a input s else none
  body := S.body
  enter := S.enter
  starts := S.starts

variable {S : System A R Block Input Shared} {knows : A → Shared → Prop}

theorem restrict_act {a : A} {input : Input} {s t : Shared} {r : R a}
    (acted : (restrict S knows).act a input s = some (r,t)) : knows a s ∧ S.act a input s = some (r,t) := by
  unfold restrict at acted
  by_cases known : knows a s
  · simp only [if_pos known] at acted
    exact ⟨known,acted⟩
  · simp [known] at acted

variable [DecidableEq Party] (O : Outline Party S)

theorem restrict_step (known : ∀ {i a s t}, O.guar i a s t → knows a s) {c : Config Party A R Block Shared}
    (holds : O.Holds c) (move : Party × Input) : (restrict S knows).step c move = S.step c move := by
  obtain ⟨i,input⟩ := move
  unfold System.step
  cases code : c.code i with
  | ret b => rfl
  | access a next =>
    cases acted : S.act a input c.shared with
    | none => simp [restrict,acted]
    | some answer =>
      obtain ⟨r,t⟩ := answer
      have sat : O.Sat i (.access a next) c.shared := code ▸ holds.sat i
      obtain ⟨_,kept,_⟩ := sat c.shared input r t (O.refl i _) holds.inv acted
      simp only [restrict,if_pos (known kept),acted]
      rfl

/-- In a proved outline that says so, every access is made where it may be. -/
theorem restrict_run (known : ∀ {i a s t}, O.guar i a s t → knows a s) (proved : O.Proved) {s : Shared}
    {first : Party → Block} (inv : O.inv s) (pre : ∀ i, O.pre i (first i) s) (schedule : List (Party × Input)) :
    (restrict S knows).run ((restrict S knows).start s first) schedule = S.run (S.start s first) schedule := by
  have holds : O.Holds (S.start s first) := ⟨inv,fun i => proved i _ s inv (pre i),fun _ => S.starts _⟩
  change (restrict S knows).run (S.start s first) schedule = _
  generalize S.start s first = c at holds
  induction schedule generalizing c with
  | nil => rfl
  | cons move rest ih =>
    have same := restrict_step O known holds move
    simp only [System.run,List.foldl_cons] at ih ⊢
    rw [same]
    exact ih _ (O.holds_step proved c move holds)

end NeslPru.Projection
