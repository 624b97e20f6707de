import NeslPru.Access

/-!
Rely-guarantee reasoning about the parties of a system. An `Outline` says what
each party may assume of the others (`rely`), what each of its accesses keeps
(`guar`), and what holds when it enters a block (`pre`). If every body keeps its
outline, the outline holds along every schedule (`Outline.sound`). A program
whose last access does all its work (`Atomic`) is used at a call as one step
(`Outline.sat_call`).
-/
namespace NeslPru.RelyGuarantee
open NeslPru.Access

variable {A A₀ : Type} {R : A → Type} {R₀ : A₀ → Type} {Party Block Input Shared σ α : Type}

/-- An invariant of the shared state, and for each party what it assumes, what
    it keeps and what it knows at the start of a block. -/
structure Outline (Party : Type) (S : System A R Block Input Shared) where
  inv : Shared → Prop
  rely : Party → Shared → Shared → Prop
  guar : Party → A → Shared → Shared → Prop
  pre : Party → Block → Shared → Prop
  refl : ∀ i s, rely i s s
  trans : ∀ i {s t u}, rely i s t → rely i t u → rely i s u
  compat : ∀ {i j a s t}, i ≠ j → guar i a s t → rely j s t

namespace Outline

variable {S : System A R Block Input Shared} (O : Outline Party S)

/-- The code of a party keeps the outline from a state on, whatever the others
    do between its accesses. -/
def Sat (i : Party) : Prog A R Block → Shared → Prop
  | .ret b, s => O.pre i b (S.enter b s)
  | .access a next, s => ∀ s' input r t, O.rely i s s' → O.inv s' → S.act a input s' = some (r,t) →
      O.inv (S.settle (next r) t) ∧ O.guar i a s' (S.settle (next r) t) ∧ Sat i (next r) t

/-- Every body keeps the outline from its precondition on. -/
def Proved : Prop := ∀ i b s, O.inv s → O.pre i b s → O.Sat i (S.body b) s

theorem sat_stable {i : Party} {p : Prog A R Block} {s s' : Shared} (more : p.isAccess = true)
    (kept : O.rely i s s') (sat : O.Sat i p s) : O.Sat i p s' := by
  cases p with
  | ret b => simp [Prog.isAccess] at more
  | access a next => intro t input r u later; exact sat t input r u (O.trans i kept later)

/-- The outline at a configuration. -/
structure Holds (c : Config Party A R Block Shared) : Prop where
  inv : O.inv c.shared
  sat : ∀ i, O.Sat i (c.code i) c.shared
  more : ∀ i, (c.code i).isAccess = true

theorem resume_sat (proved : O.Proved) {i : Party} {p : Prog A R Block} {s : Shared}
    (inv : O.inv (S.settle p s)) (sat : O.Sat i p s) :
    O.Sat i (S.resume p) (S.settle p s) ∧ (S.resume p).isAccess = true := by
  cases p with
  | ret b => exact ⟨proved i b _ inv sat,S.starts b⟩
  | access a next => exact ⟨sat,rfl⟩

variable [DecidableEq Party]

/-- One turn keeps the outline. -/
theorem holds_step (proved : O.Proved) (c : Config Party A R Block Shared) (move : Party × Input)
    (holds : O.Holds c) : O.Holds (S.step c move) := by
  obtain ⟨i,input⟩ := move
  unfold System.step
  cases code : c.code i with
  | ret b => exact holds
  | access a next =>
    dsimp only
    cases acted : S.act a input c.shared with
    | none => exact holds
    | some answer =>
      obtain ⟨r,t⟩ := answer
      have sat : O.Sat i (.access a next) c.shared := code ▸ holds.sat i
      obtain ⟨inv,kept,rest⟩ := sat c.shared input r t (O.refl i _) holds.inv acted
      obtain ⟨resumed,resumedMore⟩ := O.resume_sat proved inv rest
      refine ⟨inv,fun j => ?_,fun j => ?_⟩
      · by_cases same : j = i
        · subst same; simpa using resumed
        · have stable := O.sat_stable (holds.more j) (O.compat (Ne.symm same) kept) (holds.sat j)
          simpa [Function.update_of_ne same] using stable
      · by_cases same : j = i
        · subst same; simpa using resumedMore
        · simpa [Function.update_of_ne same] using holds.more j

/-- A proved outline that holds at the start holds after every schedule. -/
theorem sound (proved : O.Proved) {s : Shared} {first : Party → Block} (inv : O.inv s)
    (pre : ∀ i, O.pre i (first i) s) (schedule : List (Party × Input)) :
    O.Holds (S.run (S.start s first) schedule) :=
  S.run_induction ⟨inv,fun i => proved i _ s inv (pre i),fun _ => S.starts _⟩ (O.holds_step proved) schedule

end Outline

/-- The program does all its work in its last access. Whatever the others do
    between its accesses (`rely`), those before the last are `silent`; with the
    last one it returns `v` and takes the state as `commit v` says. -/
def Atomic (device : (a : A₀) → σ → R₀ a × σ) (inv : σ → Prop) (rely : σ → σ → Prop) (silent : A₀ → σ → σ → Prop)
    (commit : α → A₀ → σ → σ → Prop) : Prog A₀ R₀ α → σ → Prop
  | .ret _, _ => False
  | .access a next, m => ∀ m', rely m m' → inv m' →
      (∀ v, next (device a m').1 = .ret v → commit v a m' (device a m').2) ∧
      ((next (device a m').1).isAccess = true →
        silent a m' (device a m').2 ∧
          Atomic device inv rely silent commit (next (device a m').1) (device a m').2)

/-- Each answer either ends the program with its commitment or is silent and
    leaves an atomic program to do. -/
theorem Atomic.intro {device : (a : A₀) → σ → R₀ a × σ} {inv : σ → Prop} {rely : σ → σ → Prop}
    {silent : A₀ → σ → σ → Prop} {commit : α → A₀ → σ → σ → Prop} {a : A₀} {next : R₀ a → Prog A₀ R₀ α} {m : σ}
    (answers : ∀ m', rely m m' → inv m' →
      (∃ v, next (device a m').1 = .ret v ∧ commit v a m' (device a m').2) ∨
      ((next (device a m').1).isAccess = true ∧ silent a m' (device a m').2 ∧
        Atomic device inv rely silent commit (next (device a m').1) (device a m').2)) :
    Atomic device inv rely silent commit (.access a next) m := by
  intro m' relied valid
  rcases answers m' relied valid with ⟨v,done,committed⟩ | ⟨more,rest⟩
  · constructor
    · intro v' done'
      rw [done] at done'
      cases done'
      exact committed
    · intro more
      simp [done,Prog.isAccess] at more
  · refine ⟨?_,fun _ => rest⟩
    intro v done
    simp [done,Prog.isAccess] at more

/-- Run alone, an atomic program goes through silent accesses to its commitment. -/
theorem Atomic.exec {device : (a : A₀) → σ → R₀ a × σ} {inv : σ → Prop} {rely : σ → σ → Prop}
    {silent : A₀ → σ → σ → Prop} {commit : α → A₀ → σ → σ → Prop} (kept : σ → σ → Prop) (alone : ∀ m, rely m m)
    (refl : ∀ m, kept m m) (trans : ∀ {m n o}, kept m n → kept n o → kept m o)
    (silent_kept : ∀ {a m m'}, inv m → silent a m m' → inv m' ∧ kept m m') (p : Prog A₀ R₀ α) {m : σ} (valid : inv m)
    (atomic : Atomic device inv rely silent commit p m) :
    ∃ a m₁, kept m m₁ ∧ inv m₁ ∧ commit (p.exec device m).1 a m₁ (p.exec device m).2 := by
  induction p generalizing m with
  | ret v => exact atomic.elim
  | access a next ih =>
    obtain ⟨last,more⟩ := atomic m (alone m) valid
    have rest := @ih (device a m).1 (device a m).2
    simp only [Prog.exec]
    generalize next (device a m).1 = after at last more rest
    cases after with
    | ret v => exact ⟨a,m,refl m,valid,last v rfl⟩
    | access a' next' =>
      obtain ⟨silence,atomic'⟩ := more rfl
      obtain ⟨valid',kept'⟩ := silent_kept valid silence
      obtain ⟨b,m₁,later,valid₁,committed⟩ := rest valid' atomic'
      exact ⟨b,m₁,trans kept' later,valid₁,committed⟩

/-- A part of the shared state on which some of the accesses act as on a device. -/
structure Component (S : System A R Block Input Shared) (R₀ : A₀ → Type) (σ : Type) where
  get : Shared → σ
  put : Shared → σ → Shared
  get_put : ∀ s m, get (put s m) = m
  device : (a : A₀) → σ → R₀ a × σ
  inj : A₀ → A
  answer : ∀ a, R (inj a) → R₀ a
  act_inj : ∀ {a input s r t}, S.act (inj a) input s = some (r,t) →
    answer a r = (device a (get s)).1 ∧ t = put s (device a (get s)).2

/-- The part that is read by `get` and written by `put`, where its accesses can
    always be made and are answered by the device. -/
abbrev Component.of {S : System A R Block Input Shared} (get : Shared → σ) (put : Shared → σ → Shared)
    (get_put : ∀ s m, get (put s m) = m) (inj : A₀ → A) (device : (a : A₀) → σ → R (inj a) × σ)
    (acts : ∀ a input s, S.act (inj a) input s = some ((device a (get s)).1,put s (device a (get s)).2)) :
    Component S (fun a => R (inj a)) σ where
  get := get
  put := put
  get_put := get_put
  device := device
  inj := inj
  answer _ r := r
  act_inj {a input s r t} acted := by
    obtain ⟨rfl,rfl⟩ := Prod.mk.inj (Option.some.inj ((acts a input s).symm.trans acted))
    exact ⟨rfl,rfl⟩

namespace Outline

variable {S : System A R Block Input Shared} (O : Outline Party S)

/-- A call of an atomic program on a component keeps the outline if its silent
    accesses keep it and the code after the call does from each committed state
    on. `frame` is what the caller knows during the call. -/
theorem sat_call {i : Party} (C : Component S R₀ σ) {inv : σ → Prop} {rely : σ → σ → Prop}
    {silent : A₀ → σ → σ → Prop} {commit : α → A₀ → σ → σ → Prop} {f : α → Prog A R Block} (frame : Shared → Prop)
    (relies : ∀ s s', frame s → O.rely i s s' → O.inv s' →
      frame s' ∧ rely (C.get s) (C.get s') ∧ inv (C.get s'))
    (silences : ∀ a s m, frame s → O.inv s → silent a (C.get s) m →
      frame (C.put s m) ∧ O.inv (C.put s m) ∧ O.guar i (C.inj a) s (C.put s m))
    (commits : ∀ v a s m, frame s → O.inv s → commit v a (C.get s) m →
      O.inv (S.settle (f v) (C.put s m)) ∧ O.guar i (C.inj a) s (S.settle (f v) (C.put s m)) ∧
        O.Sat i (f v) (C.put s m))
    (p : Prog A₀ R₀ α) {s : Shared} (atomic : Atomic C.device inv rely silent commit p (C.get s)) (here : frame s) :
    O.Sat i (p.embed C.inj C.answer >>= f) s := by
  induction p generalizing s with
  | ret v => exact atomic.elim
  | access a next ih =>
    intro s' input r t kept inv' acted
    obtain ⟨framed,relied,valid⟩ := relies s s' here kept inv'
    obtain ⟨answered,rfl⟩ := C.act_inj acted
    obtain ⟨last,more⟩ := atomic (C.get s') relied valid
    change O.inv (S.settle ((next (C.answer a r)).embed C.inj C.answer >>= f) _) ∧ O.guar i (C.inj a) s'
      (S.settle ((next (C.answer a r)).embed C.inj C.answer >>= f) _) ∧
        O.Sat i ((next (C.answer a r)).embed C.inj C.answer >>= f) _
    rw [answered]
    have rest := @ih (C.device a (C.get s')).1
    -- The access is either the last one of the call or a silent one.
    generalize next (C.device a (C.get s')).1 = after at last more rest
    cases after with
    | ret v => exact commits v a s' _ framed inv' (last v rfl)
    | access a' next' =>
      obtain ⟨silence,atomic'⟩ := more rfl
      obtain ⟨framed',inv'',guar⟩ := silences a s' _ framed inv' silence
      exact ⟨inv'',guar,rest (by rw [C.get_put]; exact atomic') framed'⟩

/-- A call on a component that nobody else touches meanwhile ends as it does alone. -/
theorem sat_alone {i : Party} (C : Component S R₀ σ) {f : α → Prog A R Block} {result : α × σ} (frame : Shared → Prop)
    (relies : ∀ s s', frame s → O.rely i s s' → O.inv s' → frame s' ∧ C.get s' = C.get s)
    (keeps : ∀ a s m, frame s → O.inv s →
      frame (C.put s m) ∧ O.inv (C.put s m) ∧ O.guar i (C.inj a) s (C.put s m))
    (ends : ∀ a s, frame s → O.inv s →
      O.inv (S.settle (f result.1) (C.put s result.2)) ∧
        O.guar i (C.inj a) s (S.settle (f result.1) (C.put s result.2)) ∧ O.Sat i (f result.1) (C.put s result.2))
    (p : Prog A₀ R₀ α) {s : Shared} (more : p.isAccess = true) (here : frame s)
    (alone : p.exec C.device (C.get s) = result) : O.Sat i (p.embed C.inj C.answer >>= f) s := by
  induction p generalizing s with
  | ret v => simp [Prog.isAccess] at more
  | access a next ih =>
    intro s' input r t kept inv' acted
    obtain ⟨framed,same⟩ := relies s s' here kept inv'
    obtain ⟨answered,rfl⟩ := C.act_inj acted
    change O.inv (S.settle ((next (C.answer a r)).embed C.inj C.answer >>= f) _) ∧ O.guar i (C.inj a) s'
      (S.settle ((next (C.answer a r)).embed C.inj C.answer >>= f) _) ∧
        O.Sat i ((next (C.answer a r)).embed C.inj C.answer >>= f) _
    simp only [Prog.exec,← same] at alone
    rw [answered]
    have rest := @ih (C.device a (C.get s')).1
    generalize next (C.device a (C.get s')).1 = after at alone rest
    cases after with
    | ret v =>
      subst alone
      exact ends a s' framed inv'
    | access a' next' =>
      obtain ⟨framed',inv'',guar⟩ := keeps a s' (C.device a (C.get s')).2 framed inv'
      exact ⟨inv'',guar,rest rfl framed' (by rw [C.get_put]; exact alone)⟩

/-- A call of which only its accesses are known may return anything. -/
theorem sat_open {i : Party} {f : α → Prog A R Block} {inj : A₀ → A} {answer : ∀ a, R (inj a) → R₀ a}
    (frame : Shared → Prop) (relies : ∀ s s', frame s → O.rely i s s' → O.inv s' → frame s')
    (keeps : ∀ {a input s r t}, frame s → O.inv s → S.act (inj a) input s = some (r,t) →
      frame t ∧ O.inv t ∧ O.guar i (inj a) s t)
    (values : ∀ v {a input s r t}, frame s → O.inv s → S.act (inj a) input s = some (r,t) →
      O.inv (S.settle (f v) t) ∧ O.guar i (inj a) s (S.settle (f v) t) ∧ O.Sat i (f v) t)
    (p : Prog A₀ R₀ α) {s : Shared} (more : p.isAccess = true) (here : frame s) :
    O.Sat i (p.embed inj answer >>= f) s := by
  induction p generalizing s with
  | ret v => simp [Prog.isAccess] at more
  | access a next ih =>
    intro s' input r t kept inv' acted
    have framed := relies s s' here kept inv'
    change O.inv (S.settle ((next (answer a r)).embed inj answer >>= f) _) ∧ O.guar i (inj a) s'
      (S.settle ((next (answer a r)).embed inj answer >>= f) _) ∧
        O.Sat i ((next (answer a r)).embed inj answer >>= f) _
    have rest := @ih (answer a r)
    generalize next (answer a r) = after at rest
    cases after with
    | ret v => exact values v framed inv' acted
    | access a' next' =>
      obtain ⟨framed',inv'',guar⟩ := keeps framed inv' acted
      exact ⟨inv'',guar,rest rfl framed'⟩

/-- A body keeps the outline if each of its accesses keeps what the party knows,
    and each of its last accesses leads to one of the blocks that it may return. -/
theorem sat_only {i : Party} {Q : A → Prop} {P : Block → Prop} (frame : Shared → Prop)
    (relies : ∀ s s', frame s → O.rely i s s' → O.inv s' → frame s')
    (keeps : ∀ {a input s r t}, Q a → frame s → O.inv s → S.act a input s = some (r,t) →
      frame t ∧ O.inv t ∧ O.guar i a s t)
    (ends : ∀ {b a input s r t}, P b → Q a → frame s → O.inv s → S.act a input s = some (r,t) →
      O.inv (S.enter b t) ∧ O.guar i a s (S.enter b t) ∧ O.pre i b (S.enter b t))
    {p : Prog A R Block} (only : p.Only Q P) {s : Shared} (more : p.isAccess = true) (here : frame s) : O.Sat i p s := by
  induction p generalizing s with
  | ret b => simp [Prog.isAccess] at more
  | access a next ih =>
    intro s' input r t kept inv' acted
    have framed := relies s s' here kept inv'
    obtain ⟨allowed,later⟩ := only
    have rest := @ih r (later r)
    have last := later r
    generalize next r = after at rest last
    cases after with
    | ret b => exact ends last allowed framed inv' acted
    | access a' next' =>
      obtain ⟨framed',inv'',guar⟩ := keeps allowed framed inv' acted
      exact ⟨inv'',guar,rest rfl framed'⟩

end Outline

end NeslPru.RelyGuarantee
