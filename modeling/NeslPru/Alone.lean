import NeslPru.RelyGuarantee

/-!
Pre- and postconditions of programs that have a device to themselves. `Ensures`
also says what holds between any two accesses; where that is enough to keep the
other parties away from the device, the rules carry over to a run beside them
(`sat_ensures`). Where only a good run keeps them away, they carry over to the good
runs (`sat_unless`).
-/
namespace NeslPru.Alone
open NeslPru.Access NeslPru.RelyGuarantee

variable {A A' : Type} {R : A → Type} {R' : A' → Type} {Party Block Input Shared σ α β : Type}
variable {device : (a : A) → σ → R a × σ} {Q Q' : σ → Prop} {P P' : α → σ → Prop} {P'' : β → σ → Prop} {m : σ}

/-- From `m` on, the program goes through states of `Q` and ends as `P` says. -/
def Ensures (device : (a : A) → σ → R a × σ) (Q : σ → Prop) (P : α → σ → Prop) : Prog A R α → σ → Prop
  | .ret v, m => P v m
  | .access a next, m => Q (device a m).2 ∧ Ensures device Q P (next (device a m).1) (device a m).2

theorem ensures_bind {p : Prog A R α} {f : α → Prog A R β} (first : Ensures device Q P p m)
    (second : ∀ v m, P v m → Ensures device Q P'' (f v) m) : Ensures device Q P'' (p >>= f) m := by
  induction p generalizing m with
  | ret v => exact second v m first
  | access a next ih =>
    obtain ⟨here,later⟩ := first
    exact ⟨here,ih _ later⟩

theorem ensures_mono {p : Prog A R α} (ensures : Ensures device Q P p m) (between : ∀ m, Q m → Q' m)
    (ends : ∀ v m, P v m → P' v m) : Ensures device Q' P' p m := by
  induction p generalizing m with
  | ret v => exact ends v m ensures
  | access a next ih =>
    obtain ⟨here,later⟩ := ensures
    exact ⟨between _ here,ih _ later⟩

variable {S : System A' R' Block Input Shared} (O : Outline Party S)

/-- A program on a component that nobody else changes as long as `Q` holds of it. -/
theorem sat_ensures {i : Party} (C : Component S R σ) {f : α → Prog A' R' Block} (frame : Shared → Prop)
    (relies : ∀ s s', frame s → Q (C.get s) → O.rely i s s' → O.inv s' → frame s' ∧ C.get s' = C.get s)
    (keeps : ∀ a s m, frame s → O.inv s → Q m → frame (C.put s m) ∧ O.inv (C.put s m) ∧ O.guar i (C.inj a) s (C.put s m))
    (ends : ∀ v a s m, frame s → O.inv s → Q m → P v m →
      O.inv (S.settle (f v) (C.put s m)) ∧ O.guar i (C.inj a) s (S.settle (f v) (C.put s m)) ∧ O.Sat i (f v) (C.put s m))
    (p : Prog A R α) {s : Shared} (more : p.isAccess = true) (here : frame s) (quiet : Q (C.get s))
    (ensures : Ensures C.device Q P p (C.get s)) : O.Sat i (p.embed C.inj C.answer >>= f) s := by
  induction p generalizing s with
  | ret v => simp [Prog.isAccess] at more
  | access a next ih =>
    intro s' input r t relied inv' acted
    obtain ⟨framed,same⟩ := relies s s' here quiet relied inv'
    obtain ⟨answered,rfl⟩ := C.act_inj acted
    change O.inv (S.settle ((next (C.answer a r)).embed C.inj C.answer >>= f) _) ∧ O.guar i (C.inj a) s'
      (S.settle ((next (C.answer a r)).embed C.inj C.answer >>= f) _) ∧
        O.Sat i ((next (C.answer a r)).embed C.inj C.answer >>= f) _
    rw [answered,same]
    obtain ⟨quiet',later⟩ := ensures
    have rest := @ih (C.device a (C.get s)).1
    generalize next (C.device a (C.get s)).1 = after at later rest
    cases after with
    | ret v => exact ends v a s' _ framed inv' quiet' later
    | access a' next' =>
      obtain ⟨framed',inv'',guar⟩ := keeps a s' (C.device a (C.get s)).2 framed inv' quiet'
      refine ⟨inv'',guar,rest rfl framed' (by rwa [C.get_put]) (by rwa [C.get_put])⟩

/-- A program on a component that nobody else changes unless something is spoiled
    for good, ends as it does alone unless something is. -/
theorem sat_unless {i : Party} (C : Component S R σ) {f : α → Prog A' R' Block} (result : α × σ)
    (frame spoiled : Shared → Prop)
    (relies : ∀ s s', frame s → O.rely i s s' → O.inv s' → frame s' ∧ (¬ spoiled s' → ¬ spoiled s ∧ C.get s' = C.get s))
    (keeps : ∀ a s m, frame s → O.inv s → frame (C.put s m) ∧ O.inv (C.put s m) ∧ O.guar i (C.inj a) s (C.put s m))
    (stays : ∀ s m, spoiled s → spoiled (C.put s m))
    (ends : ∀ v a s m, frame s → O.inv s → (¬ spoiled s → (v,m) = result) →
      O.inv (S.settle (f v) (C.put s m)) ∧ O.guar i (C.inj a) s (S.settle (f v) (C.put s m)) ∧ O.Sat i (f v) (C.put s m))
    (p : Prog A R α) {s : Shared} (more : p.isAccess = true) (here : frame s)
    (alone : ¬ spoiled s → p.exec C.device (C.get s) = result) : O.Sat i (p.embed C.inj C.answer >>= f) s := by
  induction p generalizing s with
  | ret v => simp [Prog.isAccess] at more
  | access a next ih =>
    intro s' input r t relied inv' acted
    obtain ⟨framed,same⟩ := relies s s' here relied inv'
    obtain ⟨answered,rfl⟩ := C.act_inj acted
    have later : ¬ spoiled s' → (next (C.device a (C.get s')).1).exec C.device (C.device a (C.get s')).2 = result := by
      intro clean
      obtain ⟨clean',unchanged⟩ := same clean
      have ended := alone clean'
      rwa [Prog.exec,← unchanged] at ended
    change O.inv (S.settle ((next (C.answer a r)).embed C.inj C.answer >>= f) _) ∧ O.guar i (C.inj a) s'
      (S.settle ((next (C.answer a r)).embed C.inj C.answer >>= f) _) ∧
        O.Sat i ((next (C.answer a r)).embed C.inj C.answer >>= f) _
    rw [answered]
    have rest := @ih (C.device a (C.get s')).1
    generalize next (C.device a (C.get s')).1 = after at later rest
    cases after with
    | ret v => exact ends v a s' _ framed inv' later
    | access a' next' =>
      obtain ⟨framed',inv'',guar⟩ := keeps a s' (C.device a (C.get s')).2 framed inv'
      refine ⟨inv'',guar,rest rfl framed' fun clean => ?_⟩
      rw [C.get_put]
      exact later fun spoiled => clean (stays s' _ spoiled)

end NeslPru.Alone
