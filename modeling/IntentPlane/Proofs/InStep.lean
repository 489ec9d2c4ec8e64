import IntentPlane.Proofs.Scene

/-!
# Two runs side by side

`Surroundings.InStep` says of two programs that from scenes in a relation they lead to scenes in the
same relation, with results that match. Programs in step are put together by `InStep.bind`; for
programs that may fail, `InStepOrFail` asks for the same errors (`InStepOrFail.bind`). What the
relation is, and why single accesses keep it, is for the user to say.
-/

namespace IntentPlane

/-- Results that match, or the same error. -/
inductive Except.Rel (Q : α → β → Prop) : Except ε α → Except ε β → Prop where
  | ok : Q a b → Except.Rel Q (.ok a) (.ok b)
  | error : Except.Rel Q (.error e) (.error e)

namespace Surroundings

variable {τ : Type} {o : Surroundings τ} {R : Scene τ → Scene τ → Prop}

/-- From related scenes, two programs lead to related scenes, with results that match. -/
def InStep (o : Surroundings τ) (R : Scene τ → Scene τ → Prop) (Q : α → β → Prop) (p : Program α)
    (q : Program β) : Prop :=
  ∀ x y, R x y → Q (p.run o.answer x).1 (q.run o.answer y).1 ∧
    R (p.run o.answer x).2 (q.run o.answer y).2

/-- The same of programs that may fail: they do so together and with the same error. -/
def InStepOrFail (o : Surroundings τ) (R : Scene τ → Scene τ → Prop) (Q : α → β → Prop)
    (m : ExceptT ε Program α) (n : ExceptT ε Program β) : Prop :=
  o.InStep R (Except.Rel Q) m.run n.run

section

variable {α β γ δ : Type} {Q Q' : α → β → Prop} {S : γ → δ → Prop} {p : Program α} {q : Program β}
  {f : α → Program γ} {g : β → Program δ}

theorem InStep.pure {a : α} {b : β} (h : Q a b) :
    o.InStep R Q (Pure.pure a : Program α) (Pure.pure b) := fun _ _ hxy => ⟨h, hxy⟩

theorem InStep.mono (h : o.InStep R Q p q) (hQ : ∀ a b, Q a b → Q' a b) : o.InStep R Q' p q :=
  fun x y hxy => ⟨hQ _ _ (h x y hxy).1, (h x y hxy).2⟩

theorem InStep.bind (h : o.InStep R Q p q) (hf : ∀ a b, Q a b → o.InStep R S (f a) (g b)) :
    o.InStep R S (p >>= f) (q >>= g) := by
  intro x y hxy
  obtain ⟨hresult, hscene⟩ := h x y hxy
  rw [Program.run_bind, Program.run_bind]
  exact hf _ _ hresult _ _ hscene

/-- Of a single access, all there is to show is what it is answered and where it leads. -/
theorem InStep.access {access : Access}
    (h : ∀ x y, R x y → (o.answer access x).1 = (o.answer access y).1 ∧
      R (o.answer access x).2 (o.answer access y).2) :
    o.InStep R Eq (.ask access .done) (.ask access .done) := h

end

namespace InStepOrFail

variable {α β γ δ ε : Type} {Q Q' : α → β → Prop} {S : γ → δ → Prop} {m : ExceptT ε Program α}
  {n : ExceptT ε Program β} {f : α → ExceptT ε Program γ} {g : β → ExceptT ε Program δ}

theorem pure {a : α} {b : β} (h : Q a b) :
    o.InStepOrFail R Q (Pure.pure a : ExceptT ε Program α) (Pure.pure b) :=
  InStep.pure (.ok h)

theorem throw (e : ε) :
    o.InStepOrFail R Q (MonadExcept.throw e : ExceptT ε Program α) (MonadExcept.throw e) :=
  InStep.pure .error

theorem mono (h : o.InStepOrFail R Q m n) (hQ : ∀ a b, Q a b → Q' a b) :
    o.InStepOrFail R Q' m n := by
  refine InStep.mono h fun a b hab => ?_
  cases hab with
  | ok hab => exact .ok (hQ _ _ hab)
  | error => exact .error

theorem bind (h : o.InStepOrFail R Q m n)
    (hf : ∀ a b, Q a b → o.InStepOrFail R S (f a) (g b)) :
    o.InStepOrFail R S (m >>= f) (n >>= g) := by
  rw [InStepOrFail, ExceptT.run_bind, ExceptT.run_bind]
  refine InStep.bind h fun a b hab => ?_
  cases hab with
  | ok hab => exact hf _ _ hab
  | error => exact InStep.pure .error

theorem lift {p : Program α} {q : Program β} (h : o.InStep R Q p q) :
    o.InStepOrFail R Q (monadLift p : ExceptT ε Program α) (monadLift q) :=
  InStep.bind (f := fun a => Pure.pure (Except.ok a)) (g := fun b => Pure.pure (Except.ok b)) h
    fun _ _ hab => InStep.pure (.ok hab)

theorem eval (h : o.InStepOrFail R Q m n) {x y : Scene τ} (hxy : R x y) :
    Except.Rel Q (o.eval m x).1 (o.eval n y).1 ∧ R (o.eval m x).2 (o.eval n y).2 := h x y hxy

end InStepOrFail
end Surroundings
end IntentPlane
