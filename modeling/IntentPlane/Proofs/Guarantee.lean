import IntentPlane.Program

/-!
# What programs keep to

All that a program learns of the shared components are the answers to its accesses. `Program.Keeps`
says that it does nothing but what a contract allows, however it is answered, as long as the answers
are such as the contract expects. It does not matter whether the program succeeds, nor who else
makes accesses in between. `Keeps.run` concludes what a run leaves true.
-/

namespace IntentPlane

/-- What a program is allowed to do, and what it may expect of the answers. -/
structure Contract where
  allows : Access → Prop
  expects : (access : Access) → access.Answer → Prop

variable {c : Contract} {Q : α → Prop} {R : β → Prop}

namespace Program

/-- As long as it is answered as expected, a program does only what is allowed, and its result meets
`Q`. -/
def Keeps (c : Contract) (Q : α → Prop) : Program α → Prop
  | done value => Q value
  | ask access next => c.allows access ∧ ∀ answer, c.expects access answer → (next answer).Keeps c Q

namespace Keeps

variable {p : Program α} {f : α → Program β}

theorem ask {access : Access} {Q : access.Answer → Prop} (hallowed : c.allows access)
    (hexpected : ∀ answer, c.expects access answer → Q answer) : (ask access done).Keeps c Q :=
  ⟨hallowed, hexpected⟩

theorem bind (hp : p.Keeps c Q) (hf : ∀ a, Q a → (f a).Keeps c R) : (p >>= f).Keeps c R := by
  induction p with
  | done a => exact hf a hp
  | ask access next ih =>
    obtain ⟨hallowed, hnext⟩ := hp
    exact ⟨hallowed, fun answer hanswer => ih answer (hnext answer hanswer)⟩

/-- What every allowed access keeps true, a program keeps true. The state is free, and so is how
accesses are answered. -/
theorem run {answer : (access : Access) → σ → access.Answer × σ} {I : σ → Prop}
    (hstep : ∀ access s, I s → c.allows access →
      c.expects access (answer access s).1 ∧ I (answer access s).2)
    (hp : p.Keeps c Q) {s : σ} (hs : I s) : Q (p.run answer s).1 ∧ I (p.run answer s).2 := by
  induction p generalizing s with
  | done a => exact ⟨hp, hs⟩
  | ask access next ih =>
    obtain ⟨hallowed, hnext⟩ := hp
    obtain ⟨hexpected, hs'⟩ := hstep access s hs hallowed
    exact ih _ (hnext _ hexpected) hs'

end Keeps
end Program

/-- The same of a program that may fail, whose result need not be there. -/
def Contract.Kept (c : Contract) (Q : α → Prop) (m : ExceptT ε Program α) : Prop :=
  m.run.Keeps c fun result => ∀ a, result = .ok a → Q a

namespace Contract.Kept

variable {m : ExceptT ε Program α} {f : α → ExceptT ε Program β}

theorem pure {a : α} (ha : Q a) : c.Kept Q (Pure.pure a : ExceptT ε Program α) := by
  intro b hb
  cases hb
  exact ha

theorem throw (e : ε) : c.Kept Q (MonadExcept.throw e : ExceptT ε Program α) := nofun

theorem lift {p : Program α} (hp : p.Keeps c Q) :
    c.Kept Q (monadLift p : ExceptT ε Program α) := by
  refine Program.Keeps.bind (f := fun a => Pure.pure (Except.ok a)) hp ?_
  intro a ha b hb
  cases hb
  exact ha

theorem bind (hm : c.Kept Q m) (hf : ∀ a, Q a → c.Kept R (f a)) : c.Kept R (m >>= f) := by
  rw [Kept, ExceptT.run_bind]
  refine Program.Keeps.bind hm ?_
  intro result hresult
  cases result with
  | ok a => exact hf a (hresult a rfl)
  | error => exact nofun

end Contract.Kept

end IntentPlane
