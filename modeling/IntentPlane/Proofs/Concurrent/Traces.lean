import IntentPlane.Program

/-!
# Traces of programs

The accesses that a program makes, in their order and with their answers, are its trace. Whatever
the answers, the text of the program restricts the traces, and `Program.Leads` says how. A trace
says nothing of what happens between its accesses, so it serves a program alone and one among
others.
-/

namespace IntentPlane

/-- An access that was made, and its answer. -/
structure Deed where
  access : Access
  answer : access.Answer

/-- A place in one of two lists is a place in both together. -/
theorem append_eq_append_cons {l l' l₁ l₂ : List α} {x : α} (h : l ++ l' = l₁ ++ x :: l₂) :
    (∃ m, l = l₁ ++ x :: m ∧ l₂ = m ++ l') ∨ ∃ m, l₁ = l ++ m ∧ l' = m ++ x :: l₂ := by
  rcases List.append_eq_append_iff.mp h with ⟨m, hl₁, hl'⟩ | ⟨m, hl, hm⟩
  · exact .inr ⟨m, hl₁, hl'⟩
  · cases m with
    | nil => exact .inr ⟨[], by simpa using hl.symm, by simpa using hm.symm⟩
    | cons y m =>
      obtain ⟨rfl, hl₂⟩ := List.cons.inj hm
      exact .inl ⟨m, hl, hl₂⟩

namespace Program

/-- Accesses of a program, and what is left of it after them. -/
inductive Leads : Program α → List Deed → Program α → Prop where
  | refl (p : Program α) : Leads p [] p
  | ask {access : Access} {next : access.Answer → Program α} {answer : access.Answer}
      {ds : List Deed} {q : Program α} : Leads (next answer) ds q →
      Leads (.ask access next) (⟨access, answer⟩ :: ds) q

/-- A program ends with a value after accesses. -/
abbrev Yields (p : Program α) (ds : List Deed) (a : α) : Prop := p.Leads ds (.done a)

variable {p q : Program α} {f : α → Program β} {ds : List Deed} {a : α} {b : β}

theorem leads_ask {access : Access} {next : access.Answer → Program α} :
    (ask access next).Leads ds q ↔
      ds = [] ∧ q = ask access next ∨
        ∃ answer rest, ds = ⟨access, answer⟩ :: rest ∧ (next answer).Leads rest q := by
  constructor
  · intro h
    cases h with
    | refl => exact .inl ⟨rfl, rfl⟩
    | ask h => exact .inr ⟨_, _, rfl, h⟩
  · rintro (⟨rfl, rfl⟩ | ⟨answer, rest, rfl, h⟩)
    · exact .refl _
    · exact .ask h

theorem Leads.append {r : Program α} {es : List Deed} (h : p.Leads ds q) (h' : q.Leads es r) :
    p.Leads (ds ++ es) r := by
  induction h with
  | refl => exact h'
  | ask _ ih => exact .ask (ih h')

/-- Every access can be answered. -/
instance (access : Access) : Nonempty access.Answer := by
  cases access with
  | ensureRecord => exact ⟨⟨.empty, 0⟩⟩
  | resolve | submit | withdraw => exact ⟨.error (.unavailable "")⟩
  | _ => infer_instance

/-- A program can always be brought to an end. -/
theorem exists_yields (p : Program α) : ∃ ds a, p.Yields ds a := by
  induction p with
  | done a => exact ⟨[], a, .refl _⟩
  | ask access next ih =>
    obtain ⟨answer⟩ : Nonempty access.Answer := inferInstance
    obtain ⟨ds, a, h⟩ := ih answer
    exact ⟨_, a, .ask h⟩

/-- What a program does alone against something that answers its accesses. -/
def log (answer : (access : Access) → σ → access.Answer × σ) : Program α → σ → List Deed
  | done _, _ => []
  | ask access next, x =>
    ⟨access, (answer access x).1⟩ :: (next (answer access x).1).log answer (answer access x).2

theorem yields_log (answer : (access : Access) → σ → access.Answer × σ) (p : Program α) (x : σ) :
    p.Yields (p.log answer x) (p.run answer x).1 := by
  induction p generalizing x with
  | done a => exact .refl _
  | ask access next ih => exact .ask (ih _ _)

/-- What a program did so far is the beginning of a whole trace of it. -/
theorem Leads.exists_yields (h : p.Leads ds q) : ∃ rest a, p.Yields (ds ++ rest) a := by
  obtain ⟨rest, a, hrest⟩ := q.exists_yields
  exact ⟨rest, a, h.append hrest⟩

@[simp] theorem yields_done {a' : α} : (done a).Yields ds a' ↔ ds = [] ∧ a' = a := by
  constructor
  · intro h
    cases h
    exact ⟨rfl, rfl⟩
  · rintro ⟨rfl, rfl⟩
    exact .refl _

@[simp] theorem yields_pure {a' : α} : (pure a : Program α).Yields ds a' ↔ ds = [] ∧ a' = a :=
  yields_done

theorem yields_ask {access : Access} {next : access.Answer → Program α} :
    (ask access next).Yields ds a ↔
      ∃ answer rest, ds = ⟨access, answer⟩ :: rest ∧ (next answer).Yields rest a := by
  rw [Yields, leads_ask]
  simp

theorem yields_bind :
    (p >>= f).Yields ds b ↔
      ∃ ds₁ a ds₂, ds = ds₁ ++ ds₂ ∧ p.Yields ds₁ a ∧ (f a).Yields ds₂ b := by
  constructor
  · intro h
    induction p generalizing ds with
    | done a => exact ⟨[], a, ds, rfl, .refl _, h⟩
    | ask access next ih =>
      obtain ⟨answer, rest, rfl, hrest⟩ := yields_ask.mp h
      obtain ⟨ds₁, a, ds₂, rfl, h₁, h₂⟩ := ih answer hrest
      exact ⟨_ :: ds₁, a, ds₂, rfl, .ask h₁, h₂⟩
  · rintro ⟨ds₁, a, ds₂, rfl, h₁, h₂⟩
    induction p generalizing ds₁ with
    | done a' =>
      obtain ⟨rfl, rfl⟩ := yields_done.mp h₁
      exact h₂
    | ask access next ih =>
      obtain ⟨answer, rest, rfl, hrest⟩ := yields_ask.mp h₁
      exact .ask (ih answer rest hrest)

/-- A program whose value is passed on through a function. -/
theorem yields_map {g : α → β} :
    (p >>= fun a => pure (g a)).Yields ds b ↔ ∃ a, p.Yields ds a ∧ b = g a := by
  rw [yields_bind]
  constructor
  · rintro ⟨ds₁, a, ds₂, rfl, h₁, h₂⟩
    obtain ⟨rfl, rfl⟩ := yields_pure.mp h₂
    exact ⟨a, by rwa [List.append_nil], rfl⟩
  · rintro ⟨a, h, rfl⟩
    exact ⟨ds, a, [], (List.append_nil _).symm, h, .refl _⟩

/-- A program that is a single access. -/
theorem yields_access {access : Access} {answer : access.Answer} :
    (ask access done).Yields ds answer ↔ ds = [⟨access, answer⟩] := by
  rw [yields_ask]
  constructor
  · rintro ⟨answer', rest, rfl, h⟩
    obtain ⟨rfl, rfl⟩ := yields_done.mp h
    rfl
  · rintro rfl
    exact ⟨answer, [], rfl, .refl _⟩

/-- A program that begins with a single access. -/
theorem yields_access_bind {access : Access} {f : access.Answer → Program β} :
    (ask access done >>= f).Yields ds b ↔
      ∃ answer rest, ds = ⟨access, answer⟩ :: rest ∧ (f answer).Yields rest b := by
  rw [ask_bind, yields_ask]
  rfl

/-- A sequence that may fail: both parts come to their ends, or the first part fails. -/
theorem yields_bind_except {m : ExceptT ε Program α} {f : α → ExceptT ε Program β}
    {result : Except ε β} :
    (m >>= f).run.Yields ds result ↔
      (∃ ds₁ a ds₂, ds = ds₁ ++ ds₂ ∧ m.run.Yields ds₁ (.ok a) ∧ (f a).run.Yields ds₂ result) ∨
        ∃ e, result = .error e ∧ m.run.Yields ds (.error e) := by
  rw [ExceptT.run_bind, yields_bind]
  constructor
  · rintro ⟨ds₁, a | a, ds₂, rfl, h₁, h₂⟩
    · obtain ⟨rfl, rfl⟩ := yields_pure.mp h₂
      exact .inr ⟨a, rfl, by rwa [List.append_nil]⟩
    · exact .inl ⟨ds₁, a, ds₂, rfl, h₁, h₂⟩
  · rintro (⟨ds₁, a, ds₂, rfl, h₁, h₂⟩ | ⟨e, rfl, h⟩)
    · exact ⟨ds₁, .ok a, ds₂, rfl, h₁, h₂⟩
    · exact ⟨ds, .error e, [], (List.append_nil _).symm, h, .refl _⟩

/-- A program inside a sequence that may fail does not fail itself. -/
theorem yields_lift_bind {p : Program α} {f : α → ExceptT ε Program β} {result : Except ε β} :
    ((monadLift p : ExceptT ε Program α) >>= f).run.Yields ds result ↔
      ∃ ds₁ a ds₂, ds = ds₁ ++ ds₂ ∧ p.Yields ds₁ a ∧ (f a).run.Yields ds₂ result := by
  have hrun : (monadLift p : ExceptT ε Program α).run = p >>= fun a => pure (.ok a) := rfl
  rw [yields_bind_except, hrun]
  constructor
  · rintro (⟨ds₁, a, ds₂, rfl, h₁, h₂⟩ | ⟨e, rfl, h⟩)
    · obtain ⟨a', h₁, ha⟩ := yields_map.mp h₁
      cases ha
      exact ⟨ds₁, a, ds₂, rfl, h₁, h₂⟩
    · obtain ⟨a', -, ha⟩ := yields_map.mp h
      cases ha
  · rintro ⟨ds₁, a, ds₂, rfl, h₁, h₂⟩
    exact .inl ⟨ds₁, a, ds₂, rfl, yields_map.mpr ⟨a, h₁, rfl⟩, h₂⟩

end Program

end IntentPlane
