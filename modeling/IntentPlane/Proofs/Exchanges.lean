import IntentPlane.Proofs.InMemory

/-!
# Calls to the registry and the framework

The calls that a program makes are all that its surroundings learn of it: `run_heard` says so of
every program. In memory, what the framework holds under a key and how often something was submitted
there can be read off the calls.
-/

namespace IntentPlane

variable {τ : Type}

/-- The intents accepted under a key in a list of calls, with the answers. -/
def accepted (k : IntentKey) (es : List Exchange) : List (Intent × Submission) :=
  es.filterMap fun
    | .submit _ i (.ok a) => if i.key = k then some (i, a) else none
    | _ => none

/-- The intents submitted under a key in a list of calls. -/
def submitted (k : IntentKey) (es : List Exchange) : List Intent :=
  es.filterMap fun
    | .submit _ i _ => if i.key = k then some i else none
    | _ => none

/-- The withdrawals of a key in a list of calls, by their answers. -/
def withdrawals (k : IntentKey) (es : List Exchange) : List (Except FrameworkError Unit) :=
  es.filterMap fun
    | .withdraw _ l a => if l = k then some a else none
    | _ => none

@[simp] theorem accepted_submit (k : IntentKey) (limit : UInt64) (i : Intent) (a : Submission)
    (es : List Exchange) : accepted k (.submit limit i (.ok a) :: es) =
      if i.key = k then (i, a) :: accepted k es else accepted k es := by
  by_cases h : i.key = k <;> simp [accepted, h]

@[simp] theorem submitted_submit (k : IntentKey) (limit : UInt64) (i : Intent)
    (answer : Except FrameworkError Submission) (es : List Exchange) :
    submitted k (.submit limit i answer :: es) =
      if i.key = k then i :: submitted k es else submitted k es := by
  by_cases h : i.key = k <;> simp [submitted, h]

@[simp] theorem withdrawals_withdraw (k l : IntentKey) (limit : UInt64)
    (answer : Except FrameworkError Unit) (es : List Exchange) :
    withdrawals k (.withdraw limit l answer :: es) =
      if l = k then answer :: withdrawals k es else withdrawals k es := by
  by_cases h : l = k <;> simp [withdrawals, h]

@[simp] theorem accepted_append (k : IntentKey) (es fs : List Exchange) :
    accepted k (es ++ fs) = accepted k es ++ accepted k fs := List.filterMap_append ..

@[simp] theorem submitted_append (k : IntentKey) (es fs : List Exchange) :
    submitted k (es ++ fs) = submitted k es ++ submitted k fs := List.filterMap_append ..

@[simp] theorem withdrawals_append (k : IntentKey) (es fs : List Exchange) :
    withdrawals k (es ++ fs) = withdrawals k es ++ withdrawals k fs := List.filterMap_append ..

theorem accepted_eq_nil {k : IntentKey} {es : List Exchange} (h : submitted k es = []) :
    accepted k es = [] := by
  simp only [submitted, accepted, List.filterMap_eq_nil_iff] at h ⊢
  intro e he
  have hnone := h e he
  grind

theorem mem_submitted_of_accepted {k : IntentKey} {es : List Exchange} {i : Intent} {a : Submission}
    (h : (i, a) ∈ accepted k es) : i ∈ submitted k es := by
  simp only [submitted, accepted, List.mem_filterMap] at h ⊢
  obtain ⟨e, he, h⟩ := h
  exact ⟨e, he, by grind⟩

/-- A key is left alone between two scenes and in the calls made from one to the other. -/
structure Untouched (k : IntentKey) (x : Scene τ) (es : List Exchange) (y : Scene τ) : Prop where
  entry : ∀ s, y.entry s k = x.entry s k
  indexed : y.indexed k = x.indexed k
  submitted : submitted k es = []
  withdrawals : withdrawals k es = []

theorem Untouched.trans {k : IntentKey} {x y z : Scene τ} {es fs : List Exchange}
    (h : Untouched k x es y) (h' : Untouched k y fs z) : Untouched k x (es ++ fs) z where
  entry s := (h'.entry s).trans (h.entry s)
  indexed := h'.indexed.trans h.indexed
  submitted := by rw [submitted_append, h.submitted, h'.submitted, List.append_nil]
  withdrawals := by rw [withdrawals_append, h.withdrawals, h'.withdrawals, List.append_nil]

/-- Calls that surroundings answered on the way from one state to another. -/
inductive Heard (o : Surroundings τ) : τ → List Exchange → τ → Prop where
  | nil : Heard o t [] t
  | resolve : o.resolve p t = (answer, t') → Heard o t' es u →
      Heard o t (.resolve p answer :: es) u
  | submit : o.submit limit i t = (answer, t') → Heard o t' es u →
      Heard o t (.submit limit i answer :: es) u
  | withdraw : o.withdraw limit k t = (answer, t') → Heard o t' es u →
      Heard o t (.withdraw limit k answer :: es) u
  | heldIntents : o.heldIntents t = (answer, t') → Heard o t' es u →
      Heard o t (.heldIntents answer :: es) u

/-- Whatever a program does, its surroundings only hear its calls. -/
theorem run_heard (o : Surroundings τ) (p : Program α) (x : Scene τ) :
    ∃ es, (p.run o.answer x).2.calls = x.calls ++ es ∧
      Heard o x.outside es (p.run o.answer x).2.outside := by
  induction p generalizing x with
  | done => exact ⟨[], (List.append_nil _).symm, .nil⟩
  | ask access next ih =>
    rw [Program.run]
    obtain ⟨es, hcalls, hes⟩ := ih (o.answer access x).1 (o.answer access x).2
    cases access with
    | resolve p =>
      exact ⟨_ :: es, by simpa [Surroundings.answer] using hcalls, .resolve rfl hes⟩
    | submit limit i =>
      exact ⟨_ :: es, by simpa [Surroundings.answer] using hcalls, .submit rfl hes⟩
    | withdraw limit k =>
      exact ⟨_ :: es, by simpa [Surroundings.answer] using hcalls, .withdraw rfl hes⟩
    | heldIntents =>
      exact ⟨_ :: es, by simpa [Surroundings.answer] using hcalls, .heldIntents rfl hes⟩
    | readRecord | ensureRecord | putRecord | replaceRecord | removeRecord | listServices
    | listRecords | indexIntent | indexedIntent | unindexIntent => exact ⟨es, hcalls, hes⟩

namespace Heard

variable {e : Enumeration} {f g : Facilities} {es : List Exchange} {k : IntentKey}

/-- The framework counts all that is submitted. -/
theorem submissionCount_eq (h : Heard (.inMemory e) f es g) :
    g.framework.submissionCount k = f.framework.submissionCount k + (submitted k es).length := by
  induction h with
  | nil => rfl
  | resolve ha _ ih | heldIntents ha _ ih =>
    cases ha
    exact ih
  | withdraw ha _ ih =>
    cases ha
    rw [ih, Framework.submissionCount_withdraw]
    rfl
  | submit ha _ ih =>
    cases ha
    rw [ih, Framework.submissionCount_submit, submitted_submit]
    split
    · rw [List.length_cons]
      omega
    · rfl

/-- Under a key that is not withdrawn, the framework holds what it accepted last. -/
theorem get?_eq (h : Heard (.inMemory e) f es g) (hw : withdrawals k es = []) :
    g.framework.get? k = ((accepted k es).getLast?.map (·.1)).or (f.framework.get? k) := by
  induction h with
  | nil => rfl
  | resolve ha _ ih | heldIntents ha _ ih =>
    cases ha
    exact ih hw
  | @withdraw _ l _ answer _ _ _ ha _ ih =>
    by_cases hl : l = k
    · simp [hl] at hw
    · cases ha
      have hrest := ih (by simpa [hl] using hw)
      rwa [Framework.get?_withdraw, if_neg hl] at hrest
  | @submit _ i _ answer _ _ _ ha _ ih =>
    obtain ⟨hanswer, rfl⟩ := Surroundings.submit_inMemory ha
    have hrest := ih hw
    cases answer with
    | error => rwa [Framework.submit_error hanswer, Framework.get?_count] at hrest
    | ok a =>
      rw [Framework.submit_ok hanswer, Framework.get?_take, Framework.get?_count] at hrest
      rw [hrest, accepted_submit]
      by_cases hi : i.key = k
      · rw [if_pos hi, if_pos hi, List.getLast?_cons]
        cases (accepted k _).getLast? <;> rfl
      · rw [if_neg hi, if_neg hi]

theorem submissionCount_of_silent (h : Heard (.inMemory e) f es g) (hs : submitted k es = []) :
    g.framework.submissionCount k = f.framework.submissionCount k := by
  rw [h.submissionCount_eq, hs, List.length_nil, Nat.add_zero]

theorem get?_of_accepted (h : Heard (.inMemory e) f es g) (hw : withdrawals k es = [])
    {i : Intent} {a : Submission} (ha : accepted k es = [(i, a)]) :
    g.framework.get? k = some i := by
  rw [h.get?_eq hw, ha]
  rfl

theorem get?_of_none_accepted (h : Heard (.inMemory e) f es g) (hw : withdrawals k es = [])
    (ha : accepted k es = []) : g.framework.get? k = f.framework.get? k := by
  rw [h.get?_eq hw, ha]
  rfl

/-- Under a key that nothing is accepted for, nothing comes to be held. -/
theorem get?_eq_none (h : Heard (.inMemory e) f es g) (ha : accepted k es = [])
    (hf : f.framework.get? k = none) : g.framework.get? k = none := by
  induction h with
  | nil => exact hf
  | resolve hr _ ih | heldIntents hr _ ih =>
    cases hr
    exact ih ha hf
  | withdraw hr _ ih =>
    cases hr
    exact ih ha (by simp [hf])
  | @submit _ i _ answer _ _ _ hr _ ih =>
    obtain ⟨hanswer, rfl⟩ := Surroundings.submit_inMemory hr
    cases answer with
    | error =>
      exact ih ha (by rwa [Framework.submit_error hanswer, Framework.get?_count])
    | ok a =>
      by_cases hi : i.key = k
      · simp [hi] at ha
      · refine ih (by simpa [hi] using ha) ?_
        rwa [Framework.submit_ok hanswer, Framework.get?_take, if_neg hi, Framework.get?_count]

/-- A key that is withdrawn and nothing is accepted for is not held afterwards. -/
theorem get?_of_withdrawn (h : Heard (.inMemory e) f es g) (ha : accepted k es = [])
    (hw : withdrawals k es ≠ []) : g.framework.get? k = none := by
  induction h with
  | nil => exact absurd rfl hw
  | resolve _ _ ih | heldIntents _ _ ih => exact ih ha hw
  | @withdraw _ l _ answer _ _ _ hr hrest ih =>
    by_cases hl : l = k
    · cases hr
      exact hrest.get?_eq_none ha (by simp [hl])
    · exact ih ha (by simpa [hl] using hw)
  | @submit _ i _ answer _ _ _ hr _ ih =>
    cases answer with
    | error => exact ih ha hw
    | ok a =>
      by_cases hi : i.key = k
      · simp [hi] at ha
      · exact ih (by simpa [hi] using ha) hw

/-- In memory, a withdrawal fails just if nothing is held. -/
theorem notFound_of_withdrawals (h : Heard (.inMemory e) f es g) {error : FrameworkError}
    (hmem : .error error ∈ withdrawals k es) : error = .notFound k := by
  induction h with
  | nil => cases hmem
  | resolve _ _ ih | submit _ _ ih | heldIntents _ _ ih => exact ih hmem
  | @withdraw _ l f answer _ _ _ hr _ ih =>
    by_cases hl : l = k
    · subst hl
      cases hr
      rw [withdrawals_withdraw, if_pos rfl, List.mem_cons] at hmem
      rcases hmem with hmem | hmem
      · cases hheld : f.framework.get? l with
        | none =>
          rw [Framework.withdraw_none hheld] at hmem
          cases hmem
          rfl
        | some i =>
          rw [Framework.withdraw_some hheld] at hmem
          cases hmem
      · exact ih hmem
    · exact ih (by simpa [hl] using hmem)

/-- In memory, a key that nothing was accepted for is withdrawn just if it was held. -/
theorem answer_of_withdrawals (h : Heard (.inMemory e) f es g) (ha : accepted k es = [])
    {answer : Except FrameworkError Unit} (hw : withdrawals k es = [answer]) :
    answer = if (f.framework.get? k).isSome then .ok () else .error (.notFound k) := by
  induction h with
  | nil => cases hw
  | resolve hr _ ih | heldIntents hr _ ih =>
    cases hr
    exact ih ha hw
  | @withdraw _ l f answer' _ _ _ hr _ ih =>
    by_cases hl : l = k
    · subst hl
      cases hr
      obtain rfl : (f.framework.withdraw l).1 = answer := by
        rw [withdrawals_withdraw, if_pos rfl] at hw
        exact (List.cons.inj hw).1
      cases hheld : f.framework.get? l with
      | none => rw [Framework.withdraw_none hheld, Option.isSome_none, if_neg Bool.false_ne_true]
      | some i => rw [Framework.withdraw_some hheld, Option.isSome_some, if_pos rfl]
    · cases hr
      have hrest := ih ha (by simpa [hl] using hw)
      rwa [Framework.get?_withdraw, if_neg hl] at hrest
  | @submit _ i _ answer' _ _ _ hr _ ih =>
    obtain ⟨hanswer, rfl⟩ := Surroundings.submit_inMemory hr
    cases answer' with
    | error =>
      have hrest := ih ha hw
      rwa [Framework.submit_error hanswer, Framework.get?_count] at hrest
    | ok a =>
      by_cases hi : i.key = k
      · simp [hi] at ha
      · have hrest := ih (by simpa [hi] using ha) hw
        rwa [Framework.submit_ok hanswer, Framework.get?_take, if_neg hi, Framework.get?_count]
          at hrest

end Heard

end IntentPlane
