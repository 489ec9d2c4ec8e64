import IntentPlane.Proofs.Exchanges
import IntentPlane.Submitting

/-!
# Searching candidate links

How the search for a link that the framework accepts goes, link by link: `Search` says what is
submitted, what is answered and what is left untried. `run_submitFirst` says that `submitFirst`
searches so; the lemmas after it say what an accepted link is and what calls a search makes.
-/

namespace IntentPlane

variable {τ : Type}

/-- A search over candidate links: the result, the calls made and the state they lead to. Given is
the reason to report if nothing more is refused. -/
inductive Search (o : Surroundings τ) (limit : UInt64) (build? : CandidateLink → Option Intent) :
    String → List CandidateLink → τ → Except String Acceptance → List Exchange → τ → Prop where
  | exhausted : Search o limit build? reason [] t (.error reason) [] t
  | skip : build? link = none → Search o limit build? reason links t result es u →
      Search o limit build? reason (link :: links) t result es u
  | refuse : build? link = some i → o.submit limit i t = (.error e, t') →
      Search o limit build? e.message links t' result es u →
      Search o limit build? reason (link :: links) t result (.submit limit i (.error e) :: es) u
  | accept : build? link = some i → o.submit limit i t = (.ok a, u) →
      Search o limit build? reason (link :: links) t (.ok ⟨link, i, a, links⟩)
        [.submit limit i (.ok a)] u

variable {o : Surroundings τ} {limit : UInt64} {build? : CandidateLink → Option Intent}
  {reason : String} {links : List CandidateLink} {t u : τ} {es : List Exchange}

theorem run_submitFirst (o : Surroundings τ) (limit : UInt64)
    (build? : CandidateLink → Option Intent) (reason : String) (links : List CandidateLink)
    (x : Scene τ) :
    ∃ result es u, Search o limit build? reason links x.outside result es u ∧
      (submitFirst limit build? reason links).run o.answer x = (result, x.hear u es) := by
  induction links generalizing reason x with
  | nil => exact ⟨.error reason, [], x.outside, .exhausted, by rw [Scene.hear_nil]; rfl⟩
  | cons link links ih =>
    cases hb : build? link with
    | none =>
      obtain ⟨result, es, u, hsearch, hrun⟩ := ih reason x
      exact ⟨result, es, u, .skip hb hsearch, by simpa only [submitFirst, hb] using hrun⟩
    | some i =>
      simp only [submitFirst, hb, Program.run_bind, Surroundings.run_submit]
      rcases hs : o.submit limit i x.outside with ⟨e | a, v⟩
      · obtain ⟨result, es, u, hsearch, hrun⟩ :=
          ih e.message (x.hear v [.submit limit i (.error e)])
        exact ⟨result, _, u, .refuse hb hs hsearch, by rw [Scene.hear_hear] at hrun; exact hrun⟩
      · exact ⟨_, _, v, .accept hb hs, rfl⟩

namespace Search

variable {a : Acceptance} {result : Except String Acceptance} {k : IntentKey}

/-- An accepted link is one of the candidates, its intent is built from it, and what is left untried
are the candidates after it. -/
theorem of_ok (h : Search o limit build? reason links t (.ok a) es u) :
    ∃ tried, links = tried ++ a.link :: a.untried ∧ build? a.link = some a.intent := by
  generalize hr : Except.ok a = result at h
  induction h with
  | exhausted => cases hr
  | skip _ _ ih | refuse _ _ _ ih =>
    obtain ⟨tried, rfl, hb⟩ := ih hr
    exact ⟨_ :: tried, rfl, hb⟩
  | accept hb _ =>
    cases hr
    exact ⟨[], rfl, hb⟩

/-- All that a search submits is built from candidates. -/
theorem submitted_eq_nil (h : Search o limit build? reason links t result es u)
    (hk : ∀ link i, build? link = some i → i.key ≠ k) : submitted k es = [] := by
  induction h with
  | exhausted => rfl
  | skip _ _ ih => exact ih
  | refuse hb _ _ ih => simpa [submitted, hk _ _ hb] using ih
  | accept hb _ => simp [submitted, hk _ _ hb]

/-- A search over links that all make intents submits at least one. -/
theorem submitted_ne_nil (h : Search o limit build? reason links t result es u)
    (hlinks : links ≠ []) (hbuild : ∀ link ∈ links, (build? link).isSome = true)
    (hk : ∀ link i, build? link = some i → i.key = k) : submitted k es ≠ [] := by
  cases h with
  | exhausted => exact absurd rfl hlinks
  | skip hb _ =>
    have hsome := hbuild _ (.head _)
    rw [hb] at hsome
    cases hsome
  | refuse hb _ _ | accept hb _ =>
    rw [submitted_submit, if_pos (hk _ _ hb)]
    exact List.cons_ne_nil _ _

/-- The links that the result of a search leaves untried. -/
def untried : Except String Acceptance → List CandidateLink
  | .ok a => a.untried
  | .error _ => []

/-- A search over links that all make intents submits them one after another, and leaves untried
those after the last one submitted. -/
theorem consumed (h : Search o limit build? reason links t result es u)
    (hbuild : ∀ link ∈ links, (build? link).isSome = true)
    (hk : ∀ link i, build? link = some i → i.key = k) :
    ∃ m, m ≤ links.length ∧ (submitted k es).map some = (links.take m).map build? ∧
      untried result = links.drop m := by
  induction h with
  | exhausted => exact ⟨0, Nat.le_refl _, rfl, rfl⟩
  | skip hb _ _ =>
    have hsome := hbuild _ (.head _)
    rw [hb] at hsome
    cases hsome
  | refuse hb _ _ ih =>
    obtain ⟨m, hm, htried, hleft⟩ := ih fun link hlink => hbuild link (.tail _ hlink)
    refine ⟨m + 1, Nat.succ_le_succ hm, ?_, hleft⟩
    rw [submitted_submit, if_pos (hk _ _ hb), List.map_cons, htried, List.take_succ_cons,
      List.map_cons, hb]
  | accept hb _ =>
    refine ⟨1, Nat.succ_le_succ (Nat.zero_le _), ?_, rfl⟩
    rw [submitted_submit, if_pos (hk _ _ hb), List.map_cons, List.take_succ_cons, List.map_cons,
      hb]
    rfl

theorem accepted_of_ok (h : Search o limit build? reason links t (.ok a) es u) :
    accepted a.intent.key es = [(a.intent, a.submission)] := by
  generalize hr : Except.ok a = result at h
  induction h with
  | exhausted => cases hr
  | skip _ _ ih | refuse _ _ _ ih => exact ih hr
  | accept =>
    cases hr
    simp [accepted]

theorem accepted_of_error {r : String} (h : Search o limit build? reason links t (.error r) es u) :
    accepted k es = [] := by
  generalize hr : Except.error r = result at h
  induction h with
  | exhausted => rfl
  | skip _ _ ih | refuse _ _ _ ih => exact ih hr
  | accept => cases hr

theorem withdrawals_eq_nil (h : Search o limit build? reason links t result es u) :
    withdrawals k es = [] := by
  induction h with
  | exhausted | accept => rfl
  | skip _ _ ih | refuse _ _ _ ih => exact ih

/-- In memory, a search under one key changes what is held there if a link is accepted, and nothing
else. -/
theorem held {e : Enumeration} {t u : Facilities}
    (h : Search (.inMemory e) limit build? reason links t result es u)
    (hk : ∀ link i, build? link = some i → i.key = k) (l : IntentKey) :
    u.framework.get? l =
      if k = l then (result.toOption.map (·.intent)).or (t.framework.get? l)
      else t.framework.get? l := by
  induction h with
  | exhausted => exact (ite_self _).symm
  | skip _ _ ih => exact ih
  | refuse hb hs _ ih =>
    obtain ⟨hanswer, rfl⟩ := Surroundings.submit_inMemory hs
    rwa [Framework.submit_error hanswer, Framework.get?_count] at ih
  | accept hb hs =>
    obtain ⟨hanswer, rfl⟩ := Surroundings.submit_inMemory hs
    rw [Framework.submit_ok hanswer, Framework.get?_take, hk _ _ hb]
    rfl

end Search

end IntentPlane
