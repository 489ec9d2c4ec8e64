import IntentPlane.Proofs.Events
import IntentPlane.Proofs.Services.Separation

/-!
# Alternatives are tried once, and in order

The decomposer tries the candidate links of a leg until one is accepted, and records those it did
not get to. When the framework reports a failure, the event handler goes on where the search ended.
`Consumed` says how far the two got together: what was submitted are the first of the candidates,
and what is recorded are the rest. A realized leg starts so (`RealizesOver.consumed`), and events
about any intents keep it so (`Consumed.event`).
-/

namespace IntentPlane

variable {τ : Type} {o : Surroundings τ} {d : Decomposition} {k : IntentKey} {leg : Leg}
  {p q : Progress} {x y z : Scene τ} {es fs : List Exchange} {links : List CandidateLink}
  {outcomes : List Outcome} {previous : Option ServiceRequest} {validation : Validation}

namespace Decomposition

/-! ## Runs up to a leg -/

/-- A run of `d` from scene `x` comes to a leg and finds candidates for it: the links between the
usable endpoints behind its points, those with ends taken by earlier legs last. -/
def RealizesOver (o : Surroundings τ) (d : Decomposition) (x : Scene τ) (k : IntentKey) (leg : Leg)
    (links : List CandidateLink) : Prop :=
  ∃ before after outcomes p y srcs dsts u v, d.keyedLegs = before ++ (k, leg) :: after ∧
    o.eval (d.realizeAll before ⟨[], (d.legsOf d.request).2⟩) x = (.ok (outcomes, p), y) ∧
    o.resolve leg.source.point y.outside = (.ok srcs, u) ∧
    o.resolve leg.destination.point u = (.ok dsts, v) ∧
    usable srcs ≠ [] ∧ usable dsts ≠ [] ∧
    links = candidates p.taken leg.bidirectional (usable srcs) (usable dsts)

theorem eval_realizeAll_append {before after : List (IntentKey × Leg)}
    (h : o.eval (d.realizeAll (before ++ after) p) x = (.ok (outcomes, q), z)) :
    ∃ done p' y rest, o.eval (d.realizeAll before p) x = (.ok (done, p'), y) ∧
      o.eval (d.realizeAll after p') y = (.ok (rest, q), z) := by
  induction before generalizing p x outcomes with
  | nil => exact ⟨[], p, x, outcomes, rfl, h⟩
  | cons leg before ih =>
    obtain ⟨⟨outcome, p'⟩, y, hfirst, h⟩ := Surroundings.eval_bind_eq_ok h
    obtain ⟨⟨outcomes, q'⟩, z', hrest, h⟩ := Surroundings.eval_bind_eq_ok h
    cases h
    obtain ⟨done, p'', y', rest, hdone, hafter⟩ := ih hrest
    refine ⟨outcome :: done, p'', y', rest, ?_, hafter⟩
    exact (Surroundings.eval_bind_ok hfirst _).trans (Surroundings.eval_bind_ok hdone _)

/-- A run that installs realizes all legs first; what it does afterwards spares their keys. -/
theorem eval_run_install {report : Report} (hv : validation ≠ .delete)
    (h : o.eval (d.run previous validation) x = (.ok report, z)) :
    ∃ outcomes q y ws es,
      o.eval (d.realizeAll d.keyedLegs ⟨[], (d.legsOf d.request).2⟩) x = (.ok (outcomes, q), y) ∧
      d.Account y ws es z ∧ ∀ k ∈ d.plannedKeys d.request, k ∉ ws.map (·.key) := by
  rw [run] at h
  split at h
  · cases h
  change o.eval (d.perform previous validation) x = _ at h
  cases validation with
  | create =>
    obtain ⟨⟨outcomes, tracker⟩, y, hinstall, h⟩ := Surroundings.eval_bind_eq_ok h
    obtain ⟨⟨outcomes, q⟩, y, hall, hinstall⟩ := Surroundings.eval_bind_eq_ok hinstall
    cases hinstall
    cases h
    exact ⟨outcomes, q, z, [], [], hall, .nil, fun _ _ => List.not_mem_nil⟩
  | update =>
    obtain ⟨⟨outcomes, tracker⟩, y, hinstall, h⟩ := Surroundings.eval_bind_eq_ok h
    obtain ⟨⟨outcomes, q⟩, y, hall, hinstall⟩ := Surroundings.eval_bind_eq_ok hinstall
    cases hinstall
    obtain ⟨ws, z', hstale, h⟩ := Surroundings.eval_bind_eq_ok h
    cases h
    rw [eval_withdrawStale] at hstale
    have hwithdrawn := withdrawAll_cases hstale
    have hkeys := hwithdrawn.keys_eq
    have hnodup : (ws.map (·.key)).Nodup := hkeys ▸ (nodup_eraseDups _).filter _
    obtain ⟨es, hes⟩ := hwithdrawn.account hnodup
    refine ⟨outcomes, q, y, ws, es, hall, Account.ensure.append hes hnodup, ?_⟩
    intro k hk hmem
    rw [hkeys, List.mem_filter] at hmem
    simp [hk] at hmem
  | delete => exact absurd rfl hv

theorem eval_realize_resolved {srcs dsts : List Endpoint} {u v : τ}
    (hsrc : o.resolve leg.source.point x.outside = (.ok srcs, u))
    (hdst : o.resolve leg.destination.point u = (.ok dsts, v))
    (hsrcs : usable srcs ≠ []) (hdsts : usable dsts ≠ []) :
    o.eval (d.realize k leg p) x =
      o.eval (d.realizeOver k leg
          (candidates p.taken leg.bidirectional (usable srcs) (usable dsts)) p)
        (x.hear v [.resolve leg.source.point (.ok srcs),
          .resolve leg.destination.point (.ok dsts)]) := by
  have hfound : ∀ {found : List Endpoint}, usable found ≠ [] →
      usable? (.ok found) = some (usable found) := fun h => by
    rw [usable?, if_neg (by simpa using h)]
  obtain ⟨answer, u', hanswer, hrun⟩ := run_resolve (o := o) leg.source.point x
  obtain ⟨rfl, rfl⟩ := Prod.mk.inj (hanswer.symm.trans hsrc)
  rw [realize, Surroundings.eval_lift_bind hrun, hfound hsrcs]
  obtain ⟨answer, v', hanswer, hrun⟩ := run_resolve (o := o) leg.destination.point
    (x.hear u' [.resolve leg.source.point (.ok srcs)])
  obtain ⟨rfl, rfl⟩ := Prod.mk.inj (hanswer.symm.trans hdst)
  rw [Surroundings.eval_lift_bind hrun, hfound hdsts, Scene.hear_hear]
  rfl

/-! ## How far the candidates are consumed -/

/-- The first of the candidates for a key were submitted, and the rest are recorded. If any are
left, the intent accepted last was built for the leg. -/
structure Consumed (d : Decomposition) (k : IntentKey) (leg : Leg) (links : List CandidateLink)
    (es : List Exchange) (z : Scene τ) : Prop where
  tried : ∃ m e, m ≤ links.length ∧
    (submitted k es).map some = (links.take m).map (d.intent? k leg) ∧
    z.entry d.service k = some e ∧ e.links = links.drop m
  last : ∀ e, z.entry d.service k = some e → e.links ≠ [] →
    ∃ link i a, (accepted k es).getLast? = some (i, a) ∧ d.intent? k leg link = some i

namespace Consumed

theorem of_later (h : d.Consumed k leg links fs z) (before : Untouched k x es y) :
    d.Consumed k leg links (es ++ fs) z := by
  obtain ⟨htried, hlast⟩ := h
  have hsubmitted : submitted k (es ++ fs) = submitted k fs := by
    rw [submitted_append, before.submitted, List.nil_append]
  have haccepted : accepted k (es ++ fs) = accepted k fs := by
    rw [accepted_append, accepted_eq_nil before.submitted, List.nil_append]
  exact ⟨hsubmitted ▸ htried, haccepted ▸ hlast⟩

theorem of_earlier (h : d.Consumed k leg links es y) (after : Untouched k y fs z) :
    d.Consumed k leg links (es ++ fs) z := by
  obtain ⟨htried, hlast⟩ := h
  have hsubmitted : submitted k (es ++ fs) = submitted k es := by
    rw [submitted_append, after.submitted, List.append_nil]
  have haccepted : accepted k (es ++ fs) = accepted k es := by
    rw [accepted_append, accepted_eq_nil after.submitted, List.append_nil]
  rw [← after.entry] at htried hlast
  exact ⟨hsubmitted ▸ htried, haccepted ▸ hlast⟩

/-- A search over what is left goes on consuming, once its result is recorded. -/
theorem search {m : Nat} {limit : UInt64} {reason : String} {result : Except String Acceptance}
    {t u : τ} {e : KeyStatus} (hm : m ≤ links.length)
    (htried : (submitted k es).map some = (links.take m).map (d.intent? k leg))
    (hsearch : Search o limit (d.intent? k leg) reason (links.drop m) t result fs u)
    (husable : ∀ link ∈ links, link.isUsable = true)
    (hentry : z.entry d.service k = some e) (hleft : e.links = Search.untried result) :
    d.Consumed k leg links (es ++ fs) z := by
  obtain ⟨n, hn, htried', hleft'⟩ := hsearch.consumed
    (fun link hlink => Intent.isSome_ofLink?.trans (husable link (List.mem_of_mem_drop hlink)))
    fun _ _ => key_of_intent?
  constructor
  · refine ⟨m + n, e, ?_, ?_, hentry, ?_⟩
    · rw [List.length_drop] at hn
      omega
    · rw [submitted_append, List.map_append, htried, htried', List.take_add, List.map_append]
    · rw [hleft, hleft', List.drop_drop]
  · intro f hf hne
    rw [hentry] at hf
    cases hf
    cases result with
    | error => exact absurd hleft hne
    | ok a =>
      obtain ⟨-, -, hintent⟩ := hsearch.of_ok
      have haccepted := hsearch.accepted_of_ok
      rw [key_of_intent? hintent] at haccepted
      refine ⟨a.link, a.intent, a.submission, ?_, hintent⟩
      rw [accepted_append, haccepted, List.getLast?_concat]

end Consumed

/-- Realizing other legs leaves a key alone. -/
theorem untouched_of_realizeAll {legs : List (IntentKey × Leg)}
    (h : o.eval (d.realizeAll legs p) x = (.ok (outcomes, q), z))
    (hlegs : ∀ leg ∈ legs, leg ∈ d.keyedLegs) (hnodup : (legs.map (·.1)).Nodup)
    (hk : k ∉ legs.map (·.1)) : ∃ es, z.calls = x.calls ++ es ∧ Untouched k x es z := by
  have hall := realizeAll_cases h
  rw [← hall.keys_eq] at hnodup hk
  obtain ⟨es, hes⟩ := hall.account hlegs hnodup
  exact ⟨es, hes.calls, hes.untouched k hk⟩

theorem RealizesOver.isUsable (h : RealizesOver o d x k leg links) :
    ∀ link ∈ links, link.isUsable = true := by
  obtain ⟨before, after, outcomes, p, y, srcs, dsts, u, v, -, -, -, -, -, -, rfl⟩ := h
  exact fun _ => isUsable_of_mem_candidates

/-- Realizing a leg consumes the first of its candidates. -/
theorem consumed_of_realize {srcs dsts : List Endpoint} {u v : τ}
    (hsrc : o.resolve leg.source.point y.outside = (.ok srcs, u))
    (hdst : o.resolve leg.destination.point u = (.ok dsts, v))
    (hsrcs : usable srcs ≠ []) (hdsts : usable dsts ≠ []) {outcome : Outcome}
    (h : o.eval (d.realize k leg p) y = (.ok (outcome, q), z)) :
    ∃ es, z.calls = y.calls ++ es ∧ d.Consumed k leg
      (candidates p.taken leg.bidirectional (usable srcs) (usable dsts)) es z := by
  have hsearched {result es t e} (hsearch : Search o d.settings.submitTimeoutMs (d.intent? k leg)
      "no usable candidate link" _ v result es t) (hentry : z.entry d.service k = some e)
      (hleft : e.links = Search.untried result) : d.Consumed k leg
        (candidates p.taken leg.bidirectional (usable srcs) (usable dsts))
        ([.resolve leg.source.point (.ok srcs), .resolve leg.destination.point (.ok dsts)] ++ es)
        z :=
    .search (m := 0) (Nat.zero_le _) rfl hsearch (fun _ => isUsable_of_mem_candidates) hentry hleft
  rw [eval_realize_resolved hsrc hdst hsrcs hdsts] at h
  rcases realizeOver_cases h with
    ⟨a, es, t, hsearch, -, rfl⟩ | ⟨reason, es, t, hsearch, -, rfl⟩
  · exact ⟨_, by simp, hsearched (e := ⟨k, a.submission.status, a.untried, false⟩) hsearch
      (by simp [Scene.entry_upsert]) rfl⟩
  · exact ⟨_, by simp, hsearched (e := .fresh k .failed) hsearch
      (by simp [Scene.entry_upsert, KeyStatus.fresh]) rfl⟩

/-- A leg that is realized starts to consume its candidates, and the rest of the run leaves it at
that. -/
theorem RealizesOver.consumed (h : RealizesOver o d x k leg links) (hv : validation ≠ .delete)
    {report : Report} (hrun : o.eval (d.run previous validation) x = (.ok report, z)) :
    ∃ es, z.calls = x.calls ++ es ∧ d.Consumed k leg links es z := by
  obtain ⟨before, after, done, p, y, srcs, dsts, u, v, hlegs, hbefore, hsrc, hdst, hsrcs, hdsts,
    rfl⟩ := h
  have hnodup : (d.keyedLegs.map (·.1)).Nodup := keys_keyedLegs ▸ nodup_keys _
  rw [hlegs, List.map_append, List.map_cons, List.nodup_append, List.nodup_cons] at hnodup
  obtain ⟨hnodup, ⟨hnotafter, hnodup'⟩, hdisjoint⟩ := hnodup
  have hnotbefore : k ∉ before.map (·.1) := fun hk => hdisjoint k hk k (.head _) rfl
  have hplanned : k ∈ d.plannedKeys d.request := by
    rw [← keys_keyedLegs, hlegs]
    simp
  -- The run goes over the legs before, the leg itself, the legs after it, and stale keys.
  obtain ⟨outcomes, q, w, ws, fs, hall, haccount, hspared⟩ := eval_run_install hv hrun
  rw [hlegs] at hall
  obtain ⟨done', p', y', rest, hbefore', hfrom⟩ := eval_realizeAll_append hall
  cases hbefore.symm.trans hbefore'
  obtain ⟨⟨outcome, p'⟩, y', hleg, hfrom⟩ := Surroundings.eval_bind_eq_ok hfrom
  obtain ⟨⟨rest, q'⟩, w', hafter, hfrom⟩ := Surroundings.eval_bind_eq_ok hfrom
  cases hfrom
  obtain ⟨es, hes, hearlier⟩ := untouched_of_realizeAll hbefore
    (fun leg hmem => hlegs ▸ List.mem_append_left _ hmem) hnodup hnotbefore
  obtain ⟨es', hes', hlater⟩ := untouched_of_realizeAll hafter
    (fun leg hmem => hlegs ▸ List.mem_append_right _ (.tail _ hmem)) hnodup' hnotafter
  obtain ⟨gs, hgs, hconsumed⟩ := consumed_of_realize hsrc hdst hsrcs hdsts hleg
  have hleft := haccount.untouched k (hspared k hplanned)
  refine ⟨es ++ (gs ++ (es' ++ fs)), ?_, ?_⟩
  · rw [haccount.calls, hes', hgs, hes]
    simp [List.append_assoc]
  · exact (hconsumed.of_earlier (hlater.trans hleft)).of_later hearlier

/-! ## Events -/

theorem Consumed.entry (h : d.Consumed k leg links es y) : y.entry d.service k ≠ none := by
  obtain ⟨-, e, -, -, he, -⟩ := h.tried
  rw [he]
  exact Option.some_ne_none e

/-- As long as links are left, the intent accepted last is rebuilt as the leg would have it. -/
theorem Consumed.rebuildOver? (h : d.Consumed k leg links es y) {e : KeyStatus}
    (he : y.entry d.service k = some e) (hleft : e.links ≠ []) {intent : Intent}
    (hlast : ∀ i a, (accepted k es).getLast? = some (i, a) →
      ∃ path backup calculated, intent = i.withPaths path backup calculated) :
    intent.rebuildOver? = d.intent? k leg := by
  obtain ⟨link, i, a, haccepted, hintent⟩ := h.last e he hleft
  obtain ⟨path, backup, calculated, rfl⟩ := hlast i a haccepted
  funext other
  rw [Intent.rebuildOver?_withPaths, Intent.rebuildOver?_of_ofLink? hintent]
  rfl

/-- An event about a key goes on where the candidates were left. -/
theorem Consumed.event {limit : UInt64} {intent : Intent} {status : IntentStatus}
    {event : Option ServiceEvent} (h : d.Consumed k leg links es y) (hy : Reached d.app y)
    (husable : ∀ link ∈ links, link.isUsable = true) (hkey : intent.key = k)
    (hlast : ∀ i a, (accepted k es).getLast? = some (i, a) →
      ∃ path backup calculated, intent = i.withPaths path backup calculated)
    (hhandled : StatusEvents.Handled o limit intent status y event z) :
    ∃ fs, z.calls = y.calls ++ fs ∧ d.Consumed k leg links (es ++ fs) z := by
  subst hkey
  obtain ⟨m, e, hm, htried, he, hleft⟩ := h.tried
  -- The entry that the event is about is the one that records what is left.
  have hfound {s r current} (hr : y.record s = some r)
      (hcurrent : r.get? intent.key = some current) : s = d.service ∧ current = e := by
    have hentry : y.entry s intent.key = some current :=
      Option.bind_eq_some_iff.mpr ⟨r, hr, hcurrent⟩
    obtain rfl := hy.owner_unique (hentry ▸ Option.some_ne_none current) h.entry
    exact ⟨rfl, Option.some.inj (hentry.symm.trans he)⟩
  have hkey : e.key = intent.key := Scene.key_of_entry _ _ he
  cases hhandled with
  | unowned hnone => exact absurd (hnone d.service) h.entry
  | @recorded s r current next hr hcurrent _ hnext =>
    obtain ⟨rfl, rfl⟩ := hfound hr hcurrent
    subst hnext
    refine ⟨[], (List.append_nil _).symm, ?_⟩
    rw [List.append_nil]
    have hnext : (y.upsert d.service ((current.withStatus status).withCalculated
        intent.isCalculated)).entry d.service intent.key =
          some ((current.withStatus status).withCalculated intent.isCalculated) :=
      (Scene.entry_upsert ..).trans (if_pos ⟨rfl, hkey⟩)
    refine ⟨⟨m, _, hm, htried, hnext, hleft⟩, fun f hf hne => ?_⟩
    cases hnext.symm.trans hf
    exact h.last current he hne
  | @resubmitted s r current next a fs u hr hcurrent _ hsearch hnext =>
    obtain ⟨rfl, rfl⟩ := hfound hr hcurrent
    have hne : current.links ≠ [] := by
      obtain ⟨tried, hsplit, -⟩ := hsearch.of_ok
      simp [hsplit]
    rw [h.rebuildOver? he hne hlast, hleft] at hsearch
    refine ⟨fs, rfl, .search hm htried hsearch husable (e := next) ?_ (hnext ▸ rfl)⟩
    exact (Scene.entry_upsert ..).trans (if_pos ⟨rfl, by rw [hnext]; exact hkey⟩)
  | @exhausted s r current next reason fs u hr hcurrent _ hne hsearch hnext =>
    obtain ⟨rfl, rfl⟩ := hfound hr hcurrent
    rw [h.rebuildOver? he hne hlast, hleft] at hsearch
    refine ⟨fs, rfl, .search hm htried hsearch husable (e := next) ?_ (hnext ▸ rfl)⟩
    exact (Scene.entry_upsert ..).trans (if_pos ⟨rfl, by rw [hnext]; exact hkey⟩)

end Decomposition

/-- What may go on until a key is decomposed or withdrawn again: status events about any intents,
where one about the key carries the last intent accepted for it, with whatever paths; decompositions
that are not about the key; and anything outside. -/
inductive Ongoing (app : ApplicationId) (retries : UInt32) (k : IntentKey) (x : Scene τ) :
    Scene τ → Prop where
  | start : Ongoing app retries k x x
  | event {y : Scene τ} (o : Surroundings τ) (limit : UInt64) (intent : Intent)
      (status : IntentStatus) : Ongoing app retries k x y →
      (intent.key = k → ∀ i a, (accepted k y.calls).getLast? = some (i, a) →
        ∃ path backup calculated, intent = i.withPaths path backup calculated) →
      Ongoing app retries k x ((StatusEvents.handle retries limit intent status).run o.answer y).2
  | decompose {y : Scene τ} (o : Surroundings τ) (d : Decomposition)
      (previous : Option ServiceRequest) (validation : Validation) : Ongoing app retries k x y →
      d.app = app → d.retries = retries →
      (∀ report, (o.eval (d.run previous validation) y).1 = .ok report →
        k ∉ report.outcomes.map (·.key)) →
      Ongoing app retries k x (o.eval (d.run previous validation) y).2
  | change {y : Scene τ} (u : τ) : Ongoing app retries k x y →
      Ongoing app retries k x { y with outside := u }

theorem Ongoing.reached {app : ApplicationId} {retries : UInt32} (h : Ongoing app retries k x z)
    (hx : Reached app x) : Reached app z := by
  induction h with
  | start => exact hx
  | event o limit intent status _ _ ih => exact .event o retries limit intent status ih
  | decompose o d previous validation _ happ _ _ ih =>
    exact .decompose o d previous validation happ ih
  | change u _ ih => exact .change u ih

/-- Whatever goes on, candidates are consumed in order. -/
theorem Ongoing.consumed (h : Ongoing d.app d.retries k y z) (hretries : d.retries ≠ 0)
    (hy : Reached d.app y) (husable : ∀ link ∈ links, link.isUsable = true)
    (hcalls : y.calls = x.calls ++ es) (hconsumed : d.Consumed k leg links es y) :
    ∃ fs, z.calls = x.calls ++ fs ∧ d.Consumed k leg links fs z := by
  induction h with
  | start => exact ⟨es, hcalls, hconsumed⟩
  | @event w o limit intent status hw hlast ih =>
    obtain ⟨fs, hfs, hconsumed⟩ := ih
    obtain ⟨event, v, hrun, hhandled⟩ :=
      StatusEvents.run_handle o limit intent status w hretries
    rw [hrun]
    by_cases hkey : intent.key = k
    · have hlast' : ∀ i a, (accepted k fs).getLast? = some (i, a) →
          ∃ path backup calculated, intent = i.withPaths path backup calculated := by
        intro i a hi
        refine hlast hkey i a ?_
        rw [hfs, accepted_append, List.getLast?_append, hi, Option.some_or]
      obtain ⟨gs, hgs, hconsumed⟩ :=
        hconsumed.event (hw.reached hy) husable hkey hlast' hhandled
      exact ⟨fs ++ gs, by rw [hgs, hfs, List.append_assoc], hconsumed⟩
    · obtain ⟨gs, hgs, huntouched⟩ := hhandled.untouched hkey
      exact ⟨fs ++ gs, by rw [hgs, hfs, List.append_assoc], hconsumed.of_earlier huntouched⟩
  | @decompose w o d' previous validation hw _ hretries' hnone ih =>
    obtain ⟨fs, hfs, hconsumed⟩ := ih
    rcases Decomposition.eval_run_cases (o := o) (x := w) (hretries' ▸ hretries) previous
      validation with h | ⟨report, v, h⟩
    · rw [h]
      exact ⟨fs, hfs, hconsumed⟩
    · obtain ⟨-, gs, haccount⟩ := (Decomposition.ran_of_eval h).account
      rw [h] at hnone ⊢
      refine ⟨fs ++ gs, by rw [haccount.calls, hfs, List.append_assoc], ?_⟩
      exact hconsumed.of_earlier (haccount.untouched k (hnone report rfl))
  | change u _ ih =>
    obtain ⟨fs, hfs, htried, hlast⟩ := ih
    exact ⟨fs, hfs, htried, hlast⟩

/-- Decomposer and event handler together try each candidate link of a leg at most once, in order:
at all times, the submissions for its key are the intents built from the first of the candidates,
and the links recorded are the rest. -/
theorem links_tried_in_order (hx : Reached d.app x) (hretries : d.retries ≠ 0)
    (hv : validation ≠ .delete) {report : Report}
    (hrun : o.eval (d.run previous validation) x = (.ok report, y))
    (hlinks : d.RealizesOver o x k leg links) (hz : Ongoing d.app d.retries k y z) :
    ∃ m es e, m ≤ links.length ∧ z.calls = x.calls ++ es ∧
      (submitted k es).map some = (links.take m).map (fun link =>
        Intent.ofLink? k link d.settings.intentModel (d.constraints leg)
          d.settings.intentPriority) ∧
      z.entry d.service k = some e ∧ e.links = links.drop m := by
  obtain ⟨es, hes, hconsumed⟩ := hlinks.consumed hv hrun
  have hy : Reached d.app y := by
    have hreached := Reached.decompose o d previous validation rfl hx
    rwa [hrun] at hreached
  obtain ⟨fs, hfs, hconsumed⟩ := hz.consumed hretries hy hlinks.isUsable hes hconsumed
  obtain ⟨m, e, hm, htried, he, hleft⟩ := hconsumed.tried
  exact ⟨m, fs, e, hm, hfs, htried, he, hleft⟩

/-! A path with one endpoint at its start and two at its end. -/

def twoEnds : Scene Facilities where
  records := .empty
  index := .empty
  outside := ⟨(Table.empty.insert ⟨"a"⟩ [.eth "1" none ⟨"x"⟩ 1]).insert ⟨"b"⟩
    [.eth "2" none ⟨"y"⟩ 1, .eth "3" none ⟨"z"⟩ 1], .empty⟩
  calls := []

def twoEndsLinks : List CandidateLink :=
  [⟨.eth "1" none ⟨"x"⟩ 1, .eth "2" none ⟨"y"⟩ 1⟩, ⟨.eth "1" none ⟨"x"⟩ 1, .eth "3" none ⟨"z"⟩ 1⟩]

def twoEndsKey : IntentKey := Decomposition.onePath.key 1

def twoEndsLeg : Leg := ⟨⟨⟨"a"⟩, []⟩, ⟨⟨"b"⟩, []⟩, true⟩

/-- The path as created. -/
def twoEndsCreated : Scene Facilities :=
  ((Surroundings.inMemory .inserted).eval (Decomposition.onePath.run none .create) twoEnds).2

/-- The path after its intent was reported to have failed. -/
def twoEndsFailed : Scene Facilities :=
  ((StatusEvents.handle 1 5000
    ⟨twoEndsKey, ⟨none, none⟩, Decomposition.onePath.constraints twoEndsLeg, 100,
      .connectivity ⟨"1/None"⟩ ⟨"2/None"⟩⟩ .failed).run
        (Surroundings.inMemory .inserted).answer twoEndsCreated).2

/-- The path goes over its first link and, after the failure, over its second. -/
theorem twoEnds_tried_in_order :
    (submitted twoEndsKey twoEndsFailed.calls).length = 2 ∧
      ∃ m es e, m ≤ twoEndsLinks.length ∧ twoEndsFailed.calls = [] ++ es ∧
        (submitted twoEndsKey es).map some = (twoEndsLinks.take m).map
          (fun link => Intent.ofLink? twoEndsKey link .legacy
            (Decomposition.onePath.constraints twoEndsLeg) 100) ∧
        twoEndsFailed.entry Decomposition.onePath.service twoEndsKey = some e ∧
        e.links = twoEndsLinks.drop m := by
  have hrun : (Surroundings.inMemory .inserted).eval (Decomposition.onePath.run none .create)
      twoEnds = (.ok ⟨⟨"s", by decide⟩, .create, [.submitted twoEndsKey .installReq], []⟩,
        twoEndsCreated) := rfl
  have hlinks : Decomposition.onePath.RealizesOver (.inMemory .inserted) twoEnds twoEndsKey
      twoEndsLeg twoEndsLinks :=
    ⟨[], [], [], _, _, _, _, _, _, rfl, rfl, rfl, rfl, by decide, by decide, rfl⟩
  have hfailed : Ongoing Decomposition.onePath.app Decomposition.onePath.retries twoEndsKey
      twoEndsCreated twoEndsFailed := by
    refine .event (.inMemory .inserted) _ _ _ .start fun _ i a hlast => ?_
    obtain ⟨rfl, -⟩ := Prod.mk.inj (Option.some.inj hlast)
    exact ⟨none, none, false, rfl⟩
  exact ⟨rfl, links_tried_in_order (.start _) (by decide) (by decide) hrun hlinks hfailed⟩

end IntentPlane
