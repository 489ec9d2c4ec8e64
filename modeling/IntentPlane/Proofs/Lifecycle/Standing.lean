import IntentPlane.Proofs.Concurrent.Atomicity
import IntentPlane.Proofs.Lifecycle.Removal
import IntentPlane.Proofs.LostWrites

/-!
# What creating a service leaves

Creating a service realizes one leg after another, and what comes of a leg is decided by the
registry and the answers of the framework, which no leg changes (`Decomposition.plan`). So what a
creation leaves is a list of imprints put one on another, and what there is when the creation is
given up is the first of them and half of the next. An imprint hides an earlier one of the same leg,
whatever came in between, which is why a creation can be repeated (`Standing.settleAll_settleAll`)
or taken up again (`Standing.settleAll_resume`).
-/

namespace IntentPlane

/-- The records, the index and the held intents. -/
@[ext]
structure Standing where
  record : ServiceId → Option ServiceRecord
  indexed : IntentKey → Option Intent
  held : IntentKey → Option Intent

def World.standing (w : World) : Standing := ⟨w.record, w.indexed, w.framework.get?⟩

def Scene.standing (x : Scene Facilities) : Standing := x.world.standing

theorem World.alike_iff {v v' : World} : v.Alike v' ↔ v.standing = v'.standing := by
  constructor
  · intro h
    ext1
    · exact funext h.record
    · exact funext h.indexed
    · exact funext h.held
  · intro h
    rw [standing, standing, Standing.mk.injEq] at h
    exact ⟨congrFun h.1, congrFun h.2.1, congrFun h.2.2⟩

/-- What a leg leaves that has links to try: its entry, and the intent that was accepted, if one
was. -/
structure Imprint where
  entry : KeyStatus
  intent? : Option Intent

namespace Imprint

def key (m : Imprint) : IntentKey := m.entry.key

/-- Puts the intent under its key, where it hides what was there. -/
def stamp (m : Imprint) (f : IntentKey → Option Intent) (k : IntentKey) : Option Intent :=
  if m.key = k then m.intent?.or (f k) else f k

variable {m n : Imprint} {f : IntentKey → Option Intent} {k : IntentKey}

theorem stamp_of_ne (h : m.key ≠ k) : m.stamp f k = f k := if_neg h

theorem stamp_stamp (m : Imprint) (f : IntentKey → Option Intent) :
    m.stamp (m.stamp f) = m.stamp f := by
  funext k
  unfold stamp
  split
  next => cases m.intent? <;> rfl
  next => rfl

theorem stamp_comm (h : m.key ≠ n.key) (f : IntentKey → Option Intent) :
    m.stamp (n.stamp f) = n.stamp (m.stamp f) := by
  funext k
  unfold stamp
  grind

end Imprint

/-! ## Imprints -/

namespace Standing

variable {s u : ServiceId} {t : Standing} {m n : Imprint} {ms ns : List Imprint} {k : IntentKey}

def recordOf (t : Standing) (s : ServiceId) : ServiceRecord := (t.record s).getD .empty

def setRecord (t : Standing) (s : ServiceId) (r : ServiceRecord) (u : ServiceId) :
    Option ServiceRecord :=
  if s = u then some r else t.record u

/-- After a leg of the service. -/
def settle (s : ServiceId) (t : Standing) (m : Imprint) : Standing where
  record := t.setRecord s ((t.recordOf s).upsert m.entry)
  indexed := m.stamp t.indexed
  held := m.stamp t.held

/-- After a leg of the service that is given up before its entry is written. The framework has heard
of it by then. -/
def halfway (s : ServiceId) (t : Standing) (m : Imprint) : Standing where
  record := t.setRecord s (t.recordOf s)
  indexed := t.indexed
  held := m.stamp t.held

def settleAll (s : ServiceId) (t : Standing) (ms : List Imprint) : Standing :=
  ms.foldl (settle s) t

@[simp] theorem recordOf_settle (s : ServiceId) (t : Standing) (m : Imprint) :
    (t.settle s m).recordOf s = (t.recordOf s).upsert m.entry := by
  simp [recordOf, settle, setRecord]

@[simp] theorem recordOf_halfway (s : ServiceId) (t : Standing) (m : Imprint) :
    (t.halfway s m).recordOf s = t.recordOf s := by
  simp [recordOf, halfway, setRecord]

theorem setRecord_settle (s : ServiceId) (t : Standing) (m : Imprint) (r : ServiceRecord) :
    (t.settle s m).setRecord s r = t.setRecord s r := by
  funext u
  simp only [setRecord, settle]
  split <;> rfl

theorem setRecord_halfway (s : ServiceId) (t : Standing) (m : Imprint) (r : ServiceRecord) :
    (t.halfway s m).setRecord s r = t.setRecord s r := by
  funext u
  simp only [setRecord, halfway]
  split <;> rfl

/-- A leg that was realized can be realized again to no effect. -/
theorem settle_settle (s : ServiceId) (t : Standing) (m : Imprint) :
    (t.settle s m).settle s m = t.settle s m := by
  ext1
  · change (t.settle s m).setRecord s (((t.settle s m).recordOf s).upsert m.entry) = _
    rw [setRecord_settle, recordOf_settle, ServiceRecord.upsert_upsert]
    rfl
  · exact m.stamp_stamp _
  · exact m.stamp_stamp _

/-- A leg that was given up halfway is realized as if it had not been begun. -/
theorem settle_halfway (s : ServiceId) (t : Standing) (m : Imprint) :
    (t.halfway s m).settle s m = t.settle s m := by
  ext1
  · change (t.halfway s m).setRecord s (((t.halfway s m).recordOf s).upsert m.entry) = _
    rw [setRecord_halfway, recordOf_halfway]
    rfl
  · rfl
  · exact m.stamp_stamp _

/-- A leg that has its entry already can be realized again before another or after it. -/
theorem settle_comm (hne : m.key ≠ n.key) (hm : m.key ∈ (t.recordOf s).keys) :
    (t.settle s n).settle s m = (t.settle s m).settle s n := by
  ext1
  · change (t.settle s n).setRecord s (((t.settle s n).recordOf s).upsert m.entry) =
      (t.settle s m).setRecord s (((t.settle s m).recordOf s).upsert n.entry)
    rw [setRecord_settle, setRecord_settle, recordOf_settle, recordOf_settle,
      ServiceRecord.upsert_comm hne hm]
  · exact Imprint.stamp_comm hne _
  · exact Imprint.stamp_comm hne _

theorem halfway_comm (hne : m.key ≠ n.key) :
    (t.halfway s m).settle s n = (t.settle s n).halfway s m := by
  ext1
  · change (t.halfway s m).setRecord s (((t.halfway s m).recordOf s).upsert n.entry) =
      (t.settle s n).setRecord s ((t.settle s n).recordOf s)
    rw [setRecord_halfway, setRecord_settle, recordOf_halfway, recordOf_settle]
  · rfl
  · exact Imprint.stamp_comm hne.symm _

theorem settleAll_append (s : ServiceId) (t : Standing) (ms ns : List Imprint) :
    t.settleAll s (ms ++ ns) = (t.settleAll s ms).settleAll s ns := List.foldl_append ..

theorem settle_settleAll (hm : m.key ∈ (t.recordOf s).keys) (hms : m.key ∉ ms.map (·.key)) :
    (t.settleAll s ms).settle s m = (t.settle s m).settleAll s ms := by
  induction ms generalizing t with
  | nil => rfl
  | cons n ms ih =>
    rw [List.map_cons, List.mem_cons, not_or] at hms
    have hn : m.key ∈ ((t.settle s n).recordOf s).keys := by
      rw [recordOf_settle]
      exact ServiceRecord.mem_keys_upsert hm
    exact (ih hn hms.2).trans (congrArg (settleAll s · ms) (settle_comm hms.1 hm))

theorem halfway_settleAll (hms : m.key ∉ ms.map (·.key)) :
    (t.halfway s m).settleAll s ms = (t.settleAll s ms).halfway s m := by
  induction ms generalizing t with
  | nil => rfl
  | cons n ms ih =>
    rw [List.map_cons, List.mem_cons, not_or] at hms
    exact (congrArg (settleAll s · ms) (halfway_comm hms.1)).trans (ih hms.2)

/-- Legs that were realized can be realized again to no effect. -/
theorem settleAll_settleAll (hms : (ms.map (·.key)).Nodup) :
    (t.settleAll s ms).settleAll s ms = t.settleAll s ms := by
  induction ms generalizing t with
  | nil => rfl
  | cons m ms ih =>
    rw [List.map_cons, List.nodup_cons] at hms
    have hm : m.key ∈ ((t.settle s m).recordOf s).keys := by
      rw [recordOf_settle]
      exact ServiceRecord.key_mem_keys_upsert ..
    -- The first leg is brought forward to where it was realized first, and has no effect there.
    change (((t.settle s m).settleAll s ms).settle s m).settleAll s ms = _
    rw [settle_settleAll hm hms.1, settle_settle]
    exact ih hms.2

/-- When a leg was given up halfway after others, realizing all of them does what it would have done
from the start. -/
theorem settleAll_resume (hms : ((ms ++ m :: ns).map (·.key)).Nodup) :
    ((t.settleAll s ms).halfway s m).settleAll s (ms ++ m :: ns) =
      t.settleAll s (ms ++ m :: ns) := by
  rw [List.map_append, List.map_cons, List.nodup_append] at hms
  obtain ⟨hnodup, -, hdisjoint⟩ := hms
  have hm : m.key ∉ ms.map (·.key) := fun hmem => hdisjoint _ hmem _ (.head _) rfl
  rw [settleAll_append, settleAll_append, halfway_settleAll hm, settleAll_settleAll hnodup]
  exact congrArg (settleAll s · ns) (settle_halfway s _ m)

/-! What is left of the rest -/

/-- Two standings say the same of a key of a service. -/
structure SameAt (s : ServiceId) (k : IntentKey) (t t' : Standing) : Prop where
  entry : (t'.recordOf s).get? k = (t.recordOf s).get? k
  indexed : t'.indexed k = t.indexed k
  held : t'.held k = t.held k

theorem SameAt.trans {t' t'' : Standing} (h : SameAt s k t t') (h' : SameAt s k t' t'') :
    SameAt s k t t'' :=
  ⟨h'.entry.trans h.entry, h'.indexed.trans h.indexed, h'.held.trans h.held⟩

theorem sameAt_settle (hk : m.key ≠ k) : SameAt s k t (t.settle s m) where
  entry := by
    rw [recordOf_settle, ServiceRecord.get?_upsert]
    exact if_neg hk
  indexed := Imprint.stamp_of_ne hk
  held := Imprint.stamp_of_ne hk

theorem sameAt_halfway (hk : m.key ≠ k) : SameAt s k t (t.halfway s m) :=
  ⟨by rw [recordOf_halfway], rfl, Imprint.stamp_of_ne hk⟩

theorem sameAt_settleAll (hk : k ∉ ms.map (·.key)) : SameAt s k t (t.settleAll s ms) := by
  induction ms generalizing t with
  | nil => exact ⟨rfl, rfl, rfl⟩
  | cons m ms ih =>
    rw [List.map_cons, List.mem_cons, not_or] at hk
    exact (sameAt_settle fun hmk => hk.1 hmk.symm).trans (ih hk.2)

theorem record_settleAll_of_ne (hu : s ≠ u) : (t.settleAll s ms).record u = t.record u := by
  induction ms generalizing t with
  | nil => rfl
  | cons m ms ih => exact ih.trans (if_neg hu)

theorem proper_settleAll {app : ApplicationId} (ht : (t.recordOf s).Proper app s)
    (hms : ∀ m ∈ ms, m.key.BelongsTo app s) : ((t.settleAll s ms).recordOf s).Proper app s := by
  induction ms generalizing t with
  | nil => exact ht
  | cons m ms ih =>
    rw [List.forall_mem_cons] at hms
    refine ih ?_ hms.2
    rw [recordOf_settle]
    exact ht.upsert hms.1

end Standing

/-! ## What is decided beforehand -/

/-- What the outcome of a leg depends on beside the demand: the endpoints behind the connection
points, and what is answered to submissions. -/
structure Terms where
  registry : Table ConnectionPoint (List Endpoint)
  reply : Intent → Except FrameworkError Submission

def Facilities.terms (f : Facilities) : Terms := ⟨f.registry, f.framework.reply⟩

theorem Surroundings.terms_answer (e : Enumeration) (access : Access) (x : Scene Facilities) :
    ((inMemory e).answer access x).2.outside.terms = x.outside.terms := by
  have hreply := reply_answer e access x
  cases access <;> exact congrArg (Terms.mk x.outside.registry) hreply

/-- No program changes the terms. -/
theorem Program.terms_run (e : Enumeration) (p : Program α) (x : Scene Facilities) :
    (p.run (Surroundings.inMemory e).answer x).2.outside.terms = x.outside.terms := by
  induction p generalizing x with
  | done => rfl
  | ask access next ih => exact (ih _ _).trans (Surroundings.terms_answer e access x)

theorem Surroundings.terms_eval {e : Enumeration} {m : ExceptT ε Program α}
    {x y : Scene Facilities} {result : Except ε α} (h : (inMemory e).eval m x = (result, y)) :
    y.outside.terms = x.outside.terms := by
  have hterms := Program.terms_run e m.run x
  rwa [show m.run.run (inMemory e).answer x = (result, y) from h] at hterms

namespace Terms

def usableAt (t : Terms) (point : ConnectionPoint) : Option (List Endpoint) :=
  Decomposition.usable? (.ok ((t.registry.get? point).getD []))

/-- How a search over links ends. -/
def search (t : Terms) (build? : CandidateLink → Option Intent) :
    String → List CandidateLink → Except String Acceptance
  | reason, [] => .error reason
  | reason, link :: links =>
    match build? link with
    | none => t.search build? reason links
    | some i =>
      match t.reply i with
      | .ok a => .ok ⟨link, i, a, links⟩
      | .error e => t.search build? e.message links

end Terms

variable {e : Enumeration}

theorem Facilities.terms_submit {limit : UInt64} {i : Intent} {f g : Facilities}
    {answer : Except FrameworkError Submission}
    (h : (Surroundings.inMemory e).submit limit i f = (answer, g)) :
    f.terms.reply i = answer ∧ g.terms = f.terms := by
  obtain ⟨hanswer, rfl⟩ := Surroundings.submit_inMemory h
  exact ⟨hanswer, congrArg (Terms.mk f.registry) (f.framework.reply_submit i)⟩

theorem Search.result_eq {limit : UInt64} {build? : CandidateLink → Option Intent}
    {reason : String} {links : List CandidateLink} {t u : Facilities}
    {result : Except String Acceptance} {es : List Exchange}
    (h : Search (.inMemory e) limit build? reason links t result es u) :
    result = t.terms.search build? reason links := by
  induction h with
  | exhausted => rfl
  | skip hb _ ih =>
    rw [Terms.search, hb]
    exact ih
  | refuse hb hs _ ih =>
    obtain ⟨hanswer, hterms⟩ := Facilities.terms_submit hs
    rw [Terms.search, hb]
    simp only [hanswer]
    rw [ih, hterms]
  | accept hb hs =>
    obtain ⟨hanswer, -⟩ := Facilities.terms_submit hs
    rw [Terms.search, hb]
    simp only [hanswer]

namespace Decomposition

open Surroundings (inMemory)

variable {d : Decomposition} {key : IntentKey} {leg : Leg} {p : Progress} {x y : Scene Facilities}
  {r : Outcome × Progress}

/-- What a search over the links of a leg leaves. -/
def imprint (key : IntentKey) : Except String Acceptance → Imprint
  | .ok a => ⟨⟨key, a.submission.status, a.untried, false⟩, some a.intent⟩
  | .error _ => ⟨.fresh key .failed, none⟩

/-- What comes of a leg after a search over its links. -/
def conclusion (key : IntentKey) (leg : Leg) (p : Progress) :
    Except String Acceptance → Outcome × Progress
  | .ok a => (.submitted key a.submission.status,
      { p with taken := take p.taken leg.bidirectional a.link })
  | .error reason => (.rejected key reason, p)

/-- What comes of a leg, and what it leaves. -/
def verdict (d : Decomposition) (t : Terms) (key : IntentKey) (leg : Leg) (p : Progress) :
    (Outcome × Progress) × Option Imprint :=
  match t.usableAt leg.source.point with
  | none => (unresolved key leg.source.point p, none)
  | some srcs =>
    match t.usableAt leg.destination.point with
    | none => (unresolved key leg.destination.point p, none)
    | some dsts =>
      let result := t.search (d.intent? key leg) "no usable candidate link"
        (candidates p.taken leg.bidirectional srcs dsts)
      (conclusion key leg p result, some (imprint key result))

/-- What comes of legs one after another, and what they leave. -/
def plan (d : Decomposition) (t : Terms) :
    List (IntentKey × Leg) → Progress → (List Outcome × Progress) × List Imprint
  | [], p => (([], p), [])
  | (key, leg) :: legs, p =>
    let first := d.verdict t key leg p
    let rest := d.plan t legs first.1.2
    ((first.1.1 :: rest.1.1, rest.1.2), first.2.toList ++ rest.2)

theorem key_imprint (key : IntentKey) (result : Except String Acceptance) :
    (imprint key result).key = key := by
  cases result <;> rfl

/-! ## Scenes and their standing -/

/-- What is held after a search under a key. -/
theorem held_search {limit : UInt64} {links : List CandidateLink}
    {result : Except String Acceptance} {es : List Exchange} {u : Facilities}
    (h : Search (inMemory e) limit (d.intent? key leg) reason links x.outside result es u) :
    u.framework.get? = (imprint key result).stamp x.standing.held := by
  funext k
  rw [h.held (k := key) fun _ _ => key_of_intent?]
  cases result <;> rfl

theorem eval_realizeOver_standing {links : List CandidateLink}
    (h : (inMemory e).eval (d.realizeOver key leg links p) x = (.ok r, y)) :
    r = conclusion key leg p
        (x.outside.terms.search (d.intent? key leg) "no usable candidate link" links) ∧
      y.standing = x.standing.settle d.service (imprint key
        (x.outside.terms.search (d.intent? key leg) "no usable candidate link" links)) := by
  rcases realizeOver_cases h with ⟨a, es, v, hsearch, rfl, rfl⟩ | ⟨reason, es, v, hsearch, rfl, rfl⟩
  · rw [← hsearch.result_eq]
    refine ⟨rfl, ?_⟩
    ext1
    · exact funext fun u => (x.hear v es).record_upsert d.service u _
    · exact funext fun k => Scene.indexed_setIndex _ key k a.intent
    · exact held_search hsearch
  · rw [← hsearch.result_eq]
    refine ⟨rfl, ?_⟩
    ext1
    · exact funext fun u => (x.hear v es).record_upsert d.service u _
    · exact funext fun k => (ite_self _).symm
    · exact held_search hsearch

theorem run_resolve_inMemory (e : Enumeration) (point : ConnectionPoint) (x : Scene Facilities) :
    ∃ es, (resolve point).run (inMemory e).answer x =
      (x.outside.terms.usableAt point, x.hear x.outside es) := by
  obtain ⟨answer, u, hanswer, hrun⟩ := run_resolve (o := inMemory e) point x
  cases hanswer
  exact ⟨_, hrun⟩

/-- Realizing a leg comes to what was decided beforehand. -/
theorem eval_realize_standing (h : (inMemory e).eval (d.realize key leg p) x = (.ok r, y)) :
    r = (d.verdict x.outside.terms key leg p).1 ∧
      y.standing =
        x.standing.settleAll d.service (d.verdict x.outside.terms key leg p).2.toList := by
  obtain ⟨es, hsrc⟩ := run_resolve_inMemory e leg.source.point x
  rw [realize, Surroundings.eval_lift_bind hsrc] at h
  rw [verdict]
  cases hs : x.outside.terms.usableAt leg.source.point with
  | none =>
    rw [hs] at h
    obtain ⟨hr, rfl⟩ := Prod.mk.inj h
    exact ⟨(Except.ok.inj hr).symm, rfl⟩
  | some srcs =>
    obtain ⟨fs, hdst⟩ := run_resolve_inMemory e leg.destination.point (x.hear x.outside es)
    rw [hs, Surroundings.eval_lift_bind hdst] at h
    rw [Scene.outside_hear] at h
    cases hd : x.outside.terms.usableAt leg.destination.point with
    | none =>
      rw [hd] at h
      obtain ⟨hr, rfl⟩ := Prod.mk.inj h
      exact ⟨(Except.ok.inj hr).symm, rfl⟩
    | some dsts =>
      rw [hd] at h
      exact eval_realizeOver_standing (x := (x.hear x.outside es).hear x.outside fs) h

theorem falters_realize (hpos : d.retries ≠ 0) :
    (inMemory e).Falters (d.realize key leg p) x fun y =>
      ∃ m ∈ (d.verdict x.outside.terms key leg p).2,
        y.standing = x.standing.halfway d.service m := by
  have hresolve (point : ConnectionPoint) :
      (resolve point).Keeps .unconditional fun _ => True := by
    refine .bind (unconditional_ask _ trivial) ?_
    rintro (e | a) - <;> exact trivial
  obtain ⟨es, hsrc⟩ := run_resolve_inMemory e leg.source.point x
  rw [realize, verdict]
  refine .lift_bind (hresolve _) hsrc ?_
  cases hs : x.outside.terms.usableAt leg.source.point with
  | none => exact .pure _
  | some srcs =>
    obtain ⟨fs, hdst⟩ := run_resolve_inMemory e leg.destination.point (x.hear x.outside es)
    refine .lift_bind (hresolve _) hdst ?_
    rw [Scene.outside_hear]
    cases hd : x.outside.terms.usableAt leg.destination.point with
    | none => exact .pure _
    | some dsts =>
      refine (falters_realizeOver hpos _).mono ?_
      rintro y ⟨result, gs, v, hsearch, rfl⟩
      change Search _ _ _ _ _ x.outside result gs v at hsearch
      refine ⟨_, rfl, ?_⟩
      rw [← hsearch.result_eq]
      ext1
      · exact funext fun u => Scene.record_ensure _ d.service u
      · rfl
      · exact held_search hsearch

/-- Realizing legs comes to what was planned. -/
theorem eval_realizeAll_standing {legs : List (IntentKey × Leg)} {r : List Outcome × Progress}
    (h : (inMemory e).eval (d.realizeAll legs p) x = (.ok r, y)) :
    r = (d.plan x.outside.terms legs p).1 ∧
      y.standing = x.standing.settleAll d.service (d.plan x.outside.terms legs p).2 := by
  induction legs generalizing p x r with
  | nil =>
    obtain ⟨hr, rfl⟩ := Prod.mk.inj h
    exact ⟨(Except.ok.inj hr).symm, rfl⟩
  | cons leg legs ih =>
    obtain ⟨key, leg⟩ := leg
    rw [realizeAll] at h
    obtain ⟨⟨outcome, p'⟩, z, hfirst, h⟩ := Surroundings.eval_bind_eq_ok h
    obtain ⟨⟨outcomes, q⟩, z', hrest, h⟩ := Surroundings.eval_bind_eq_ok h
    obtain ⟨hr, rfl⟩ := Prod.mk.inj h
    cases hr
    obtain ⟨hverdict, hstanding⟩ := eval_realize_standing hfirst
    obtain ⟨hplan, hstandings⟩ := ih hrest
    rw [Surroundings.terms_eval hfirst] at hplan hstandings
    simp only [plan, ← hverdict, ← hplan, true_and]
    rw [Standing.settleAll_append, ← hstanding, hstandings]

/-- Realizing legs is given up in the middle of one, with those before it done. -/
theorem falters_realizeAll (hpos : d.retries ≠ 0) (legs : List (IntentKey × Leg)) :
    (inMemory e).Falters (d.realizeAll legs p) x fun y => ∃ ms m ns,
      (d.plan x.outside.terms legs p).2 = ms ++ m :: ns ∧
        y.standing = (x.standing.settleAll d.service ms).halfway d.service m := by
  induction legs generalizing p x with
  | nil => exact .pure _
  | cons leg legs ih =>
    obtain ⟨key, leg⟩ := leg
    rw [realizeAll]
    refine .bind ((falters_realize hpos).mono fun y hy => ?_) fun r y hfirst => ?_
    · obtain ⟨m, hm, hstanding⟩ := hy
      refine ⟨[], m, (d.plan x.outside.terms legs
        (d.verdict x.outside.terms key leg p).1.2).2, ?_, hstanding⟩
      simp only [plan, Option.mem_def.mp hm]
      rfl
    · obtain ⟨hverdict, hstanding⟩ := eval_realize_standing hfirst
      refine .bind (ih.mono fun z hz => ?_) fun _ _ _ => .pure _
      obtain ⟨ms, m, ns, hplan, hhalf⟩ := hz
      rw [Surroundings.terms_eval hfirst] at hplan
      refine ⟨(d.verdict x.outside.terms key leg p).2.toList ++ ms, m, ns, ?_, ?_⟩
      · simp only [plan, ← hverdict, hplan, List.append_assoc]
      · rw [hhalf, hstanding, Standing.settleAll_append]

/-- No leg leaves more than one imprint, and that is of its key. -/
theorem key_mem_of_mem_verdict {t : Terms} {m : Imprint} (h : m ∈ (d.verdict t key leg p).2) :
    m.key = key := by
  rw [verdict] at h
  split at h
  · cases h
  · split at h
    · cases h
    · cases h
      exact key_imprint ..

theorem plan_sublist (t : Terms) (legs : List (IntentKey × Leg)) (p : Progress) :
    ((d.plan t legs p).2.map (·.key)).Sublist (legs.map (·.1)) := by
  induction legs generalizing p with
  | nil => exact .slnil
  | cons leg legs ih =>
    obtain ⟨key, leg⟩ := leg
    rw [plan, List.map_append, List.map_cons]
    cases hm : (d.verdict t key leg p).2 with
    | none => exact (ih _).cons _
    | some m =>
      have hkey : m.key = key := key_mem_of_mem_verdict hm
      rw [Option.toList_some, List.map_singleton, hkey]
      exact (ih _).cons_cons key

end Decomposition

end IntentPlane
