import IntentPlane.Proofs.Concurrent.Decompositions
import IntentPlane.Proofs.InMemory

/-!
# Which links a run prefers

A run visits one leg after another, and what it submits for a leg depends on the earlier legs: links
between endpoints that no accepted link has taken come first (`preference`). A `Visit` is what the
accesses of a run say of one leg, so the endpoints taken are read off the earlier visits
(`takenBy`), and the run's own list of them is the same up to order (`mem_take`). Nothing is
supposed of the registry, the framework or the store, so this holds of a run among others, too, and
of one that is given up because a record cannot be written.
-/

namespace IntentPlane

/-! ## Preferences -/

/-- Whether a link ends in an endpoint that is taken. The source counts only where the leg carries
traffic both ways. -/
def Reuses (taken : List Endpoint) (bidirectional : Bool) (link : CandidateLink) : Prop :=
  link.dst ∈ taken ∨ bidirectional = true ∧ link.src ∈ taken

instance (taken : List Endpoint) (bidirectional : Bool) :
    DecidablePred (Reuses taken bidirectional) := fun link =>
  inferInstanceAs (Decidable (link.dst ∈ taken ∨ bidirectional = true ∧ link.src ∈ taken))

/-- The links between two lists of endpoints, those that reuse an endpoint after the others. -/
def preference (taken : List Endpoint) (bidirectional : Bool) (srcs dsts : List Endpoint) :
    List CandidateLink :=
  (CandidateLink.product srcs dsts).filter (fun link => ¬Reuses taken bidirectional link) ++
    (CandidateLink.product srcs dsts).filter (Reuses taken bidirectional)

section Preference

variable {taken taken' srcs dsts : List Endpoint} {bidirectional : Bool}

theorem perm_preference (taken : List Endpoint) (bidirectional : Bool)
    (srcs dsts : List Endpoint) :
    (preference taken bidirectional srcs dsts).Perm (CandidateLink.product srcs dsts) := by
  have h := List.filter_append_perm (fun link => ¬Reuses taken bidirectional link)
    (CandidateLink.product srcs dsts)
  simpa [preference] using h

/-- Only which endpoints are taken counts. -/
theorem candidates_eq_preference (h : ∀ e, e ∈ taken ↔ e ∈ taken') :
    Decomposition.candidates taken bidirectional srcs dsts =
      preference taken' bidirectional srcs dsts := by
  have htaken (link : CandidateLink) : Decomposition.isTaken taken bidirectional link =
      decide (Reuses taken' bidirectional link) := by
    rw [Bool.eq_iff_iff, decide_eq_true_iff]
    simp [Decomposition.isTaken, Reuses, h]
  rw [Decomposition.candidates, preference, funext htaken]
  simp only [decide_not]

theorem mem_take {link : CandidateLink} {e : Endpoint} :
    e ∈ Decomposition.take taken bidirectional link ↔
      e ∈ taken ∨ e = link.dst ∨ bidirectional = true ∧ e = link.src := by
  cases bidirectional <;> simp [Decomposition.take, List.mem_insert_iff] <;> tauto

/-- A link that reuses an endpoint comes after all those that do not. -/
theorem mem_of_reuses {earlier later : List CandidateLink} {link other : CandidateLink}
    (h : preference taken bidirectional srcs dsts = earlier ++ link :: later)
    (hlink : Reuses taken bidirectional link) (hother : other ∈ CandidateLink.product srcs dsts)
    (hfree : ¬Reuses taken bidirectional other) : other ∈ earlier := by
  have hmem : other ∈ (CandidateLink.product srcs dsts).filter
      (fun link => ¬Reuses taken bidirectional link) := by
    simp [hother, hfree]
  rcases append_eq_append_cons h with ⟨m, hfront, -⟩ | ⟨m, rfl, -⟩
  · have hin : link ∈ (CandidateLink.product srcs dsts).filter
        (fun link => ¬Reuses taken bidirectional link) := by
      rw [hfront]
      exact List.mem_append_right _ (.head _)
    have := (List.mem_filter.mp hin).2
    simp [hlink] at this
  · exact List.mem_append_left _ hmem

end Preference

/-! ## Visits -/

/-- A submission over a link, and the answer to it. -/
structure Try where
  link : CandidateLink
  intent : Intent
  answer : Except FrameworkError Submission

namespace Try

def isAccepted (t : Try) : Bool := t.answer.isOk

def deed (limit : UInt64) (t : Try) : Deed := ⟨.submit limit t.intent, t.answer⟩

end Try

/-- What a run does for one leg: it asks for endpoints, tries links, and writes down what came of
it. There is no outcome where that could not be written. -/
structure Visit where
  key : IntentKey
  leg : Leg
  asks : List Deed
  tries : List Try
  puts : List Deed
  outcome? : Option Outcome

namespace Visit

def deeds (limit : UInt64) (v : Visit) : List Deed :=
  v.asks ++ (v.tries.map (Try.deed limit) ++ v.puts)

/-- The endpoints of the link that was accepted, if one was: its destination, and its source where
the leg carries traffic both ways. -/
def takes (v : Visit) : List Endpoint :=
  (v.tries.filter (·.isAccepted)).flatMap fun t =>
    if v.leg.bidirectional then [t.link.dst, t.link.src] else [t.link.dst]

/-- That an entry is written down and then some accesses follow, or that it cannot be written. -/
def Records (d : Decomposition) (v : Visit) (e : KeyStatus) (after : List Deed)
    (outcome : Outcome) : Prop :=
  (∃ writing, d.Records e writing ∧ v.puts = writing ++ after ∧ v.outcome? = some outcome) ∨
    ∃ error, StatusStore.Rounds (.contended d.service d.retries) .create d.service (·.upsert e)
      d.retries.toNat v.puts (.error error) ∧ v.outcome? = none

/-- That links are tried in order up to the first acceptance, and the rest of them recorded; or, if
none is accepted, that the reason is that of the last refusal. -/
inductive Tries (d : Decomposition) (v : Visit) (links : List CandidateLink) : Prop where
  | accepted {refused : List Try} {t : Try} {a : Submission} {untried : List CandidateLink} :
      v.tries = refused ++ [t] → (∀ u ∈ refused, u.isAccepted = false) → t.answer = .ok a →
      links = v.tries.map (·.link) ++ untried →
      v.Records d ⟨v.key, a.status, untried, false⟩ [⟨.indexIntent v.key t.intent, ()⟩]
        (.submitted v.key a.status) →
      Tries d v links
  | refused {refused : List Try} {t : Try} {e : FrameworkError} :
      v.tries = refused ++ [t] → (∀ u ∈ refused, u.isAccepted = false) → t.answer = .error e →
      links = v.tries.map (·.link) →
      v.Records d (.fresh v.key .failed) [] (.rejected v.key e.message) →
      Tries d v links

/-- That nothing is tried for want of an endpoint behind a point. -/
def IsIdle (v : Visit) (point : ConnectionPoint) : Prop :=
  v.tries = [] ∧ v.puts = [] ∧ v.outcome? = some (.endpointNotFound v.key point)

/-- That a visit is as it should be with the endpoints that are taken: if both points of the leg
resolve, links are tried in order of preference, each with the intent built from it. -/
inductive Follows (d : Decomposition) (taken : List Endpoint) (v : Visit) : Prop where
  | noSource {answer : Except RegistryError (List Endpoint)} :
      v.asks = [⟨.resolve v.leg.source.point, answer⟩] → Decomposition.usable? answer = none →
      v.IsIdle v.leg.source.point → Follows d taken v
  | noDestination {answer answer' : Except RegistryError (List Endpoint)} :
      v.asks = [⟨.resolve v.leg.source.point, answer⟩,
        ⟨.resolve v.leg.destination.point, answer'⟩] →
      Decomposition.usable? answer' = none → v.IsIdle v.leg.destination.point → Follows d taken v
  | resolved {answer answer' : Except RegistryError (List Endpoint)} {srcs dsts : List Endpoint} :
      v.asks = [⟨.resolve v.leg.source.point, answer⟩,
        ⟨.resolve v.leg.destination.point, answer'⟩] →
      Decomposition.usable? answer = some srcs → Decomposition.usable? answer' = some dsts →
      (∀ t ∈ v.tries, d.intent? v.key v.leg t.link = some t.intent) →
      v.Tries d (preference taken v.leg.bidirectional srcs dsts) →
      Follows d taken v

/-- That a visit has the outcome that the run of its leg ends with, and takes what is taken by
then. -/
def Ends (v : Visit) (p : Progress) : Except DecomposeError (Outcome × Progress) → Prop
  | .ok (outcome, q) =>
    v.outcome? = some outcome ∧ ∀ e, e ∈ q.taken ↔ e ∈ p.taken ∨ e ∈ v.takes
  | .error _ => v.outcome? = none

theorem takes_eq_nil {v : Visit} (h : ∀ t ∈ v.tries, t.isAccepted = false) : v.takes = [] := by
  rw [takes, List.filter_eq_nil_iff.mpr fun t ht => by simp [h t ht], List.flatMap_nil]

theorem takes_of_accepted {v : Visit} {refused : List Try} {t : Try}
    (htries : v.tries = refused ++ [t]) (hrefused : ∀ u ∈ refused, u.isAccepted = false)
    (ht : t.isAccepted = true) :
    v.takes = if v.leg.bidirectional then [t.link.dst, t.link.src] else [t.link.dst] := by
  rw [takes, htries, List.filter_append,
    List.filter_eq_nil_iff.mpr fun u hu => by simp [hrefused u hu], List.filter_cons_of_pos ht]
  simp

/-- A link that reuses an endpoint is accepted only after all that reuse none were refused. -/
theorem Tries.refused_of_reuses {d : Decomposition} {v : Visit} {taken srcs dsts : List Endpoint}
    {bidirectional : Bool} {t : Try} {link : CandidateLink}
    (h : v.Tries d (preference taken bidirectional srcs dsts)) (ht : t ∈ v.tries)
    (haccepted : t.isAccepted = true) (hreuses : Reuses taken bidirectional t.link)
    (hlink : link ∈ CandidateLink.product srcs dsts) (hfree : ¬Reuses taken bidirectional link) :
    ∃ u ∈ v.tries, u.link = link ∧ u.isAccepted = false := by
  cases h with
  | @accepted refused last a untried htries hrefused hanswer hlinks hrecords =>
    rw [htries] at ht ⊢
    rcases List.mem_append.mp ht with ht | ht
    · rw [hrefused t ht] at haccepted
      cases haccepted
    obtain rfl := List.mem_singleton.mp ht
    rw [htries, List.map_append, List.append_assoc] at hlinks
    obtain ⟨u, hu, rfl⟩ := List.mem_map.mp (mem_of_reuses hlinks hreuses hlink hfree)
    exact ⟨u, List.mem_append_left _ hu, rfl, hrefused u hu⟩
  | @refused refused last e htries hrefused hanswer hlinks hrecords =>
    rw [htries] at ht
    rcases List.mem_append.mp ht with ht | ht
    · rw [hrefused t ht] at haccepted
      cases haccepted
    · obtain rfl := List.mem_singleton.mp ht
      rw [Try.isAccepted, hanswer] at haccepted
      cases haccepted

/-- Only which endpoints are taken counts. -/
theorem Follows.congr {d : Decomposition} {taken taken' : List Endpoint} {v : Visit}
    (h : ∀ e, e ∈ taken ↔ e ∈ taken') (hv : v.Follows d taken) : v.Follows d taken' := by
  have hprefer (srcs dsts : List Endpoint) : preference taken v.leg.bidirectional srcs dsts =
      preference taken' v.leg.bidirectional srcs dsts := by
    rw [← candidates_eq_preference fun _ => Iff.rfl, candidates_eq_preference h]
  cases hv with
  | noSource hasks hnone hidle => exact .noSource hasks hnone hidle
  | noDestination hasks hnone hidle => exact .noDestination hasks hnone hidle
  | resolved hasks hsrcs hdsts hintents htries =>
    exact .resolved hasks hsrcs hdsts hintents (hprefer _ _ ▸ htries)

end Visit

/-- The endpoints that visits take. -/
def takenBy (visits : List Visit) : List Endpoint := visits.flatMap Visit.takes

/-- That each visit is as it should be with what was taken before all and by the earlier ones. -/
def FollowInTurn (d : Decomposition) (taken : List Endpoint) (visits : List Visit) : Prop :=
  ∀ earlier v later, visits = earlier ++ v :: later → v.Follows d (taken ++ takenBy earlier)

theorem followInTurn_nil {d : Decomposition} {taken : List Endpoint} : FollowInTurn d taken [] :=
  fun earlier v later h => by simp at h

theorem FollowInTurn.cons {d : Decomposition} {taken taken' : List Endpoint} {v : Visit}
    {visits : List Visit} (hv : v.Follows d taken)
    (htaken : ∀ e, e ∈ taken' ↔ e ∈ taken ∨ e ∈ v.takes)
    (hvisits : FollowInTurn d taken' visits) : FollowInTurn d taken (v :: visits) := by
  intro earlier u later h
  cases earlier with
  | nil =>
    obtain ⟨rfl, -⟩ := List.cons.inj h
    rwa [takenBy, List.flatMap_nil, List.append_nil]
  | cons w earlier =>
    obtain ⟨rfl, hrest⟩ := List.cons.inj h
    refine (hvisits earlier u later hrest).congr fun e => ?_
    simp [takenBy, htaken, or_assoc]

/-! ## Searches -/

section Searches

variable {limit : UInt64} {build? : CandidateLink → Option Intent} {links : List CandidateLink}
  {ds : List Deed}

/-- A search that succeeds ends with the first acceptance. -/
theorem tries_of_accepted {a : Acceptance} (h : Seeks limit build? links ds (.ok a))
    (hbuild : ∀ link ∈ links, (build? link).isSome) :
    ∃ refused : List Try, ds = refused.map (Try.deed limit) ++
        [⟨.submit limit a.intent, .ok a.submission⟩] ∧ (∀ u ∈ refused, u.isAccepted = false) ∧
      (∀ u ∈ refused, build? u.link = some u.intent) ∧ build? a.link = some a.intent ∧
      links = refused.map (·.link) ++ a.link :: a.untried := by
  generalize hr : Except.ok a = result at h
  induction h with
  | exhausted => cases hr
  | skip hnone => simp [hnone] at hbuild
  | @refuse link i links ds result e hb _ ih =>
    obtain ⟨refused, rfl, hrefused, hintents, ha, rfl⟩ :=
      ih (fun l hl => hbuild l (.tail _ hl)) hr
    exact ⟨⟨link, i, .error e⟩ :: refused, rfl, List.forall_mem_cons.mpr ⟨rfl, hrefused⟩,
      List.forall_mem_cons.mpr ⟨hb, hintents⟩, ha, rfl⟩
  | accept hb =>
    cases hr
    exact ⟨[], rfl, List.forall_mem_nil _, List.forall_mem_nil _, hb, rfl⟩

/-- A search that fails had all links refused, the last one for the reason given. -/
theorem tries_of_refused {reason r : String}
    (h : (submitFirst limit build? reason links).Yields ds (.error r))
    (hbuild : ∀ link ∈ links, (build? link).isSome) :
    ∃ tries : List Try, ds = tries.map (Try.deed limit) ∧ (∀ u ∈ tries, u.isAccepted = false) ∧
      (∀ u ∈ tries, build? u.link = some u.intent) ∧ links = tries.map (·.link) ∧
      (tries = [] ∧ r = reason ∨
        ∃ earlier t e, tries = earlier ++ [t] ∧ t.answer = .error e ∧ r = e.message) := by
  induction links generalizing reason ds with
  | nil =>
    obtain ⟨rfl, hr⟩ := Program.yields_pure.mp h
    exact ⟨[], rfl, List.forall_mem_nil _, List.forall_mem_nil _, rfl,
      .inl ⟨rfl, Except.error.inj hr⟩⟩
  | cons link links ih =>
    obtain ⟨i, hb⟩ := Option.isSome_iff_exists.mp (hbuild link (.head _))
    rw [submitFirst] at h
    simp only [hb] at h
    obtain ⟨e | a, rest, rfl, hrest⟩ := Program.yields_access_bind.mp h
    · obtain ⟨tries, rfl, hrefused, hintents, rfl, hlast⟩ :=
        ih hrest fun l hl => hbuild l (.tail _ hl)
      refine ⟨⟨link, i, .error e⟩ :: tries, rfl, List.forall_mem_cons.mpr ⟨rfl, hrefused⟩,
        List.forall_mem_cons.mpr ⟨hb, hintents⟩, rfl, .inr ?_⟩
      rcases hlast with ⟨rfl, rfl⟩ | ⟨earlier, t, e', rfl, ht, rfl⟩
      · exact ⟨[], _, e, rfl, rfl, rfl⟩
      · exact ⟨_ :: earlier, t, e', rfl, ht, rfl⟩
    · obtain ⟨-, hr⟩ := Program.yields_pure.mp hrest
      cases hr

end Searches

namespace Decomposition

variable {d : Decomposition} {key : IntentKey} {leg : Leg} {p : Progress} {ds : List Deed}

/-- An entry is written down and the run goes on, or it is given up. -/
theorem record_bind_cases {e : KeyStatus} {f : Unit → ExceptT DecomposeError Program α}
    {result : Except DecomposeError α} (h : (d.record e >>= f).run.Yields ds result) :
    (∃ writing rest, ds = writing ++ rest ∧ d.Records e writing ∧
        (f ()).run.Yields rest result) ∨
      ∃ error, result = .error (.store error) ∧
        StatusStore.Rounds (.contended d.service d.retries) .create d.service (·.upsert e)
          d.retries.toNat ds (.error error) := by
  rcases Program.yields_bind_except.mp h with
    ⟨writing, ⟨⟩, rest, rfl, hwriting, hrest⟩ | ⟨error, rfl, herror⟩
  · exact .inl ⟨writing, rest, rfl, records_of_yields hwriting, hrest⟩
  · obtain ⟨ds₁, written, ds₂, rfl, hupdate, hend⟩ := Program.yields_lift_bind.mp herror
    obtain ⟨written, hwritten, rfl⟩ := Program.yields_map.mp hupdate
    have hrounds := StatusStore.rounds_of_attempt hwritten
    rcases written with failure | r
    · obtain ⟨rfl, hresult⟩ := Program.yields_pure.mp hend
      cases hresult
      rw [List.append_nil]
      exact .inr ⟨failure, rfl, hrounds⟩
    · obtain ⟨-, hresult⟩ := Program.yields_pure.mp hend
      cases hresult

/-! ## Legs -/

theorem visit_of_realizeOver (asks : List Deed) {links : List CandidateLink}
    {result : Except DecomposeError (Outcome × Progress)} (hne : links ≠ [])
    (hbuild : ∀ link ∈ links, (d.intent? key leg link).isSome)
    (h : (d.realizeOver key leg links p).run.Yields ds result) :
    ∃ v : Visit, v.key = key ∧ v.leg = leg ∧ v.asks = asks ∧
      v.deeds d.settings.submitTimeoutMs = asks ++ ds ∧
      (∀ t ∈ v.tries, d.intent? key leg t.link = some t.intent) ∧ v.Tries d links ∧
      v.Ends p result := by
  obtain ⟨ds₁, found, rest, rfl, hsearch, hrest⟩ := Program.yields_lift_bind.mp h
  cases found with
  | ok a =>
    obtain ⟨refused, rfl, hrefused, hintents, ha, rfl⟩ :=
      tries_of_accepted (seeks_of_submitFirst hsearch) hbuild
    let last : Try := ⟨a.link, a.intent, .ok a.submission⟩
    have htries : ∀ t ∈ refused ++ [last], d.intent? key leg t.link = some t.intent :=
      List.forall_mem_append.mpr ⟨hintents, List.forall_mem_singleton.mpr ha⟩
    rcases record_bind_cases hrest with
      ⟨puts, rest, rfl, hputs, hindex⟩ | ⟨error, rfl, hrounds⟩
    · obtain ⟨indexing, ⟨⟩, rest, rfl, hindexing, hend⟩ := Program.yields_lift_bind.mp hindex
      obtain rfl := Program.yields_access.mp hindexing
      obtain ⟨rfl, rfl⟩ := Program.yields_pure.mp hend
      refine ⟨⟨key, leg, asks, refused ++ [last], puts ++ [⟨.indexIntent key a.intent, ()⟩],
        some (.submitted key a.submission.status)⟩, rfl, rfl, rfl, ?_, htries,
        .accepted rfl hrefused rfl (by simp [last]) (.inl ⟨puts, hputs, rfl, rfl⟩),
        rfl, fun e => ?_⟩
      · simp [Visit.deeds, Try.deed, last]
      · rw [mem_take, Visit.takes_of_accepted rfl hrefused rfl]
        cases leg.bidirectional <;> simp [last]
    · refine ⟨⟨key, leg, asks, refused ++ [last], rest, none⟩, rfl, rfl, rfl, ?_, htries,
        .accepted rfl hrefused rfl (by simp [last]) (.inr ⟨error, hrounds, rfl⟩), rfl⟩
      simp [Visit.deeds, Try.deed, last]
  | error reason =>
    obtain ⟨tries, rfl, hrefused, hintents, rfl, ⟨rfl, -⟩ | ⟨earlier, t, e, rfl, ht, rfl⟩⟩ :=
      tries_of_refused hsearch hbuild
    · exact absurd rfl hne
    have hearlier : ∀ u ∈ earlier, u.isAccepted = false :=
      fun u hu => hrefused u (List.mem_append_left _ hu)
    rcases record_bind_cases hrest with
      ⟨puts, rest, rfl, hputs, hend⟩ | ⟨error, rfl, hrounds⟩
    · obtain ⟨rfl, rfl⟩ := Program.yields_pure.mp hend
      let v : Visit := ⟨key, leg, asks, earlier ++ [t], puts, some (.rejected key e.message)⟩
      have htakes : v.takes = [] := Visit.takes_eq_nil hrefused
      refine ⟨v, rfl, rfl, rfl, ?_, hintents, .refused rfl hearlier ht rfl
        (.inl ⟨puts, hputs, (List.append_nil _).symm, rfl⟩), rfl, fun e => ?_⟩
      · simp [Visit.deeds, v]
      · simp [htakes]
    · refine ⟨⟨key, leg, asks, earlier ++ [t], rest, none⟩, rfl, rfl, rfl, ?_, hintents,
        .refused rfl hearlier ht rfl (.inr ⟨error, hrounds, rfl⟩), rfl⟩
      simp [Visit.deeds]

theorem yields_resolve_usable {point : ConnectionPoint} {found : Option (List Endpoint)}
    (h : (resolve point).Yields ds found) :
    ∃ answer, ds = [⟨.resolve point, answer⟩] ∧ found = usable? answer := by
  obtain ⟨answer, rest, rfl, hrest⟩ := Program.yields_access_bind.mp h
  cases answer <;>
  · obtain ⟨rfl, rfl⟩ := Program.yields_pure.mp hrest
    exact ⟨_, rfl, rfl⟩

/-- There are links to try between points that resolve, and an intent can be built over each. -/
theorem preference_usable {answer answer' : Except RegistryError (List Endpoint)}
    {srcs dsts taken : List Endpoint} (hsrcs : usable? answer = some srcs)
    (hdsts : usable? answer' = some dsts) :
    preference taken leg.bidirectional srcs dsts ≠ [] ∧
      ∀ link ∈ preference taken leg.bidirectional srcs dsts, (d.intent? key leg link).isSome := by
  have hfound {answer : Except RegistryError (List Endpoint)} {found : List Endpoint}
      (h : usable? answer = some found) : ∃ e, e ∈ found := by
    obtain ⟨endpoints, rfl, rfl⟩ := usable?_eq_some h
    rw [usable?] at h
    split at h
    · cases h
    · next hne => exact List.exists_mem_of_ne_nil _ fun hnil => hne (by rw [hnil]; rfl)
  obtain ⟨src, hsrc⟩ := hfound hsrcs
  obtain ⟨dst, hdst⟩ := hfound hdsts
  constructor
  · refine List.ne_nil_of_mem (a := ⟨src, dst⟩) ((perm_preference ..).mem_iff.mpr ?_)
    exact List.mem_flatMap.mpr ⟨src, hsrc, List.mem_map_of_mem hdst⟩
  · intro link hlink
    obtain ⟨endpoints, -, rfl⟩ := usable?_eq_some hsrcs
    obtain ⟨endpoints', -, rfl⟩ := usable?_eq_some hdsts
    rw [← candidates_eq_preference fun _ => Iff.rfl] at hlink
    rw [intent?_eq, Intent.isSome_ofLink?]
    exact isUsable_of_mem_candidates hlink

theorem visit_of_realize {result : Except DecomposeError (Outcome × Progress)}
    (h : (d.realize key leg p).run.Yields ds result) :
    ∃ v : Visit, v.key = key ∧ v.leg = leg ∧ v.deeds d.settings.submitTimeoutMs = ds ∧
      v.Follows d p.taken ∧ v.Ends p result := by
  obtain ⟨ds₁, srcs, rest, rfl, hsrcs, hrest⟩ := Program.yields_lift_bind.mp h
  obtain ⟨answer, rfl, rfl⟩ := yields_resolve_usable hsrcs
  cases hfound : usable? answer with
  | none =>
    rw [hfound] at hrest
    obtain ⟨rfl, rfl⟩ := Program.yields_pure.mp hrest
    refine ⟨⟨key, leg, [⟨.resolve leg.source.point, answer⟩], [], [],
      some (.endpointNotFound key leg.source.point)⟩, rfl, rfl, rfl,
      .noSource rfl hfound ⟨rfl, rfl, rfl⟩, rfl, fun e => ?_⟩
    simp [Visit.takes]
  | some srcs =>
    rw [hfound] at hrest
    obtain ⟨ds₂, dsts, rest, rfl, hdsts, hrest⟩ := Program.yields_lift_bind.mp hrest
    obtain ⟨answer', rfl, rfl⟩ := yields_resolve_usable hdsts
    cases hfound' : usable? answer' with
    | none =>
      rw [hfound'] at hrest
      obtain ⟨rfl, rfl⟩ := Program.yields_pure.mp hrest
      refine ⟨⟨key, leg, [⟨.resolve leg.source.point, answer⟩,
        ⟨.resolve leg.destination.point, answer'⟩], [], [],
        some (.endpointNotFound key leg.destination.point)⟩, rfl, rfl, rfl,
        .noDestination rfl hfound' ⟨rfl, rfl, rfl⟩, rfl, fun e => ?_⟩
      simp [Visit.takes]
    | some dsts =>
      rw [hfound'] at hrest
      change (d.realizeOver key leg (candidates p.taken leg.bidirectional srcs dsts) p).run.Yields
        _ _ at hrest
      rw [candidates_eq_preference fun _ => Iff.rfl] at hrest
      obtain ⟨hne, hbuild⟩ := preference_usable hfound hfound'
      obtain ⟨v, rfl, rfl, hasks, hdeeds, hintents, htries, hends⟩ := visit_of_realizeOver
        [⟨.resolve leg.source.point, answer⟩, ⟨.resolve leg.destination.point, answer'⟩]
        hne hbuild hrest
      exact ⟨v, rfl, rfl, hdeeds, .resolved hasks hfound hfound' hintents htries, hends⟩

theorem visits_of_realizeAll {legs : List (IntentKey × Leg)}
    {result : Except DecomposeError (List Outcome × Progress)}
    (h : (d.realizeAll legs p).run.Yields ds result) :
    ∃ visits : List Visit, ds = visits.flatMap (Visit.deeds d.settings.submitTimeoutMs) ∧
      visits.map (fun v => (v.key, v.leg)) <+: legs ∧ FollowInTurn d p.taken visits ∧
      ∀ r, result = .ok r → visits.map (fun v => (v.key, v.leg)) = legs ∧
        visits.map (·.outcome?) = r.1.map some := by
  induction legs generalizing p ds result with
  | nil =>
    obtain ⟨rfl, rfl⟩ := Program.yields_pure.mp h
    refine ⟨[], rfl, List.prefix_rfl, followInTurn_nil, fun r hr => ?_⟩
    cases hr
    exact ⟨rfl, rfl⟩
  | cons leg legs ih =>
    rcases Program.yields_bind_except.mp h with
      ⟨ds₁, ⟨o, q⟩, rest, rfl, hleg, hrest⟩ | ⟨e, rfl, hleg⟩
    · obtain ⟨v, hkey, hleg', rfl, hfollows, houtcome, htaken⟩ := visit_of_realize hleg
      have hhead : (v.key, v.leg) = leg := Prod.ext hkey hleg'
      rcases Program.yields_bind_except.mp hrest with
        ⟨ds₂, ⟨outcomes, q'⟩, rest, rfl, hlegs, hend⟩ | ⟨e, rfl, hlegs⟩
      · obtain ⟨rfl, rfl⟩ := Program.yields_pure.mp hend
        obtain ⟨visits, rfl, -, hvisits, hok⟩ := ih hlegs
        obtain ⟨hmap, houtcomes⟩ := hok _ rfl
        have hpairs : (v :: visits).map (fun v => (v.key, v.leg)) = leg :: legs := by
          rw [List.map_cons, hhead, hmap]
        refine ⟨v :: visits, by simp, hpairs ▸ List.prefix_rfl, .cons hfollows htaken hvisits,
          fun r hr => ⟨hpairs, ?_⟩⟩
        cases hr
        simp [houtcome, houtcomes]
      · obtain ⟨visits, rfl, hmap, hvisits, -⟩ := ih hlegs
        refine ⟨v :: visits, by simp, ?_, .cons hfollows htaken hvisits, nofun⟩
        rw [List.map_cons, hhead]
        exact (List.prefix_cons_inj leg).mpr hmap
    · obtain ⟨v, hkey, hleg', rfl, hfollows, -⟩ := visit_of_realize hleg
      have hhead : (v.key, v.leg) = leg := Prod.ext hkey hleg'
      refine ⟨[v], by simp, ?_, .cons hfollows (fun e => List.mem_append) followInTurn_nil, nofun⟩
      rw [List.map_singleton, hhead]
      exact (List.prefix_cons_inj leg).mpr List.nil_prefix

/-! ## Whole runs -/

/-- That nothing is submitted. -/
def Submitless (ds : List Deed) : Prop := ∀ n i answer, ⟨.submit n i, answer⟩ ∉ ds

theorem Submitless.append {ds' : List Deed} (h : Submitless ds) (h' : Submitless ds') :
    Submitless (ds ++ ds') := fun n i answer hmem =>
  (List.mem_append.mp hmem).elim (h n i answer) (h' n i answer)

theorem submitless_record {e : KeyStatus} {result : Except DecomposeError Unit}
    (h : (d.record e).run.Yields ds result) : Submitless ds := by
  obtain ⟨ds₁, written, ds₂, rfl, hupdate, hend⟩ := Program.yields_lift_bind.mp h
  obtain ⟨written, hwritten, rfl⟩ := Program.yields_map.mp hupdate
  have hrounds := (StatusStore.rounds_of_attempt hwritten).not_submit
  cases written <;>
  · obtain ⟨rfl, -⟩ := Program.yields_pure.mp hend
    rwa [List.append_nil]

theorem submitless_recordWithdrawal {status : IntentStatus}
    {result : Except DecomposeError Outcome}
    (h : (d.recordWithdrawal key status).run.Yields ds result) : Submitless ds := by
  obtain ⟨ds₁, i, rest, rfl, hunindex, hrest⟩ := Program.yields_lift_bind.mp h
  obtain rfl := Program.yields_access.mp hunindex
  obtain ⟨ds₂, r, rest, rfl, hkeys, hrecord⟩ := Program.yields_lift_bind.mp hrest
  obtain ⟨v, hensure, rfl⟩ := Program.yields_map.mp hkeys
  obtain rfl := Program.yields_access.mp hensure
  refine .append (by simp [Submitless]) (.append (by simp [Submitless]) ?_)
  cases he : v.value.get? key with
  | none =>
    rw [he] at hrecord
    obtain ⟨rfl, -⟩ := Program.yields_pure.mp hrecord
    simp [Submitless]
  | some e =>
    rw [he] at hrecord
    rcases Program.yields_bind_except.mp hrecord with
      ⟨writing, ⟨⟩, rest, rfl, hwriting, hend⟩ | ⟨error, -, hwriting⟩
    · obtain ⟨rfl, -⟩ := Program.yields_pure.mp hend
      rw [List.append_nil]
      exact submitless_record hwriting
    · exact submitless_record hwriting

theorem submitless_withdraw {result : Except DecomposeError Outcome}
    (h : (d.withdraw key).run.Yields ds result) : Submitless ds := by
  obtain ⟨ds₁, answer, rest, rfl, hwithdraw, hrest⟩ := Program.yields_lift_bind.mp h
  obtain rfl := Program.yields_access.mp hwithdraw
  refine .append (by simp [Submitless]) ?_
  match answer, hrest with
  | .ok (), hrest | .error (.notFound _), hrest => exact submitless_recordWithdrawal hrest
  | .error (.rejected ..), hrest | .error (.timeout _), hrest | .error (.unavailable _), hrest =>
    obtain ⟨rfl, -⟩ := Program.yields_pure.mp hrest
    simp [Submitless]

theorem submitless_withdrawAll {keys : List IntentKey}
    {result : Except DecomposeError (List Outcome)}
    (h : (keys.mapM d.withdraw).run.Yields ds result) : Submitless ds := by
  induction keys generalizing ds result with
  | nil =>
    obtain ⟨rfl, -⟩ := Program.yields_pure.mp h
    simp [Submitless]
  | cons key keys ih =>
    rw [List.mapM_cons] at h
    rcases Program.yields_bind_except.mp h with ⟨ds₁, r₁, rest, rfl, hkey, hrest⟩ | ⟨e, -, hkey⟩
    · refine (submitless_withdraw hkey).append ?_
      rcases Program.yields_bind_except.mp hrest with
        ⟨ds₂, r₂, rest, rfl, hkeys, hend⟩ | ⟨e, -, hkeys⟩
      · obtain ⟨rfl, -⟩ := Program.yields_pure.mp hend
        rw [List.append_nil]
        exact ih hkeys
      · exact ih hkeys
    · exact submitless_withdraw hkey

theorem submitless_withdrawStale {previous : Option ServiceRequest}
    {result : Except DecomposeError (List Outcome)}
    (h : (d.withdrawStale previous).run.Yields ds result) : Submitless ds := by
  obtain ⟨ds₁, keys, ds₂, rfl, hkeys, hall⟩ := Program.yields_lift_bind.mp h
  obtain ⟨v, rfl, -⟩ := yields_ownedKeys hkeys
  exact .append (by simp [Submitless]) (submitless_withdrawAll hall)

/-- An installation visits the legs, all of them if it comes to its end. -/
theorem visits_of_install {result : Except DecomposeError (List Outcome × Tracker)}
    (h : d.install.run.Yields ds result) :
    ∃ visits : List Visit, ds = visits.flatMap (Visit.deeds d.settings.submitTimeoutMs) ∧
      visits.map (fun v => (v.key, v.leg)) <+: d.keyedLegs ∧ FollowInTurn d [] visits ∧
      ∀ r, result = .ok r → visits.map (fun v => (v.key, v.leg)) = d.keyedLegs ∧
        visits.map (·.outcome?) = r.1.map some := by
  rcases Program.yields_bind_except.mp h with ⟨ds₁, r, rest, rfl, hlegs, hend⟩ | ⟨e, rfl, hlegs⟩
  · obtain ⟨rfl, rfl⟩ := Program.yields_pure.mp hend
    obtain ⟨visits, rfl, hprefix, hfollow, hok⟩ := visits_of_realizeAll hlegs
    obtain ⟨hmap, houtcomes⟩ := hok r rfl
    refine ⟨visits, List.append_nil _, hprefix, hfollow, fun r' hr => ?_⟩
    cases hr
    exact ⟨hmap, houtcomes⟩
  · obtain ⟨visits, rfl, hprefix, hfollow, -⟩ := visits_of_realizeAll hlegs
    exact ⟨visits, rfl, hprefix, hfollow, nofun⟩

/-- A run that is not a deletion visits the legs, and then submits no more. -/
theorem visits_of_run {previous : Option ServiceRequest} {validation : Validation}
    {result : Except DecomposeError Report} (hv : validation ≠ .delete)
    (h : (d.run previous validation).run.Yields ds result) :
    ∃ (visits : List Visit) (rest : List Deed),
      ds = visits.flatMap (Visit.deeds d.settings.submitTimeoutMs) ++ rest ∧ Submitless rest ∧
      visits.map (fun v => (v.key, v.leg)) <+: d.keyedLegs ∧ FollowInTurn d [] visits ∧
      ∀ report, result = .ok report → visits.map (fun v => (v.key, v.leg)) = d.keyedLegs ∧
        ∃ withdrawals : List Outcome,
          report.outcomes.map some = visits.map (·.outcome?) ++ withdrawals.map some := by
  have hnone : Submitless [] := by simp [Submitless]
  rw [run] at h
  split at h
  · obtain ⟨rfl, rfl⟩ := Program.yields_pure.mp h
    exact ⟨[], [], rfl, hnone, List.nil_prefix, followInTurn_nil, fun _ hr => by cases hr⟩
  · change (d.perform previous validation).run.Yields _ _ at h
    cases validation with
    | create =>
      rcases Program.yields_bind_except.mp h with
        ⟨ds₁, r, rest, rfl, hinstall, hend⟩ | ⟨e, rfl, hinstall⟩
      · obtain ⟨rfl, rfl⟩ := Program.yields_pure.mp hend
        obtain ⟨visits, rfl, hprefix, hfollow, hok⟩ := visits_of_install hinstall
        obtain ⟨hmap, houtcomes⟩ := hok r rfl
        refine ⟨visits, [], rfl, hnone, hprefix, hfollow, fun report hr => ⟨hmap, [], ?_⟩⟩
        cases hr
        simp [houtcomes]
      · obtain ⟨visits, rfl, hprefix, hfollow, -⟩ := visits_of_install hinstall
        exact ⟨visits, [], (List.append_nil _).symm, hnone, hprefix, hfollow,
          fun _ hr => by cases hr⟩
    | update =>
      rcases Program.yields_bind_except.mp h with
        ⟨ds₁, r, rest, rfl, hinstall, hrest⟩ | ⟨e, rfl, hinstall⟩
      · obtain ⟨visits, rfl, hprefix, hfollow, hok⟩ := visits_of_install hinstall
        obtain ⟨hmap, houtcomes⟩ := hok r rfl
        rcases Program.yields_bind_except.mp hrest with
          ⟨ds₂, withdrawals, rest, rfl, hstale, hend⟩ | ⟨e, rfl, hstale⟩
        · obtain ⟨rfl, rfl⟩ := Program.yields_pure.mp hend
          refine ⟨visits, ds₂, by rw [List.append_nil], submitless_withdrawStale hstale, hprefix,
            hfollow, fun report hr => ⟨hmap, withdrawals, ?_⟩⟩
          cases hr
          simp [houtcomes]
        · exact ⟨visits, rest, rfl, submitless_withdrawStale hstale, hprefix, hfollow,
            fun _ hr => by cases hr⟩
      · obtain ⟨visits, rfl, hprefix, hfollow, -⟩ := visits_of_install hinstall
        exact ⟨visits, [], (List.append_nil _).symm, hnone, hprefix, hfollow,
          fun _ hr => by cases hr⟩
    | delete => exact absurd rfl hv

/-- Whatever the registry, the framework and the store answer, a run that creates or updates tries
for each leg the links between its endpoints that reuse no endpoint taken by an earlier leg first,
and then the others; it stops at the first acceptance and records the links not tried, or fails with
the reason of the last refusal. So a link that reuses an endpoint is accepted only after all links
that reuse none were refused. -/
theorem unused_endpoints_first {previous : Option ServiceRequest} {validation : Validation}
    {result : Except DecomposeError Report} (hv : validation ≠ .delete)
    (h : (d.run previous validation).run.Yields ds result) :
    ∃ (visits : List Visit) (rest : List Deed),
      ds = visits.flatMap (Visit.deeds d.settings.submitTimeoutMs) ++ rest ∧
      (∀ n i answer, ⟨.submit n i, answer⟩ ∉ rest) ∧
      visits.map (fun v => (v.key, v.leg)) <+: d.keyedLegs ∧
      (∀ report, result = .ok report → visits.map (fun v => (v.key, v.leg)) = d.keyedLegs ∧
        ∃ withdrawals : List Outcome,
          report.outcomes.map some = visits.map (·.outcome?) ++ withdrawals.map some) ∧
      ∀ earlier v later, visits = earlier ++ v :: later →
        v.Follows d (takenBy earlier) ∧
        ∀ answer answer' srcs dsts, v.asks = [⟨.resolve v.leg.source.point, answer⟩,
            ⟨.resolve v.leg.destination.point, answer'⟩] →
          usable? answer = some srcs → usable? answer' = some dsts →
          (preference (takenBy earlier) v.leg.bidirectional srcs dsts).Perm
              (CandidateLink.product srcs dsts) ∧
            ∀ t ∈ v.tries, t.isAccepted = true →
              Reuses (takenBy earlier) v.leg.bidirectional t.link →
              ∀ link ∈ CandidateLink.product srcs dsts,
                ¬Reuses (takenBy earlier) v.leg.bidirectional link →
                ∃ u ∈ v.tries, u.link = link ∧ u.isAccepted = false := by
  obtain ⟨visits, rest, hds, hrest, hprefix, hfollow, hok⟩ := visits_of_run hv h
  refine ⟨visits, rest, hds, hrest, hprefix, hok, fun earlier v later hsplit => ?_⟩
  have hfollows : v.Follows d (takenBy earlier) := hfollow earlier v later hsplit
  refine ⟨hfollows, fun answer answer' srcs dsts hasks hsrcs hdsts =>
    ⟨perm_preference .., fun t ht haccepted hreuses link hlink hfree => ?_⟩⟩
  cases hfollows with
  | noSource _ _ hidle | noDestination _ _ hidle =>
    rw [hidle.1] at ht
    cases ht
  | resolved hasks' hsrcs' hdsts' _ htries =>
    rw [hasks] at hasks'
    simp only [List.cons.injEq, Deed.mk.injEq, heq_eq_eq, true_and, and_true] at hasks'
    obtain ⟨rfl, rfl⟩ := hasks'
    cases hsrcs.symm.trans hsrcs'
    cases hdsts.symm.trans hdsts'
    exact htries.refused_of_reuses ht haccepted hreuses hlink hfree

/-! A mesh of three points, one of which has two endpoints. -/

def sharedMesh : Decomposition where
  app := ⟨1, "app"⟩
  retries := 1
  service := ⟨"shared", by decide⟩
  request := ⟨.mesh ⟨[⟨⟨"a"⟩, []⟩, ⟨⟨"b"⟩, []⟩, ⟨⟨"c"⟩, []⟩]⟩, [], false⟩
  settings := {}

def sharedScene : Scene Facilities where
  records := .empty
  index := .empty
  outside := ⟨((Table.empty.insert ⟨"a"⟩
    [.eth "1" none ⟨"x"⟩ 1, .eth "2" none ⟨"x"⟩ 1]).insert ⟨"b"⟩
    [.eth "3" none ⟨"y"⟩ 1]).insert ⟨"c"⟩ [.eth "4" none ⟨"z"⟩ 1], .empty⟩
  calls := []

def sharedRun : Program (Except DecomposeError Report) := (sharedMesh.run none .create).run

/-- All three legs are visited in turn, each avoiding what the earlier ones took. -/
theorem sharedMesh_visited :
    ∃ (visits : List Visit) (rest : List Deed),
      sharedRun.log (Surroundings.inMemory .inserted).answer sharedScene =
        visits.flatMap (Visit.deeds 5000) ++ rest ∧
      visits.map (fun v => (v.key, v.leg)) = sharedMesh.keyedLegs ∧
      ∀ earlier v later, visits = earlier ++ v :: later →
        v.Follows sharedMesh (takenBy earlier) := by
  have hcreate : Validation.create ≠ .delete := nofun
  have hreport : ∃ report, (sharedRun.run (Surroundings.inMemory .inserted).answer sharedScene).1 =
      .ok report := ⟨_, rfl⟩
  obtain ⟨report, hreport⟩ := hreport
  obtain ⟨visits, rest, hlog, -, -, hok, hvisits⟩ :=
    unused_endpoints_first hcreate (sharedRun.yields_log _ _)
  exact ⟨visits, rest, hlog, (hok report hreport).1,
    fun earlier v later hsplit => (hvisits earlier v later hsplit).1⟩

end Decomposition

end IntentPlane
