import IntentPlane.Proofs.Decomposition.Account
import IntentPlane.Proofs.InMemory
import IntentPlane.Proofs.InStep

/-!
# What the intent model makes of a decomposition

One decomposition is run twice, once with each intent model, from worlds that hold the same but for
payloads. A link makes an intent in one model just if it does in the other (`intent?_over`), so the
two runs try the same links, are answered alike and stay in step: `Counterparts` relates the scenes
that they pass through, and what they submit are `Twins`.
-/

namespace IntentPlane

/-- All but the payloads of two intents is the same. -/
def Intent.SameButPayload (i j : Intent) : Prop :=
  i.key = j.key ∧ i.selector = j.selector ∧ i.constraints = j.constraints ∧ i.priority = j.priority

/-- Two frameworks with the same books, but for the payloads of what they hold. -/
structure Framework.SameButPayloads (f g : Framework) : Prop where
  held : ∀ k, Option.Rel Intent.SameButPayload (f.get? k) (g.get? k)
  submissions : f.submissions = g.submissions
  withdrawn : f.withdrawn = g.withdrawn
  rejected : f.rejected = g.rejected
  negotiating : f.negotiating = g.negotiating

/-- Two worlds that are the same, but for the payloads of what is held and indexed. -/
structure World.SameButPayloads (w v : World) : Prop where
  registry : w.registry = v.registry
  records : w.records = v.records
  indexed : ∀ k, Option.Rel Intent.SameButPayload (w.indexed k) (v.indexed k)
  framework : w.framework.SameButPayloads v.framework

namespace Framework.SameButPayloads

variable {f g : Framework} {i j : Intent} {k : IntentKey}

theorem count (h : f.SameButPayloads g) (k : IntentKey) :
    (f.count k).SameButPayloads (g.count k) where
  held := h.held
  submissions := by
    change f.submissions.insert k (f.submissionCount k + 1) =
      g.submissions.insert k (g.submissionCount k + 1)
    rw [submissionCount, submissionCount, h.submissions]
  withdrawn := h.withdrawn
  rejected := h.rejected
  negotiating := h.negotiating

/-- Which answer a submission gets does not depend on the payload. -/
theorem submit (h : f.SameButPayloads g) (hij : i.SameButPayload j) :
    (f.submit i).1 = (g.submit j).1 ∧ (f.submit i).2.SameButPayloads (g.submit j).2 := by
  have hkey : i.key = j.key := hij.1
  have hcount := h.count i.key
  by_cases hr : i.key ∈ f.rejected
  · have hr' : j.key ∈ g.rejected := by rwa [← hkey, ← h.rejected]
    rw [submit_rejected hr, submit_rejected hr', ← hkey]
    exact ⟨rfl, hcount⟩
  · have hr' : j.key ∉ g.rejected := by rwa [← hkey, ← h.rejected]
    rw [submit_taken hr, submit_taken hr', ← hkey, h.negotiating]
    refine ⟨rfl, { hcount with held := fun k => ?_, withdrawn := ?_ }⟩
    · rw [get?_take, get?_take, ← hkey]
      split
      · exact .some hij
      · exact hcount.held k
    · change (f.withdrawn.filter _) = g.withdrawn.filter _
      rw [h.withdrawn, hkey]

/-- Neither does what comes of a withdrawal. -/
theorem withdraw (h : f.SameButPayloads g) (k : IntentKey) :
    (f.withdraw k).1 = (g.withdraw k).1 ∧ (f.withdraw k).2.SameButPayloads (g.withdraw k).2 := by
  have hheld := h.held k
  cases hf : f.get? k <;> cases hg : g.get? k <;> rw [hf, hg] at hheld
  · rw [withdraw_none hf, withdraw_none hg]
    exact ⟨rfl, h⟩
  · cases hheld
  · cases hheld
  · simp only [Framework.withdraw, hf, hg]
    refine ⟨trivial, { h with held := fun l => ?_, withdrawn := congrArg (·.insert k) h.withdrawn }⟩
    change Option.Rel _ ((f.held.erase k).get? l) ((g.held.erase k).get? l)
    rw [Table.get?_erase, Table.get?_erase]
    split
    · exact .none
    · exact h.held l

end Framework.SameButPayloads

/-- The intents submitted in a list of calls. -/
def submissions (es : List Exchange) : List Intent :=
  es.filterMap fun
    | .submit _ i _ => some i
    | _ => none

namespace Decomposition

/-- With an intent model in place of the one set. -/
def inModel (d : Decomposition) (model : IntentModel) : Decomposition :=
  { d with settings := { d.settings with intentModel := model } }

/-- A link between usable endpoints that are registered behind the points of a leg. -/
def IsCandidate (registry : Table ConnectionPoint (List Endpoint)) (leg : Leg)
    (link : CandidateLink) : Prop :=
  link.src ∈ usable ((registry.get? leg.source.point).getD []) ∧
    link.dst ∈ usable ((registry.get? leg.destination.point).getD [])

/-- Two intents for one leg over one candidate link: the first between the hosts at its ends, the
second between their connect points. -/
def Twins (d : Decomposition) (registry : Table ConnectionPoint (List Endpoint)) (i j : Intent) :
    Prop :=
  ∃ key leg link one two, (key, leg) ∈ d.keyedLegs ∧ IsCandidate registry leg link ∧
    link.src.hostId? = some one ∧ link.dst.hostId? = some two ∧
    i = ⟨key, ⟨link.src.net?, link.dst.net?⟩, d.constraints leg, d.settings.intentPriority,
      .connectivity one two⟩ ∧
    j = ⟨key, ⟨link.src.net?, link.dst.net?⟩, d.constraints leg, d.settings.intentPriority,
      .pathAware ⟨link.src.connectPoint, link.dst.connectPoint, none, none, false⟩⟩

/-- Calls that two runs make at the same place. -/
inductive CallTwins (d : Decomposition) (registry : Table ConnectionPoint (List Endpoint)) :
    Exchange → Exchange → Prop where
  | resolve : CallTwins d registry (.resolve p answer) (.resolve p answer)
  | submit : d.Twins registry i j →
      CallTwins d registry (.submit limit i answer) (.submit limit j answer)
  | withdraw : CallTwins d registry (.withdraw limit k answer) (.withdraw limit k answer)

/-- Where two runs have come to: scenes that differ in payloads only, by calls that differ in what
the models make of one link. -/
structure Counterparts (d : Decomposition) (registry : Table ConnectionPoint (List Endpoint))
    (x y : Scene Facilities) : Prop where
  worlds : x.world.SameButPayloads y.world
  points : x.outside.registry = registry
  calls : List.Forall₂ (d.CallTwins registry) x.calls y.calls

variable {d : Decomposition} {registry : Table ConnectionPoint (List Endpoint)} {e : Enumeration}
  {i j : Intent} {k key : IntentKey} {leg : Leg} {s : ServiceId} {x y : Scene Facilities}

/-! ## Twins -/

theorem Twins.sameButPayload (h : d.Twins registry i j) : i.SameButPayload j := by
  obtain ⟨key, leg, link, one, two, -, -, -, -, rfl, rfl⟩ := h
  exact ⟨rfl, rfl, rfl, rfl⟩

/-- Both models make an intent of a candidate link. -/
theorem intent?_over (hleg : (key, leg) ∈ d.keyedLegs) {link : CandidateLink}
    (hlink : IsCandidate registry leg link) :
    Option.Rel (d.Twins registry) ((d.inModel .legacy).intent? key leg link)
      ((d.inModel .aciPp).intent? key leg link) := by
  have husable {endpoint : Endpoint} {endpoints : List Endpoint}
      (h : endpoint ∈ usable endpoints) : ∃ id, endpoint.hostId? = some id :=
    Option.isSome_iff_exists.mp (List.mem_filter.mp h).2
  obtain ⟨one, hone⟩ := husable hlink.1
  obtain ⟨two, htwo⟩ := husable hlink.2
  simp only [intent?, Intent.ofLink?, Intent.payload?, inModel, hone, htwo]
  exact .some ⟨key, leg, link, one, two, hleg, hlink, hone, htwo, rfl, rfl⟩

/-! ## Single accesses -/

theorem Counterparts.hear {a b : Exchange} {f g : Facilities} (h : d.Counterparts registry x y)
    (hcall : d.CallTwins registry a b) (hf : f.registry = registry)
    (hworlds : (x.hear f [a]).world.SameButPayloads (y.hear g [b]).world) :
    d.Counterparts registry (x.hear f [a]) (y.hear g [b]) where
  worlds := hworlds
  points := hf
  calls := List.rel_append h.calls (.cons hcall .nil)

theorem Counterparts.withRecords (h : d.Counterparts registry x y)
    (records : VersionedMap ServiceId ServiceRecord) :
    d.Counterparts registry { x with records } { y with records } :=
  { h with worlds := { h.worlds with records := rfl } }

theorem inStep_readRecord : (Surroundings.inMemory e).InStep (d.Counterparts registry) Eq
    (.readRecord s) (.readRecord s) :=
  .access fun _ _ h => ⟨congrArg (·.get? s) h.worlds.records, h⟩

theorem inStep_ensureRecord : (Surroundings.inMemory e).InStep (d.Counterparts registry) Eq
    (.ensureRecord s) (.ensureRecord s) := by
  refine .access fun x y h => ?_
  have hrecords : x.records = y.records := h.worlds.records
  refine ⟨congrArg (·.ensure s .empty |>.1) hrecords, ?_⟩
  change d.Counterparts registry (x.ensure s) (y.ensure s)
  rw [Scene.ensure, Scene.ensure, hrecords]
  exact h.withRecords _

theorem inStep_replaceRecord (version : Nat) (r : ServiceRecord) :
    (Surroundings.inMemory e).InStep (d.Counterparts registry) Eq
      (.replaceRecord s version r) (.replaceRecord s version r) := by
  refine .access fun x y h => ?_
  have hrecords : x.records = y.records := h.worlds.records
  simp only [Surroundings.answer, hrecords]
  exact ⟨trivial, h.withRecords _⟩

theorem inStep_askRegistry (point : ConnectionPoint) :
    (Surroundings.inMemory e).InStep (d.Counterparts registry)
      (fun a b => a = b ∧ a = .ok ((registry.get? point).getD []))
      (.resolve point) (.resolve point) := by
  intro x y h
  have hy : y.outside.registry = registry := h.worlds.registry.symm.trans h.points
  rw [Surroundings.run_resolve, Surroundings.run_resolve]
  simp only [Surroundings.inMemory, h.points, hy]
  exact ⟨⟨trivial, trivial⟩, h.hear .resolve h.points h.worlds⟩

theorem inStep_submitIntent (limit : UInt64) (h : d.Twins registry i j) :
    (Surroundings.inMemory e).InStep (d.Counterparts registry) Eq
      (.submit limit i) (.submit limit j) := by
  intro x y hxy
  obtain ⟨hanswer, hframework⟩ : (x.outside.framework.submit i).1 =
      (y.outside.framework.submit j).1 ∧ _ := hxy.worlds.framework.submit h.sameButPayload
  refine ⟨hanswer, hxy.hear ?_ hxy.points { hxy.worlds with framework := hframework }⟩
  rw [← hanswer]
  exact .submit h

theorem inStep_withdrawIntent (limit : UInt64) (k : IntentKey) :
    (Surroundings.inMemory e).InStep (d.Counterparts registry) Eq
      (.withdraw limit k) (.withdraw limit k) := by
  refine .access fun x y h => ?_
  obtain ⟨hanswer, hframework⟩ : (x.outside.framework.withdraw k).1 =
      (y.outside.framework.withdraw k).1 ∧ _ := h.worlds.framework.withdraw k
  refine ⟨hanswer, h.hear ?_ h.points { h.worlds with framework := hframework }⟩
  rw [← hanswer]
  exact .withdraw

theorem inStep_indexIntent (h : i.SameButPayload j) (k : IntentKey) :
    (Surroundings.inMemory e).InStep (d.Counterparts registry) Eq
      (.indexIntent k i) (.indexIntent k j) := by
  intro x y hxy
  refine ⟨rfl, { hxy with worlds := { hxy.worlds with indexed := fun l => ?_ } }⟩
  change Option.Rel _ ((x.setIndex k i).indexed l) ((y.setIndex k j).indexed l)
  rw [Scene.indexed_setIndex, Scene.indexed_setIndex]
  split
  · exact .some h
  · exact hxy.worlds.indexed l

theorem inStep_unindexIntent (k : IntentKey) :
    (Surroundings.inMemory e).InStep (d.Counterparts registry) (fun _ _ => True)
      (.unindexIntent k) (.unindexIntent k) := by
  intro x y hxy
  refine ⟨trivial, { hxy with worlds := { hxy.worlds with indexed := fun l => ?_ } }⟩
  change Option.Rel _ ((x.dropIndex k).indexed l) ((y.dropIndex k).indexed l)
  rw [Scene.indexed_dropIndex, Scene.indexed_dropIndex]
  split
  · exact .none
  · exact hxy.worlds.indexed l

/-! ## The store -/

theorem inStep_read (absent : StatusStore.Absent) :
    (Surroundings.inMemory e).InStep (d.Counterparts registry) Eq
      (StatusStore.read absent s) (StatusStore.read absent s) := by
  cases absent with
  | create => exact .bind inStep_ensureRecord fun _ _ h => .pure (congrArg some h)
  | leave => exact inStep_readRecord

theorem inStep_attempt (failure : StoreError) (absent : StatusStore.Absent)
    (change : ServiceRecord → ServiceRecord) (left : Nat) :
    (Surroundings.inMemory e).InStep (d.Counterparts registry) Eq
      (StatusStore.attempt failure absent s change left)
      (StatusStore.attempt failure absent s change left) := by
  induction left with
  | zero => exact .pure rfl
  | succ left ih =>
    refine .bind (inStep_read absent) fun read _ hread => ?_
    cases hread
    cases read with
    | none => exact .pure rfl
    | some current =>
      refine .bind (inStep_replaceRecord _ _) fun written _ hwritten => ?_
      cases hwritten
      cases written with
      | true => exact .pure rfl
      | false => exact ih

theorem inStep_getKeys : (Surroundings.inMemory e).InStep (d.Counterparts registry) Eq
    (StatusStore.getKeys s) (StatusStore.getKeys s) :=
  .bind inStep_ensureRecord fun _ _ h => .pure (congrArg (·.value) h)

theorem inStep_record (entry : KeyStatus) :
    (Surroundings.inMemory e).InStepOrFail (d.Counterparts registry) Eq
      ((d.inModel .legacy).record entry) ((d.inModel .aciPp).record entry) := by
  refine .bind (.lift (.bind (inStep_attempt _ _ _ _) fun _ _ h => .pure (congrArg _ h)))
    fun result _ hresult => ?_
  cases hresult
  cases result with
  | ok => exact .pure rfl
  | error e => exact .throw _

/-! ## Realizing legs -/

/-- Acceptances of what two runs make of one link. -/
def Matches (d : Decomposition) (registry : Table ConnectionPoint (List Endpoint))
    (a b : Acceptance) : Prop :=
  a.link = b.link ∧ d.Twins registry a.intent b.intent ∧ a.submission = b.submission ∧
    a.untried = b.untried

/-- Two searches that make twins of every link go the same way. -/
theorem inStep_submitFirst {build? build'? : CandidateLink → Option Intent}
    {links : List CandidateLink}
    (h : ∀ link ∈ links, Option.Rel (d.Twins registry) (build? link) (build'? link))
    (limit : UInt64) (reason : String) :
    (Surroundings.inMemory e).InStep (d.Counterparts registry) (Except.Rel (d.Matches registry))
      (submitFirst limit build? reason links) (submitFirst limit build'? reason links) := by
  induction links generalizing reason with
  | nil => exact .pure .error
  | cons link links ih =>
    have hlink := h link (.head _)
    have hrest := ih fun l hl => h l (.tail _ hl)
    rw [submitFirst, submitFirst]
    cases hb : build? link <;> cases hc : build'? link <;> rw [hb, hc] at hlink
    · exact hrest reason
    · cases hlink
    · cases hlink
    · obtain ⟨htwins⟩ := hlink
      refine .bind (inStep_submitIntent limit htwins) fun answer _ hanswer => ?_
      cases hanswer
      cases answer with
      | ok submission => exact .pure (.ok ⟨rfl, htwins, rfl, rfl⟩)
      | error e => exact hrest e.message

theorem inStep_realizeOver (hleg : (key, leg) ∈ d.keyedLegs) {links : List CandidateLink}
    (hlinks : ∀ link ∈ links, IsCandidate registry leg link) (p : Progress) :
    (Surroundings.inMemory e).InStepOrFail (d.Counterparts registry) Eq
      ((d.inModel .legacy).realizeOver key leg links p)
      ((d.inModel .aciPp).realizeOver key leg links p) := by
  have hbuild (link : CandidateLink) (hlink : link ∈ links) := intent?_over hleg (hlinks link hlink)
  refine .bind (.lift (inStep_submitFirst hbuild d.settings.submitTimeoutMs _)) fun a b hab => ?_
  cases hab with
  | error => exact .bind (inStep_record _) fun _ _ _ => .pure rfl
  | @ok a b hab =>
    obtain ⟨link, i, submission, untried⟩ := a
    obtain ⟨link', j, submission', untried'⟩ := b
    obtain ⟨rfl, htwins, rfl, rfl⟩ := hab
    refine .bind (inStep_record _) fun _ _ _ => ?_
    exact .bind (.lift (inStep_indexIntent htwins.sameButPayload key)) fun _ _ _ => .pure rfl

/-- Points resolve to the usable endpoints registered behind them. -/
theorem inStep_resolve (point : ConnectionPoint) :
    (Surroundings.inMemory e).InStep (d.Counterparts registry)
      (fun a b => a = b ∧
        ∀ found, a = some found → found = usable ((registry.get? point).getD []))
      (resolve point) (resolve point) := by
  refine .bind (inStep_askRegistry point) fun a b h => ?_
  obtain ⟨rfl, rfl⟩ := h
  refine .pure ⟨rfl, fun found hfound => ?_⟩
  change (if _ then none else some _) = some found at hfound
  split at hfound
  · cases hfound
  · exact (Option.some.inj hfound).symm

theorem isCandidate_of_mem_candidates {taken : List Endpoint} {bidirectional : Bool}
    {link : CandidateLink}
    (h : link ∈ candidates taken bidirectional
      (usable ((registry.get? leg.source.point).getD []))
      (usable ((registry.get? leg.destination.point).getD []))) :
    IsCandidate registry leg link := by
  have hproduct := mem_product_of_mem_candidates h
  simp only [CandidateLink.product, List.mem_flatMap, List.mem_map] at hproduct
  obtain ⟨src, hsrc, dst, hdst, rfl⟩ := hproduct
  exact ⟨hsrc, hdst⟩

theorem inStep_realize (hleg : (key, leg) ∈ d.keyedLegs) (p : Progress) :
    (Surroundings.inMemory e).InStepOrFail (d.Counterparts registry) Eq
      ((d.inModel .legacy).realize key leg p) ((d.inModel .aciPp).realize key leg p) := by
  refine .bind (.lift (inStep_resolve leg.source.point)) fun srcs _ h => ?_
  obtain ⟨rfl, hsrcs⟩ := h
  cases srcs with
  | none => exact .pure rfl
  | some srcs =>
    refine .bind (.lift (inStep_resolve leg.destination.point)) fun dsts _ h => ?_
    obtain ⟨rfl, hdsts⟩ := h
    cases dsts with
    | none => exact .pure rfl
    | some dsts =>
      obtain rfl := hsrcs srcs rfl
      obtain rfl := hdsts dsts rfl
      exact inStep_realizeOver hleg (fun link hlink => isCandidate_of_mem_candidates hlink) p

theorem inStep_realizeAll {legs : List (IntentKey × Leg)} (hlegs : ∀ leg ∈ legs, leg ∈ d.keyedLegs)
    (p : Progress) :
    (Surroundings.inMemory e).InStepOrFail (d.Counterparts registry) Eq
      ((d.inModel .legacy).realizeAll legs p) ((d.inModel .aciPp).realizeAll legs p) := by
  induction legs generalizing p with
  | nil => exact .pure rfl
  | cons leg legs ih =>
    refine .bind (inStep_realize (hlegs leg (.head _)) p) fun r _ hr => ?_
    cases hr
    refine .bind (ih (fun l hl => hlegs l (.tail _ hl)) r.2) fun rest _ hrest => ?_
    cases hrest
    exact .pure rfl

theorem inStep_install : (Surroundings.inMemory e).InStepOrFail (d.Counterparts registry) Eq
    (d.inModel .legacy).install (d.inModel .aciPp).install := by
  refine .bind (inStep_realizeAll (fun _ h => h) _) fun r _ hr => ?_
  cases hr
  exact .pure rfl

/-! ## Withdrawing -/

theorem inStep_recordWithdrawal (k : IntentKey) (status : IntentStatus) :
    (Surroundings.inMemory e).InStepOrFail (d.Counterparts registry) Eq
      ((d.inModel .legacy).recordWithdrawal k status)
      ((d.inModel .aciPp).recordWithdrawal k status) := by
  refine .bind (.lift (inStep_unindexIntent k)) fun _ _ _ => ?_
  refine .bind (.lift inStep_getKeys) fun record _ hrecord => ?_
  cases hrecord
  cases record.get? k with
  | none => exact .pure rfl
  | some entry => exact .bind (inStep_record _) fun _ _ _ => .pure rfl

theorem inStep_withdraw (k : IntentKey) :
    (Surroundings.inMemory e).InStepOrFail (d.Counterparts registry) Eq
      ((d.inModel .legacy).withdraw k) ((d.inModel .aciPp).withdraw k) := by
  refine .bind (.lift (inStep_withdrawIntent d.settings.submitTimeoutMs k)) fun answer _ h => ?_
  cases h
  cases answer with
  | ok => exact inStep_recordWithdrawal k .withdrawReq
  | error error =>
    cases error with
    | notFound => exact inStep_recordWithdrawal k .withdrawn
    | _ => exact .pure rfl

theorem inStep_withdrawKeys (ks : List IntentKey) :
    (Surroundings.inMemory e).InStepOrFail (d.Counterparts registry) Eq
      (ks.mapM (d.inModel .legacy).withdraw) (ks.mapM (d.inModel .aciPp).withdraw) := by
  induction ks with
  | nil => exact .pure rfl
  | cons k ks ih =>
    rw [List.mapM_cons, List.mapM_cons]
    refine .bind (inStep_withdraw k) fun outcome _ h => ?_
    cases h
    refine .bind ih fun outcomes _ h => ?_
    cases h
    exact .pure rfl

theorem inStep_ownedKeys (others : List IntentKey) :
    (Surroundings.inMemory e).InStep (d.Counterparts registry) Eq
      ((d.inModel .legacy).ownedKeys others) ((d.inModel .aciPp).ownedKeys others) := by
  refine .bind inStep_getKeys fun record _ h => ?_
  cases h
  exact .pure rfl

theorem inStep_withdrawStale (previous : Option ServiceRequest) :
    (Surroundings.inMemory e).InStepOrFail (d.Counterparts registry) Eq
      ((d.inModel .legacy).withdrawStale previous) ((d.inModel .aciPp).withdrawStale previous) := by
  refine .bind (.lift (inStep_ownedKeys _)) fun owned _ h => ?_
  cases h
  exact inStep_withdrawKeys _

theorem inStep_withdrawAll (previous : Option ServiceRequest) :
    (Surroundings.inMemory e).InStepOrFail (d.Counterparts registry) Eq
      ((d.inModel .legacy).withdrawAll previous) ((d.inModel .aciPp).withdrawAll previous) := by
  refine .bind (.lift (inStep_ownedKeys _)) fun owned _ h => ?_
  cases h
  exact inStep_withdrawKeys _

/-! ## Whole runs -/

theorem inStep_perform (previous : Option ServiceRequest) (validation : Validation) :
    (Surroundings.inMemory e).InStepOrFail (d.Counterparts registry) Eq
      ((d.inModel .legacy).perform previous validation)
      ((d.inModel .aciPp).perform previous validation) := by
  cases validation with
  | create =>
    refine .bind inStep_install fun installed _ h => ?_
    cases h
    exact .pure rfl
  | update =>
    refine .bind inStep_install fun installed _ h => ?_
    cases h
    refine .bind (inStep_withdrawStale previous) fun withdrawals _ h => ?_
    cases h
    exact .pure rfl
  | delete =>
    refine .bind (inStep_withdrawAll previous) fun withdrawals _ h => ?_
    cases h
    exact .pure rfl

theorem inStep_run (previous : Option ServiceRequest) (validation : Validation) :
    (Surroundings.inMemory e).InStepOrFail (d.Counterparts registry) Eq
      ((d.inModel .legacy).run previous validation)
      ((d.inModel .aciPp).run previous validation) := by
  have hbi : (d.inModel .legacy).settings.bidirectional =
    (d.inModel .aciPp).settings.bidirectional := rfl
  have huni : (d.inModel .legacy).settings.unidirectional =
    (d.inModel .aciPp).settings.unidirectional := rfl
  rw [run, run, hbi, huni]
  split
  · exact .throw DecomposeError.noDirection
  · exact inStep_perform previous validation

/-- What is accepted in calls that two runs make at the same places are twins. -/
theorem twins_of_accepted {es fs : List Exchange} (h : List.Forall₂ (d.CallTwins registry) es fs)
    {a b : Submission} (hi : accepted k es = [(i, a)]) (hj : accepted k fs = [(j, b)]) :
    d.Twins registry i j := by
  have hall : List.Forall₂ (fun a b => d.Twins registry a.1 b.1) (accepted k es)
      (accepted k fs) := by
    refine List.rel_filterMap (R := d.CallTwins registry) ?_ h
    intro x y hxy
    cases hxy with
    | resolve | withdraw => exact .none
    | @submit i j limit answer htwins =>
      have hkey : i.key = j.key := htwins.sameButPayload.1
      cases answer with
      | error => exact .none
      | ok a =>
        simp only [hkey]
        split
        · exact .some htwins
        · exact .none
  rw [hi, hj] at hall
  cases hall
  assumption

theorem twins_of_submissions {es fs : List Exchange}
    (h : List.Forall₂ (d.CallTwins registry) es fs) :
    List.Forall₂ (d.Twins registry) (submissions es) (submissions fs) := by
  refine List.rel_filterMap (R := d.CallTwins registry) ?_ h
  intro x y hxy
  cases hxy with
  | resolve | withdraw => exact .none
  | submit htwins => exact .some htwins

/-- What a run reports as submitted is held and indexed afterwards. -/
theorem accepted_of_submitted {previous : Option ServiceRequest} {validation : Validation}
    {report : Report} {status : IntentStatus} {w : World} {z : Scene Facilities}
    (h : (Surroundings.inMemory e).eval (d.run previous validation) w.scene = (.ok report, z))
    (hmem : .submitted k status ∈ report.outcomes) :
    ∃ i a, accepted k z.calls = [(i, a)] ∧ z.world.framework.get? k = some i ∧
      z.world.indexed k = some i := by
  obtain ⟨-, es, haccount⟩ := (ran_of_eval h).account
  obtain ⟨-, -, -, -, -, -, -, i, a, -, -, -, -, -, haccepted, hkept, -, hindexed, -⟩ :=
    haccount.upheld _ hmem
  obtain ⟨fs, hcalls, hheard⟩ :=
    run_heard (.inMemory e) (d.run previous validation).run w.scene
  have hz : ((d.run previous validation).run.run (Surroundings.inMemory e).answer w.scene).2 = z :=
    congrArg Prod.snd h
  rw [hz] at hcalls hheard
  obtain rfl : es = fs := List.append_cancel_left (haccount.calls.symm.trans hcalls)
  have hcalled : z.calls = es := hcalls
  exact ⟨i, a, hcalled ▸ haccepted, hheard.get?_of_accepted hkept haccepted, hindexed⟩

/-- The intent model changes the payloads and nothing else. -/
theorem run_sameButPayloads {w v : World} (h : w.SameButPayloads v) (d : Decomposition)
    (e : Enumeration) (previous : Option ServiceRequest) (validation : Validation)
    {a b : Except DecomposeError Report} {y z : Scene Facilities}
    (ha : (Surroundings.inMemory e).eval ((d.inModel .legacy).run previous validation) w.scene =
      (a, y))
    (hb : (Surroundings.inMemory e).eval ((d.inModel .aciPp).run previous validation) v.scene =
      (b, z)) :
    a = b ∧ y.world.SameButPayloads z.world ∧
      (submissions y.calls).map (·.key) = (submissions z.calls).map (·.key) ∧
      List.Forall₂ (d.Twins w.registry) (submissions y.calls) (submissions z.calls) ∧
      ∀ report, a = .ok report → ∀ k status, .submitted k status ∈ report.outcomes →
        ∃ i j, d.Twins w.registry i j ∧
          y.world.framework.get? k = some i ∧ y.world.indexed k = some i ∧
          z.world.framework.get? k = some j ∧ z.world.indexed k = some j := by
  have hstart : d.Counterparts w.registry w.scene v.scene := ⟨h, rfl, .nil⟩
  obtain ⟨hresult, hend⟩ := (inStep_run previous validation (e := e)).eval hstart
  rw [ha, hb] at hresult hend
  have hsame : a = b := by
    cases hresult with
    | ok hreport => rw [hreport]
    | error => rfl
  have htwins := twins_of_submissions hend.calls
  refine ⟨hsame, hend.worlds, ?_, htwins, ?_⟩
  · refine List.forall₂_eq_eq_eq ▸ List.forall₂_map_left_iff.mpr
      (List.forall₂_map_right_iff.mpr (htwins.imp fun _ _ h => h.sameButPayload.1))
  · intro report hreport k status hmem
    subst hreport
    subst hsame
    obtain ⟨i, s, haccepted, hheld, hindexed⟩ := accepted_of_submitted ha hmem
    obtain ⟨j, t, haccepted', hheld', hindexed'⟩ := accepted_of_submitted hb hmem
    exact ⟨i, j, twins_of_accepted hend.calls haccepted haccepted', hheld, hindexed, hheld',
      hindexed'⟩

/-- Endpoints at the two ends of `onePath`, and an intent of another service that stands already. -/
def standing (payload : Payload) : World :=
  let intent : Intent := ⟨⟨⟨1, "app"⟩, "t-1"⟩, ⟨none, none⟩, [], 100, payload⟩
  { registry := (Table.empty.insert ⟨"a"⟩ [.eth "1" none ⟨"x"⟩ 1]).insert ⟨"b"⟩
      [.eth "2" none ⟨"y"⟩ 1]
    records := .empty
    index := VersionedMap.empty.put intent.key intent
    framework := Framework.empty.insert intent }

theorem standing_sameButPayloads (p q : Payload) :
    (standing p).SameButPayloads (standing q) where
  registry := rfl
  records := rfl
  indexed k := by
    simp only [World.indexed, standing, VersionedMap.value?_put]
    split
    · exact .some ⟨rfl, rfl, rfl, rfl⟩
    · exact .none
  framework := by
    refine ⟨fun k => ?_, rfl, rfl, rfl, rfl⟩
    simp only [standing, Framework.get?_insert]
    split
    · exact .some ⟨rfl, rfl, rfl, rfl⟩
    · exact .none

theorem onePath_sameButPayloads : ∃ report y z,
    (Surroundings.inMemory .inserted).eval ((onePath.inModel .legacy).run none .create)
      (standing (.connectivity ⟨"8"⟩ ⟨"9"⟩)).scene = (.ok report, y) ∧
    (Surroundings.inMemory .inserted).eval ((onePath.inModel .aciPp).run none .create)
      (standing (.pathAware ⟨⟨⟨"v"⟩, 1⟩, ⟨⟨"w"⟩, 1⟩, none, none, false⟩)).scene = (.ok report, z) ∧
    report.outcomes = [.submitted (onePath.key 1) .installReq] ∧
    (submissions y.calls).map (·.payload) = [.connectivity ⟨"1/None"⟩ ⟨"2/None"⟩] ∧
    (submissions z.calls).map (·.payload) =
      [.pathAware ⟨⟨⟨"x"⟩, 1⟩, ⟨⟨"y"⟩, 1⟩, none, none, false⟩] ∧
    y.world.SameButPayloads z.world := by
  have hlegacy : (Surroundings.inMemory .inserted).eval ((onePath.inModel .legacy).run none .create)
    (standing (.connectivity ⟨"8"⟩ ⟨"9"⟩)).scene = (.ok _, _) := rfl
  have haciPp : (Surroundings.inMemory .inserted).eval ((onePath.inModel .aciPp).run none .create)
    (standing (.pathAware ⟨⟨⟨"v"⟩, 1⟩, ⟨⟨"w"⟩, 1⟩, none, none, false⟩)).scene = (.ok _, _) := rfl
  obtain ⟨-, hworlds, -⟩ := run_sameButPayloads (standing_sameButPayloads _ _) onePath .inserted
    none .create hlegacy haciPp
  exact ⟨_, _, _, hlegacy, haciPp, rfl, rfl, rfl, hworlds⟩

end Decomposition

end IntentPlane
