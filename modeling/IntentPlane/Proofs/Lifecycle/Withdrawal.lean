import IntentPlane.Proofs.Lifecycle.Coherence
import Mathlib.Control.Monad.Basic

/-!
# How final a withdrawal is

A withdrawal keeps the candidate links in the entry of its key. As long as there are none, or no
failure is reported for the key, nothing is submitted or held under it until its service is
installed again (`perform_dormant`). A failure reported while there are links left is answered by a
submission (`perform_submits`). Together they say just when a withdrawal is final.
-/

namespace IntentPlane

/-- The candidate links that the entry of a key still holds. -/
def World.leftover (w : World) (s : ServiceId) (k : IntentKey) : List CandidateLink :=
  ((w.entry s k).map (·.links)).getD []

namespace Operation

/-- Whether an operation creates or updates a service. -/
def installs (s : ServiceId) : Operation → Bool
  | .decompose demand => demand.service = s && demand.validation ≠ .delete
  | _ => false

/-- Whether an operation reports the failure of an intent. -/
def reportsFailure (k : IntentKey) : Operation → Bool
  | .event _ _ intent status => intent.key = k && status = .failed
  | _ => false

end Operation

/-- Under a key nothing is held and nothing was submitted, and the links left are still the same. -/
structure Dormant (s : ServiceId) (k : IntentKey) (w v : World) : Prop where
  held : v.framework.get? k = none
  submissions : v.framework.submissionCount k = w.framework.submissionCount k
  leftover : v.leftover s k = w.leftover s k

variable {D : Deployment} {w v : World} {s t : ServiceId} {k : IntentKey} {n : Nat}

/-- The entry of a key is in the record of the service the key is named after. -/
theorem Coherent.service_eq (h : Coherent D.app w) {e : KeyStatus}
    (he : w.entry t (.forService D.app s n) = some e) : t = s := by
  obtain ⟨m, hm⟩ := (h _).named t e he
  exact (IntentKey.forService_inj.mp hm).1.symm

/-- The entry that is found of a key is the one that holds the links left. -/
theorem Coherent.leftover_eq (h : Coherent D.app w) {r : ServiceRecord} {current : KeyStatus}
    (hkey : k = .forService D.app s n) (hr : w.record t = some r)
    (hcurrent : r.get? k = some current) : t = s ∧ w.leftover s k = current.links := by
  have hentry : w.entry t k = some current := Option.bind_eq_some_iff.mpr ⟨r, hr, hcurrent⟩
  obtain rfl : t = s := h.service_eq (hkey ▸ hentry)
  exact ⟨rfl, by rw [World.leftover, hentry]; rfl⟩

namespace Dormant

theorem of_eq (hheld : w.framework.get? k = none)
    (hsame : v.framework.get? k = w.framework.get? k ∧
      v.framework.submissionCount k = w.framework.submissionCount k)
    (hentry : v.entry s k = w.entry s k) : Dormant s k w v :=
  ⟨hsame.1.trans hheld, hsame.2, by rw [World.leftover, World.leftover, hentry]⟩

theorem decompose (h : Coherent D.app w)
    (hheld : w.framework.get? (.forService D.app s n) = none) (demand : Demand)
    (hop : demand.service = s → demand.validation = .delete) :
    Dormant s (.forService D.app s n) w (D.decompose demand w).2 := by
  rcases D.decompose_cases demand w with hnone | ⟨report, z, hrun, hran, haccount, hheard⟩
  · rw [hnone]
    exact of_eq hheld ⟨rfl, rfl⟩ rfl
  rw [hrun]
  by_cases hk : .forService D.app s n ∈ report.outcomes.map (·.key)
  · obtain ⟨outcome, hmem, hkey⟩ := List.mem_map.mp hk
    -- A key of the service has an outcome only in decompositions of the service itself.
    obtain rfl : demand.service = s := by
      rcases hran.key_owned hmem with ⟨m, hm⟩ | hentry
      · rw [hkey] at hm
        exact (IntentKey.forService_inj.mp hm).1.symm
      · rw [hkey] at hentry
        obtain ⟨e, he⟩ := Option.ne_none_iff_exists'.mp hentry
        exact h.service_eq he
    rw [hop rfl] at hran
    have hupheld := haccount.upheld outcome hmem
    rcases hran.eq_withdrawal hmem with hout | ⟨reason, hout⟩
    · rw [hout, hkey] at hupheld
      obtain ⟨answer, status, hw, -, hnone, -, hentry⟩ := hupheld
      refine ⟨hheard.get?_of_withdrawn (accepted_eq_nil hnone) (by simp [hw]),
        hheard.submissionCount_of_silent hnone, ?_⟩
      change ((z.entry demand.service _).map _).getD [] = _
      change z.entry demand.service _ = _ at hentry
      rw [hentry, Option.map_map]
      rfl
    · rw [hout] at hupheld
      obtain ⟨error, hw, hne, -⟩ := hupheld
      exact absurd (hheard.notFound_of_withdrawals (hw ▸ List.mem_singleton_self _)) (hne _)
  · have huntouched := haccount.untouched _ hk
    exact of_eq hheld (huntouched.framework hheard) (huntouched.entry s)

/-- An event about a key submits nothing there unless it reports a failure and links are left. -/
theorem of_handled {e : Enumeration} {limit : UInt64} {intent : Intent} {status : IntentStatus}
    {event : Option ServiceEvent} {y : Scene Facilities} (h : Coherent D.app w)
    (hkey : intent.key = .forService D.app s n) (hheld : w.framework.get? intent.key = none)
    (hhandled : StatusEvents.Handled (.inMemory e) limit intent status w.scene event y)
    (hquiet : w.leftover s intent.key = [] ∨ status ≠ .failed) :
    Dormant s intent.key w y.world := by
  cases hhandled with
  | unowned => exact of_eq hheld ⟨rfl, rfl⟩ rfl
  | @recorded t r current next hr hcurrent _ hnext =>
    obtain ⟨rfl, hlinks⟩ := h.leftover_eq hkey hr hcurrent
    refine ⟨hheld, rfl, ?_⟩
    have hnextkey : next.key = intent.key := by
      rw [hnext]
      exact (ServiceRecord.key_of_get? hcurrent :)
    change (((w.scene.upsert t next).entry t intent.key).map _).getD [] = _
    rw [Scene.entry_upsert, if_pos ⟨rfl, hnextkey⟩, hlinks, hnext]
    rfl
  | resubmitted hr hcurrent hfailed hsearch =>
    obtain ⟨-, hlinks⟩ := h.leftover_eq hkey hr hcurrent
    obtain ⟨tried, hsplit, -⟩ := hsearch.of_ok
    rw [hlinks, hsplit] at hquiet
    simp [hfailed] at hquiet
  | exhausted hr hcurrent hfailed hleft =>
    obtain ⟨-, hlinks⟩ := h.leftover_eq hkey hr hcurrent
    rw [hlinks] at hquiet
    simp [hfailed, hleft] at hquiet

end Dormant

/-- Operations that do not install the service leave a key without links, or without a report of
failure, as it is. -/
theorem perform_dormant (h : Coherent D.app w)
    (hheld : w.framework.get? (.forService D.app s n) = none) (op : Operation)
    (hop : op.installs s = false)
    (hquiet : w.leftover s (.forService D.app s n) = [] ∨
      op.reportsFailure (.forService D.app s n) = false) :
    Dormant s (.forService D.app s n) w (D.perform op w) := by
  cases op with
  | decompose demand =>
    apply Dormant.decompose h hheld demand
    intro hs
    simpa [Operation.installs, hs] using hop
  | event order limit intent status =>
    obtain ⟨event, y, hrun, hhandled, hheard⟩ := D.event_cases order limit intent status w
    rw [hrun]
    by_cases hk : intent.key = .forService D.app s n
    · rw [← hk] at hheld hquiet ⊢
      refine .of_handled h hk hheld hhandled (hquiet.imp_right fun hno hfailed => ?_)
      simp [Operation.reportsFailure, hfailed] at hno
    · obtain ⟨es, hes, huntouched⟩ := hhandled.untouched hk
      obtain rfl : y.calls = es := hes
      exact .of_eq hheld (huntouched.framework hheard) (huntouched.entry s)
  | recover order limit events =>
    obtain ⟨g, es, hrun, hheard, hes⟩ := D.recover_cases order limit events w
    have hnone : submitted (.forService D.app s n) es = [] := by
      apply List.eq_nil_iff_forall_not_mem.mpr
      intro i hi
      obtain ⟨j, hj, -⟩ := (hes _).2 i hi
      rw [hheld] at hj
      cases hj
    rw [hrun]
    exact ⟨hheard.get?_eq_none (accepted_eq_nil hnone) hheld,
      hheard.submissionCount_of_silent hnone, rfl⟩
  | refuse => exact .of_eq hheld ⟨rfl, rfl⟩ rfl
  | compute key path backup calculated =>
    refine .of_eq hheld ?_ rfl
    change (w.framework.compute key path backup calculated).get? _ = _ ∧
      (w.framework.compute key path backup calculated).submissionCount _ = _
    rw [Framework.compute]
    split
    · rename_i i hi
      have hne : i.key ≠ .forService D.app s n := fun heq => by
        rw [← Framework.key_of_get? hi, heq, hheld] at hi
        cases hi
      rw [Framework.get?_insert, Intent.key_withPaths, if_neg hne]
      exact ⟨rfl, rfl⟩
    · exact ⟨rfl, rfl⟩
  | register => exact .of_eq hheld ⟨rfl, rfl⟩ rfl

/-- A failure that is reported while links are left is answered by a submission. -/
theorem perform_submits (h : Coherent D.app w) (hleft : w.leftover s (.forService D.app s n) ≠ [])
    (op : Operation) (hop : op.reportsFailure (.forService D.app s n) = true) :
    w.framework.submissionCount (.forService D.app s n) <
      (D.perform op w).framework.submissionCount (.forService D.app s n) := by
  cases op with
  | event order limit intent status =>
    obtain ⟨hk, hfailed⟩ : intent.key = .forService D.app s n ∧ status = .failed := by
      simpa [Operation.reportsFailure] using hop
    obtain ⟨event, y, hrun, hhandled, hheard⟩ := D.event_cases order limit intent status w
    have hsubmitted : submitted intent.key y.calls ≠ [] := by
      rw [← hk] at hleft
      have hsearched {t r current result es u} (hr : w.scene.record t = some r)
          (hcurrent : r.get? intent.key = some current)
          (hsearch : Search (.inMemory order) limit intent.rebuildOver? "" current.links
            w.scene.outside result es u) : submitted intent.key es ≠ [] := by
        have hentry : w.entry t intent.key = some current :=
          Option.bind_eq_some_iff.mpr ⟨r, hr, hcurrent⟩
        rw [(h.leftover_eq hk hr hcurrent).2] at hleft
        refine hsearch.submitted_ne_nil hleft (fun link hlink => ?_) fun _ _ =>
          StatusEvents.key_of_rebuildOver?
        exact Intent.isSome_ofLink?.trans ((h _).usable t current hentry link hlink)
      cases hhandled with
      | unowned hnone =>
        have hentry : w.entry s intent.key = none := hnone s
        rw [World.leftover, hentry] at hleft
        exact absurd rfl hleft
      | recorded hr hcurrent hno _ =>
        rw [(h.leftover_eq hk hr hcurrent).2] at hleft
        exact absurd ⟨hfailed, hleft⟩ hno
      | resubmitted hr hcurrent _ hsearch => exact hsearched hr hcurrent hsearch
      | exhausted hr hcurrent _ _ hsearch => exact hsearched hr hcurrent hsearch
    rw [hrun, ← hk]
    change _ < y.outside.framework.submissionCount intent.key
    rw [hheard.submissionCount_eq]
    exact Nat.lt_add_of_pos_right (List.length_pos_iff.mpr hsubmitted)
  | decompose | recover | refuse | compute | register => cases hop

/-- A key stays withdrawn as long as operations go on: at no time anything is held under it, and
nothing is submitted there. -/
def StaysWithdrawn (D : Deployment) (k : IntentKey) (w : World) (ops : List Operation) : Prop :=
  ∀ seen, seen <+: ops → (D.after seen w).framework.get? k = none ∧
    (D.after seen w).framework.submissionCount k = w.framework.submissionCount k

theorem staysWithdrawn_nil (hheld : w.framework.get? k = none) : StaysWithdrawn D k w [] := by
  intro seen hseen
  obtain rfl := List.prefix_nil.mp hseen
  exact ⟨hheld, rfl⟩

theorem staysWithdrawn_cons {op : Operation} {ops : List Operation}
    (hheld : w.framework.get? k = none) :
    StaysWithdrawn D k w (op :: ops) ↔
      (D.perform op w).framework.submissionCount k = w.framework.submissionCount k ∧
        StaysWithdrawn D k (D.perform op w) ops := by
  constructor
  · intro h
    have hcount := (h [op] (List.prefix_append [op] ops)).2
    refine ⟨hcount, ?_⟩
    intro seen hseen
    obtain ⟨hnone, hsame⟩ := h (op :: seen) (List.cons_prefix_cons.mpr ⟨rfl, hseen⟩)
    exact ⟨hnone, hsame.trans hcount.symm⟩
  · rintro ⟨hcount, h⟩ seen hseen
    cases seen with
    | nil => exact ⟨hheld, rfl⟩
    | cons op' seen =>
      obtain ⟨rfl, hrest⟩ := List.cons_prefix_cons.mp hseen
      exact ⟨(h seen hrest).1, (h seen hrest).2.trans hcount⟩

/-- A key that is not held stays withdrawn just if it has no links left or no failure is reported
for it. -/
theorem staysWithdrawn_iff (h : Coherent D.app w)
    (hheld : w.framework.get? (.forService D.app s n) = none) {ops : List Operation}
    (hops : ∀ op ∈ ops, op.installs s = false) :
    StaysWithdrawn D (.forService D.app s n) w ops ↔
      w.leftover s (.forService D.app s n) = [] ∨
        ∀ op ∈ ops, op.reportsFailure (.forService D.app s n) = false := by
  induction ops generalizing w with
  | nil => exact ⟨fun _ => .inr (List.forall_mem_nil _), fun _ => staysWithdrawn_nil hheld⟩
  | cons op ops ih =>
    rw [staysWithdrawn_cons hheld, List.forall_mem_cons]
    have hop := hops op (.head _)
    by_cases hquiet : w.leftover s (.forService D.app s n) = [] ∨
        op.reportsFailure (.forService D.app s n) = false
    · -- The links left stay the same, so the question is the same after the operation.
      have hdormant := perform_dormant h hheld op hop hquiet
      rw [ih (h.perform op) hdormant.held fun op' hop' => hops op' (.tail _ hop'),
        hdormant.leftover, hdormant.submissions]
      constructor
      · rintro ⟨-, hleft | hrest⟩
        · exact .inl hleft
        · exact hquiet.imp_right fun hno => ⟨hno, hrest⟩
      · rintro (hleft | ⟨-, hrest⟩)
        · exact ⟨rfl, .inl hleft⟩
        · exact ⟨rfl, .inr hrest⟩
    · -- Both sides are false: the failure is answered by a submission, which is counted.
      rw [not_or, Bool.not_eq_false] at hquiet
      have hsubmits := perform_submits h hquiet.1 op hquiet.2
      constructor
      · rintro ⟨hcount, -⟩
        exact absurd hcount (Nat.ne_of_gt hsubmits)
      · rintro (hnone | ⟨hno, -⟩)
        · exact absurd hnone hquiet.1
        · rw [hquiet.2] at hno
          cases hno

/-- What a withdrawal that is reported leaves behind. -/
theorem withdrawn_of_report (h : Coherent D.app w) {demand : Demand} {report : Report}
    (hreport : (D.decompose demand w).1 = .ok report) (hk : .withdrawn k ∈ report.outcomes) :
    (D.decompose demand w).2.framework.get? k = none ∧
      ∃ n, k = .forService D.app demand.service n := by
  rcases D.decompose_cases demand w with hnone | ⟨report', z, hrun, hran, haccount, hheard⟩
  · rw [hnone] at hreport
    cases hreport
  · rw [hrun] at hreport ⊢
    cases hreport
    obtain ⟨answer, status, hw, -, hnone, -⟩ := haccount.upheld _ hk
    refine ⟨hheard.get?_of_withdrawn (accepted_eq_nil hnone) (by simp [hw]), ?_⟩
    rcases hran.key_owned hk with hname | hentry
    · exact hname
    · obtain ⟨e, he⟩ := Option.ne_none_iff_exists'.mp hentry
      exact (h k).named demand.service e he

/-- A reported withdrawal is final until the service is installed again, just if the entry of its
key has no links left or no failure is reported for the key afterwards. -/
theorem withdrawn_final_iff (D : Deployment) (past later : List Operation) (demand : Demand)
    (report : Report) (k : IntentKey)
    (hreport : (D.decompose demand (D.after past .empty)).1 = .ok report)
    (hk : .withdrawn k ∈ report.outcomes)
    (hlater : ∀ op ∈ later, op.installs demand.service = false) :
    StaysWithdrawn D k (D.after (past ++ [.decompose demand]) .empty) later ↔
      (D.after (past ++ [.decompose demand]) .empty).leftover demand.service k = [] ∨
        ∀ op ∈ later, op.reportsFailure k = false := by
  have hpast : Coherent D.app (D.after past .empty) := Coherent.empty.after past
  have hdone : D.after (past ++ [.decompose demand]) .empty =
      (D.decompose demand (D.after past .empty)).2 := by
    rw [Deployment.after, List.foldl_append]
    rfl
  obtain ⟨hheld, n, rfl⟩ := withdrawn_of_report hpast hreport hk
  rw [hdone]
  exact staysWithdrawn_iff (hpast.decompose demand) hheld hlater

/-! A path from one endpoint to either of two, created and then deleted. -/

def pathDeployment : Deployment := ⟨⟨1, "app"⟩, 1, by decide⟩

def pathDemand (validation : Validation) : Demand where
  service := ⟨"svc", by decide⟩
  request := ⟨.path ⟨0, ⟨⟨"a"⟩, []⟩, ⟨⟨"b"⟩, []⟩⟩, [], false⟩
  settings := {}
  previous := none
  validation

def pathCreated : List Operation :=
  [.register ((Table.empty.insert ⟨"a"⟩ [.eth "1" none ⟨"x"⟩ 1]).insert ⟨"b"⟩
      [.eth "2" none ⟨"y"⟩ 1, .eth "3" none ⟨"z"⟩ 1]),
    .decompose (pathDemand .create)]

def pathKey : IntentKey := .forService pathDeployment.app (pathDemand .delete).service 1

/-- A failure that is reported after the path was withdrawn brings it back. -/
theorem withdrawn_path_comes_back :
    ¬ StaysWithdrawn pathDeployment pathKey
      (pathDeployment.after (pathCreated ++ [.decompose (pathDemand .delete)]) .empty)
      [.event .inserted 5000 ⟨pathKey, ⟨none, none⟩, [], 100, .connectivity ⟨"1/None"⟩ ⟨"2/None"⟩⟩
        .failed] := by
  rw [withdrawn_final_iff pathDeployment pathCreated _ (pathDemand .delete)
    ⟨(pathDemand .delete).service, .delete, [.withdrawn pathKey], []⟩ pathKey (by decide +kernel)
    (.head _) (by decide)]
  decide +kernel

end IntentPlane
