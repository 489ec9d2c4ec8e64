import IntentPlane.Proofs.Record
import IntentPlane.Status.Aggregate

/-!
# What a record amounts to

A summary tells of each class of statuses whether an entry is in it (`ofRecord_eq`), and the event
that a record amounts to depends on nothing else: it is that of the first rule that applies
(`aggregate_fires`). So records amount to the same if they have the same statuses in them
(`aggregate_congr`), apart from those of intents that are gone, as long as there are others
(`aggregate_congr_of_not_gone`). A record that is `Leaving` amounts to a withdrawal, which is done
as soon as no key awaits it (`Leaving.aggregate`).
-/

namespace IntentPlane

namespace StatusSummary

/-- Adding up summarizes what was there and what is added. -/
theorem foldl_add (s : StatusSummary) (es : List KeyStatus) :
    es.foldl (fun s e => s.add e.status) s =
      ⟨s.removed || es.any (fun e => e.status = .withdrawn || e.status = .purged),
        s.withdrawing || es.any (fun e => e.status = .withdrawReq),
        s.failed || es.any (fun e => e.status = .failed || e.status = .corrupt),
        s.installing || es.any (fun e =>
          e.status = .installReq || e.status = .installationAnchored),
        s.negotiating || es.any (fun e => e.status = .negotiationReq),
        s.installed || es.any (fun e => e.status = .installed)⟩ := by
  induction es generalizing s with
  | nil => simp
  | cons e es ih =>
    rw [List.foldl_cons, ih]
    cases h : e.status <;> simp [add, h]

theorem ofRecord_eq (r : ServiceRecord) :
    ofRecord r =
      ⟨r.entries.any (fun e => e.status = .withdrawn || e.status = .purged),
        r.entries.any (fun e => e.status = .withdrawReq),
        r.entries.any (fun e => e.status = .failed || e.status = .corrupt),
        r.entries.any (fun e => e.status = .installReq || e.status = .installationAnchored),
        r.entries.any (fun e => e.status = .negotiationReq),
        r.entries.any (fun e => e.status = .installed)⟩ := by
  rw [ofRecord, foldl_add]
  simp [empty]

end StatusSummary

namespace ServiceRecord

/-! ## The rules of aggregation -/

/-- The statuses of intents that are gone. -/
def gone : List IntentStatus := [.withdrawn, .purged]

/-- Some entry has one of the statuses. -/
def Has (r : ServiceRecord) (statuses : List IntentStatus) : Prop :=
  ∃ e ∈ r.entries, e.status ∈ statuses

/-- When a rule of aggregation applies, and which event it is for. -/
structure Rule where
  applies : ServiceRecord → Bool → Prop
  event : ServiceEvent

/-- The rules of aggregation, those of higher priority first. -/
def rules : List Rule := [
  ⟨fun r _ => r.entries ≠ [] ∧ ∀ e ∈ r.entries, e.status ∈ gone, .withdrawalSuccess⟩,
  ⟨fun r _ => r.Has [.withdrawReq], .submitForWithdrawal⟩,
  ⟨fun r _ => r.Has [.failed, .corrupt] ∧ r.Has [.negotiationReq], .negotiation⟩,
  ⟨fun r _ => r.Has [.failed, .corrupt], .installationFailed⟩,
  ⟨fun r _ => r.Has [.installReq, .installationAnchored], .submitForInstallation⟩,
  ⟨fun r _ => r.Has [.negotiationReq], .negotiation⟩,
  ⟨fun r calculated => r.Has [.installed] ∧ calculated = true, .installationSuccess⟩,
  ⟨fun _ _ => True, .noChange⟩]

/-- The event of the first rule that applies. -/
inductive Fires (r : ServiceRecord) (calculated : Bool) : List Rule → ServiceEvent → Prop where
  | first : rule.applies r calculated → Fires r calculated (rule :: rest) rule.event
  | later : ¬ rule.applies r calculated → Fires r calculated rest event →
      Fires r calculated (rule :: rest) event

section Rules

variable {q r : ServiceRecord} {calculated : Bool}

theorem onlyRemoved_iff : (StatusSummary.ofRecord r).onlyRemoved = true ↔
    r.entries ≠ [] ∧ ∀ e ∈ r.entries, e.status ∈ gone := by
  simp only [StatusSummary.onlyRemoved, StatusSummary.ofRecord_eq, Bool.and_eq_true,
    Bool.not_eq_true', Bool.or_eq_false_iff, List.any_eq_true, List.any_eq_false, Bool.or_eq_true,
    decide_eq_true_eq]
  constructor
  · rintro ⟨⟨e, he, -⟩, ⟨⟨⟨hwithdrawing, hfailed⟩, hinstalling⟩, hnegotiating⟩, hinstalled⟩
    refine ⟨List.ne_nil_of_mem he, fun f hf => ?_⟩
    have := hwithdrawing f hf
    have := hfailed f hf
    have := hinstalling f hf
    have := hnegotiating f hf
    have := hinstalled f hf
    cases hstatus : f.status <;> simp_all [gone]
  · rintro ⟨hne, hgone⟩
    obtain ⟨e, he⟩ := List.exists_mem_of_ne_nil _ hne
    refine ⟨⟨e, he, by simpa [gone] using hgone e he⟩, ⟨⟨⟨?_, ?_⟩, ?_⟩, ?_⟩, ?_⟩ <;>
    · intro f hf
      rcases List.mem_pair.mp (hgone f hf) with h | h <;> simp [h]

/-- What a summary tells of a record besides the intents that are gone. -/
theorem ofRecord_iff (r : ServiceRecord) :
    ((StatusSummary.ofRecord r).withdrawing = true ↔ r.Has [.withdrawReq]) ∧
      ((StatusSummary.ofRecord r).failed = true ↔ r.Has [.failed, .corrupt]) ∧
      ((StatusSummary.ofRecord r).installing = true ↔
        r.Has [.installReq, .installationAnchored]) ∧
      ((StatusSummary.ofRecord r).negotiating = true ↔ r.Has [.negotiationReq]) ∧
      ((StatusSummary.ofRecord r).installed = true ↔ r.Has [.installed]) := by
  simp [StatusSummary.ofRecord_eq, Has]

/-- A record amounts to the event of the first rule that applies. -/
theorem aggregate_fires (r : ServiceRecord) (calculated : Bool) :
    Fires r calculated rules (r.aggregate calculated) := by
  obtain ⟨hwithdrawing, hfailed, hinstalling, hnegotiating, hinstalled⟩ := ofRecord_iff r
  rw [aggregate]
  split
  · rename_i h
    exact .first (onlyRemoved_iff.mp h)
  rename_i h
  refine .later (mt onlyRemoved_iff.mpr h) ?_
  split
  · rename_i h
    exact .first (hwithdrawing.mp h)
  rename_i h
  refine .later (mt hwithdrawing.mpr h) ?_
  split
  · rename_i hfail
    split
    · rename_i h
      exact .first ⟨hfailed.mp hfail, hnegotiating.mp h⟩
    · rename_i h
      exact .later (fun hboth => h (hnegotiating.mpr hboth.2)) (.first (hfailed.mp hfail))
  rename_i h
  refine .later (fun hboth => h (hfailed.mpr hboth.1)) (.later (mt hfailed.mpr h) ?_)
  split
  · rename_i h
    exact .first (hinstalling.mp h)
  rename_i h
  refine .later (mt hinstalling.mpr h) ?_
  split
  · rename_i h
    exact .first (hnegotiating.mp h)
  rename_i h
  refine .later (mt hnegotiating.mpr h) ?_
  split
  · rename_i h
    obtain ⟨hseen, hcalculated⟩ := Bool.and_eq_true_iff.mp h
    exact .first ⟨hinstalled.mp hseen, hcalculated⟩
  · rename_i h
    exact .later (fun hboth => h (Bool.and_eq_true_iff.mpr ⟨hinstalled.mpr hboth.1, hboth.2⟩))
      (.first trivial)

/-! ## What the event depends on -/

theorem Fires.unique (h : Fires r calculated rs a) (h' : Fires r calculated rs b) : a = b := by
  induction h with
  | first happlies =>
    cases h' with
    | first => rfl
    | later hnot => exact absurd happlies hnot
  | later hnot _ ih =>
    cases h' with
    | first happlies => exact absurd happlies hnot
    | later _ h' => exact ih h'

theorem Fires.congr (h : ∀ rule ∈ rs, rule.applies q calculated ↔ rule.applies r calculated)
    (hfires : Fires q calculated rs event) : Fires r calculated rs event := by
  induction hfires with
  | first happlies => exact .first ((h _ (.head _)).mp happlies)
  | later hnot _ ih =>
    rw [List.forall_mem_cons] at h
    exact .later (mt h.1.mpr hnot) (ih h.2)

theorem has_singleton {s : IntentStatus} :
    r.Has [s] ↔ s ∈ r.entries.map KeyStatus.status := by
  simp [Has]

theorem has_congr {ss : List IntentStatus} (h : ∀ s ∈ ss, q.Has [s] ↔ r.Has [s]) :
    q.Has ss ↔ r.Has ss := by
  have hsome (r : ServiceRecord) : r.Has ss ↔ ∃ s ∈ ss, r.Has [s] := by
    constructor
    · rintro ⟨e, he, hs⟩
      exact ⟨_, hs, e, he, .head _⟩
    · rintro ⟨s, hs, e, he, hstatus⟩
      exact ⟨e, he, List.mem_singleton.mp hstatus ▸ hs⟩
  rw [hsome, hsome]
  exact exists_congr fun s => and_congr_right (h s)

/-- Records amount to the same if the first rule applies to both or neither, and they have the same
statuses in them apart from those of intents that are gone. -/
theorem aggregate_congr_of_first
    (hfirst : (q.entries ≠ [] ∧ ∀ e ∈ q.entries, e.status ∈ gone) ↔
      r.entries ≠ [] ∧ ∀ e ∈ r.entries, e.status ∈ gone)
    (h : ∀ s ∉ gone, q.Has [s] ↔ r.Has [s]) (calculated : Bool) :
    q.aggregate calculated = r.aggregate calculated := by
  have hhas (ss : List IntentStatus) (hss : ∀ s ∈ ss, s ∉ gone) : q.Has ss ↔ r.Has ss :=
    has_congr fun s hs => h s (hss s hs)
  have hfailed := hhas [.failed, .corrupt] (by decide)
  have hnegotiating := hhas [.negotiationReq] (by decide)
  refine ((aggregate_fires q calculated).congr ?_).unique (aggregate_fires r calculated)
  simp only [rules, List.forall_mem_cons, List.not_mem_nil, false_implies, implies_true, and_true]
  exact ⟨hfirst, hhas _ (by decide), and_congr hfailed hnegotiating, hfailed, hhas _ (by decide),
    hnegotiating, and_congr_left' (hhas _ (by decide))⟩

/-- Records with the same statuses in them amount to the same. -/
theorem aggregate_congr (h : ∀ s, q.Has [s] ↔ r.Has [s]) (calculated : Bool) :
    q.aggregate calculated = r.aggregate calculated := by
  have hfirst (r : ServiceRecord) : (r.entries ≠ [] ∧ ∀ e ∈ r.entries, e.status ∈ gone) ↔
      (∃ s, r.Has [s]) ∧ ∀ s, r.Has [s] → s ∈ gone := by
    simp only [Has, List.mem_singleton]
    constructor
    · rintro ⟨hne, hgone⟩
      obtain ⟨e, he⟩ := List.exists_mem_of_ne_nil _ hne
      refine ⟨⟨_, e, he, rfl⟩, ?_⟩
      rintro _ ⟨f, hf, rfl⟩
      exact hgone f hf
    · rintro ⟨⟨_, e, he, _⟩, hgone⟩
      exact ⟨List.ne_nil_of_mem he, fun f hf => hgone _ ⟨f, hf, rfl⟩⟩
  refine aggregate_congr_of_first ?_ (fun s _ => h s) calculated
  rw [hfirst, hfirst]
  simp only [h]

theorem aggregate_congr_of_subset {es fs : List KeyStatus} (h : es ⊆ fs) (h' : fs ⊆ es)
    (calculated : Bool) : aggregate ⟨es⟩ calculated = aggregate ⟨fs⟩ calculated :=
  aggregate_congr (fun _ => ⟨fun ⟨e, he, hs⟩ => ⟨e, h he, hs⟩, fun ⟨e, he, hs⟩ => ⟨e, h' he, hs⟩⟩)
    calculated

/-- Beside an intent that is not gone, those that are count for nothing. -/
theorem aggregate_congr_of_not_gone (hr : ∃ e ∈ r.entries, e.status ∉ gone)
    (h : ∀ s ∉ gone, q.Has [s] ↔ r.Has [s]) (calculated : Bool) :
    q.aggregate calculated = r.aggregate calculated := by
  obtain ⟨e, he, hstatus⟩ := hr
  obtain ⟨f, hf, hf'⟩ := (h _ hstatus).mpr ⟨e, he, .head _⟩
  rw [List.mem_singleton] at hf'
  refine aggregate_congr_of_first ?_ h calculated
  exact iff_of_false (fun hall => hstatus (hf' ▸ hall.2 f hf)) (fun hall => hstatus (hall.2 e he))

/-- The event is that of the first rule that applies. The order of the entries does not count, nor
how often a status is there, nor what entries say besides their statuses, nor which intents are gone
as long as one is not. -/
theorem aggregate_by_priority :
    (∀ r calculated, Fires r calculated rules (r.aggregate calculated)) ∧
      (∀ es fs calculated, es.Perm fs →
        aggregate ⟨es⟩ calculated = aggregate ⟨fs⟩ calculated) ∧
      (∀ es fs calculated, es ⊆ fs → fs ⊆ es →
        aggregate ⟨es⟩ calculated = aggregate ⟨fs⟩ calculated) ∧
      (∀ es fs calculated, es.map KeyStatus.status = fs.map KeyStatus.status →
        aggregate ⟨es⟩ calculated = aggregate ⟨fs⟩ calculated) ∧
      ∀ es fs calculated, es.filter (·.status ∉ gone) = fs.filter (·.status ∉ gone) →
        (∃ e ∈ es, e.status ∉ gone) → aggregate ⟨es⟩ calculated = aggregate ⟨fs⟩ calculated := by
  refine ⟨aggregate_fires,
    fun es fs calculated h => aggregate_congr_of_subset h.subset h.symm.subset calculated,
    fun es fs calculated h h' => aggregate_congr_of_subset h h' calculated,
    fun es fs calculated h => ?_, fun es fs calculated h hes => ?_⟩
  · exact aggregate_congr (fun s => by rw [has_singleton, has_singleton, h]) calculated
  · have hhas (es : List KeyStatus) {s : IntentStatus} (hs : s ∉ gone) :
        Has ⟨es⟩ [s] ↔ ∃ e ∈ es.filter (·.status ∉ gone), e.status = s := by
      simp only [Has, List.mem_singleton, List.mem_filter, decide_eq_true_eq, and_assoc]
      exact exists_congr fun e => and_congr_right fun _ =>
        ⟨fun he => ⟨he ▸ hs, he⟩, And.right⟩
    refine (aggregate_congr_of_not_gone hes (fun s hs => ?_) calculated).symm
    rw [hhas _ hs, hhas _ hs, h]

theorem aggregate_by_priority_installed :
    let a : KeyStatus := .fresh ⟨⟨1, "paths"⟩, "a"⟩ .installed
    let b : KeyStatus := .fresh ⟨⟨1, "paths"⟩, "b"⟩ .withdrawn
    Fires ⟨[a, b]⟩ true rules .installationSuccess ∧
      aggregate ⟨[a, b]⟩ true = aggregate ⟨[b, a]⟩ true ∧
      aggregate ⟨[a, b]⟩ true = aggregate ⟨[a, b, a]⟩ true ∧
      aggregate ⟨[a, b]⟩ true = aggregate ⟨[a.withCalculated true, b]⟩ true ∧
      aggregate ⟨[a, b]⟩ true = aggregate ⟨[a]⟩ true := by
  intro a b
  obtain ⟨hfires, hperm, hsubset, hstatuses, hgone⟩ := aggregate_by_priority
  refine ⟨hfires ⟨[a, b]⟩ true, hperm [a, b] [b, a] true (.swap b a []),
    hsubset [a, b] [a, b, a] true (by simp) (by simp),
    hstatuses [a, b] [a.withCalculated true, b] true rfl,
    hgone [a, b] [a] true (by decide) ⟨a, .head _, by decide⟩⟩

end Rules

/-! ## Records that are leaving -/

variable {r : ServiceRecord} {e : KeyStatus}

/-- The keys whose withdrawal is requested. -/
def awaiting (r : ServiceRecord) : List IntentKey :=
  (r.entries.filter fun e => e.status = .withdrawReq).map (·.key)

/-- All intents are withdrawn, or their withdrawal is requested. -/
def Leaving (r : ServiceRecord) : Prop :=
  ∀ e ∈ r.entries, e.status = .withdrawReq ∨ e.status = .withdrawn

theorem awaiting_eq_nil : r.awaiting = [] ↔ ∀ e ∈ r.entries, e.status ≠ .withdrawReq := by
  simp [awaiting]

/-- A record that is leaving amounts to a withdrawal: done if no key awaits it. -/
theorem Leaving.aggregate (h : r.Leaving) (hne : r.entries ≠ []) (calculated : Bool) :
    r.aggregate calculated =
      if r.awaiting = [] then .withdrawalSuccess else .submitForWithdrawal := by
  by_cases hnone : r.awaiting = []
  · have hall : ∀ e ∈ r.entries, e.status = .withdrawn := fun e he =>
      (h e he).resolve_left (awaiting_eq_nil.mp hnone e he)
    have hsummary : StatusSummary.ofRecord r = ⟨true, false, false, false, false, false⟩ := by
      obtain ⟨e, he⟩ := List.exists_mem_of_ne_nil _ hne
      have hremoved : ∃ e ∈ r.entries, e.status = .withdrawn ∨ e.status = .purged :=
        ⟨e, he, .inl (hall e he)⟩
      simpa +contextual [StatusSummary.ofRecord_eq, hall] using hremoved
    rw [if_pos hnone, ServiceRecord.aggregate, hsummary]
    rfl
  · have hwithdrawing : (StatusSummary.ofRecord r).withdrawing = true := by
      simpa [StatusSummary.ofRecord_eq, awaiting_eq_nil] using hnone
    rw [if_neg hnone]
    simp [ServiceRecord.aggregate, StatusSummary.onlyRemoved, hwithdrawing]

theorem awaiting_sublist (r : ServiceRecord) : r.awaiting.Sublist r.keys :=
  List.filter_sublist.map _

/-- What is withdrawn is not awaited any more. -/
theorem awaiting_upsert (h : r.keys.Nodup) (hkey : e.key ∈ r.keys) (he : e.status = .withdrawn) :
    (r.upsert e).awaiting = r.awaiting.erase e.key := by
  rw [(h.sublist r.awaiting_sublist).erase_eq_filter, awaiting, entries_upsert h hkey, awaiting]
  induction r.entries with
  | nil => rfl
  | cons f es ih =>
    rw [List.map_cons, List.filter_cons, List.filter_cons]
    by_cases hf : f.key = e.key <;> by_cases hreq : f.status = .withdrawReq <;>
      simpa [hf, hreq, he] using ih

theorem Leaving.upsert (h : r.Leaving) (hnodup : r.keys.Nodup) (hkey : e.key ∈ r.keys)
    (he : e.status = .withdrawn) : (r.upsert e).Leaving := by
  intro f hf
  rw [entries_upsert hnodup hkey, List.mem_map] at hf
  obtain ⟨g, hg, rfl⟩ := hf
  split
  · exact .inr he
  · exact h g hg

end ServiceRecord

end IntentPlane
