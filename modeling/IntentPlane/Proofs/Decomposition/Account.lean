import IntentPlane.Proofs.Decomposition.Steps
import IntentPlane.Proofs.Intent
import IntentPlane.Proofs.Keys

/-!
# What a report tells

The outcomes of a decomposition account for all that it did: what an outcome says of its key holds
when the run is over, and keys without an outcome are left alone. A step accounts for its key
(`Realized.account`, `Withdrawal.account`); as each key has one outcome at most, the accounts of
steps one after another add up (`Account.append`), and so do those of whole runs.
-/

namespace IntentPlane

variable {τ : Type}

namespace Decomposition

/-- What an outcome says of the scenes before and after a run, and of the calls made between. -/
def Upheld (d : Decomposition) (x : Scene τ) (es : List Exchange) (z : Scene τ) : Outcome → Prop
  | .submitted k status =>
    ∃ leg srcs dsts taken tried link untried intent submission, (k, leg) ∈ d.keyedLegs ∧
      .resolve leg.source.point (.ok srcs) ∈ es ∧ .resolve leg.destination.point (.ok dsts) ∈ es ∧
      candidates taken leg.bidirectional (usable srcs) (usable dsts) = tried ++ link :: untried ∧
      Intent.ofLink? k link d.settings.intentModel
        (Constraint.select leg.source.constraints leg.destination.constraints d.request.constraints
          ⟨d.settings.bandwidthLevel.toNat, d.settings.delayLevel.toNat,
            d.settings.securityLevel.toNat⟩ ++ if d.request.negotiable then [.negotiable] else [])
        d.settings.intentPriority = some intent ∧
      accepted k es = [(intent, submission)] ∧ withdrawals k es = [] ∧
      status = submission.status ∧ z.indexed k = some intent ∧
      z.entry d.service k = some ⟨k, status, untried, false⟩
  | .rejected k _ =>
    (∃ leg, (k, leg) ∈ d.keyedLegs) ∧ accepted k es = [] ∧ withdrawals k es = [] ∧
      z.indexed k = x.indexed k ∧ z.entry d.service k = some ⟨k, .failed, [], false⟩
  | .endpointNotFound k point =>
    ∃ leg answer, (k, leg) ∈ d.keyedLegs ∧
      (point = leg.source.point ∨ point = leg.destination.point) ∧
      .resolve point answer ∈ es ∧ usable? answer = none ∧
      submitted k es = [] ∧ withdrawals k es = [] ∧ z.indexed k = x.indexed k ∧
      z.entry d.service k = x.entry d.service k
  | .withdrawn k =>
    ∃ answer status, withdrawals k es = [answer] ∧ WithdrawnAs answer status ∧
      submitted k es = [] ∧ z.indexed k = none ∧
      z.entry d.service k = (x.entry d.service k).map (·.withStatus status)
  | .withdrawFailed k reason =>
    ∃ e, withdrawals k es = [.error e] ∧ (∀ l, e ≠ .notFound l) ∧ reason = e.message ∧
      submitted k es = [] ∧ z.indexed k = x.indexed k ∧
      z.entry d.service k = x.entry d.service k

/-- Outcomes that tell all that happened between two scenes, in the calls made from one to the
other. -/
structure Account (d : Decomposition) (x : Scene τ) (outcomes : List Outcome) (es : List Exchange)
    (z : Scene τ) : Prop where
  calls : z.calls = x.calls ++ es
  upheld : ∀ outcome ∈ outcomes, d.Upheld x es z outcome
  records : ∀ s, s ≠ d.service → z.record s = x.record s
  untouched : ∀ k, k ∉ outcomes.map (·.key) → Untouched k x es z

variable {o : Surroundings τ} {d : Decomposition} {k : IntentKey} {leg : Leg} {p q : Progress}
  {x y z w : Scene τ} {es fs : List Exchange} {outcome : Outcome} {outcomes : List Outcome}

/-! ## Adding up accounts -/

/-- What an outcome says of its key holds however long the key was left alone before. -/
theorem Upheld.of_later (h : d.Upheld y fs z outcome) (before : Untouched outcome.key x es y) :
    d.Upheld x (es ++ fs) z outcome := by
  have hentry := before.entry d.service
  have hindexed := before.indexed
  have haccepted := accepted_eq_nil before.submitted
  have hsubmitted := before.submitted
  have hwithdrawals := before.withdrawals
  cases outcome <;> grind [Upheld, Outcome.key, accepted_append, submitted_append,
    withdrawals_append]

/-- What an outcome says of its key holds as long as the key is left alone. -/
theorem Upheld.of_earlier (h : d.Upheld x es y outcome) (after : Untouched outcome.key y fs z) :
    d.Upheld x (es ++ fs) z outcome := by
  have hentry := after.entry d.service
  have hindexed := after.indexed
  have haccepted := accepted_eq_nil after.submitted
  have hsubmitted := after.submitted
  have hwithdrawals := after.withdrawals
  cases outcome <;> grind [Upheld, Outcome.key, accepted_append, submitted_append,
    withdrawals_append]

namespace Account

theorem nil : Account d x [] [] x where
  calls := (List.append_nil _).symm
  upheld := List.forall_mem_nil _
  records _ _ := rfl
  untouched _ _ := ⟨fun _ => rfl, rfl, rfl, rfl⟩

theorem single (hcalls : z.calls = x.calls ++ es) (hupheld : d.Upheld x es z outcome)
    (hrecords : ∀ s, s ≠ d.service → z.record s = x.record s)
    (huntouched : ∀ k, k ≠ outcome.key → Untouched k x es z) : Account d x [outcome] es z where
  calls := hcalls
  upheld a ha := by
    cases List.mem_singleton.mp ha
    exact hupheld
  records := hrecords
  untouched k hk := huntouched k (by simpa using hk)

/-- An empty record for a service that has none does not count. -/
theorem ensure : Account d x [] [] (x.ensure d.service) where
  calls := (List.append_nil _).symm
  upheld := List.forall_mem_nil _
  records s hs := by simp [hs.symm]
  untouched _ _ := ⟨fun _ => Scene.entry_ensure .., rfl, rfl, rfl⟩

/-- The accounts of two runs with no key in common add up. -/
theorem append {later : List Outcome} (h : Account d x outcomes es y)
    (h' : Account d y later fs z) (hnodup : ((outcomes ++ later).map (·.key)).Nodup) :
    Account d x (outcomes ++ later) (es ++ fs) z where
  calls := by rw [h'.calls, h.calls, List.append_assoc]
  upheld outcome hmem := by
    rw [List.map_append, List.nodup_append] at hnodup
    -- An outcome of either part is about a key that the other part leaves alone.
    rcases List.mem_append.mp hmem with hmem | hmem
    · refine (h.upheld outcome hmem).of_earlier (h'.untouched _ ?_)
      intro hkey
      exact hnodup.2.2 _ (List.mem_map_of_mem hmem) _ hkey rfl
    · refine (h'.upheld outcome hmem).of_later (h.untouched _ ?_)
      intro hkey
      exact hnodup.2.2 _ hkey _ (List.mem_map_of_mem hmem) rfl
  records s hs := (h'.records s hs).trans (h.records s hs)
  untouched k hk := by
    rw [List.map_append, List.mem_append, not_or] at hk
    exact (h.untouched k hk.1).trans (h'.untouched k hk.2)

end Account

/-! ## Steps -/

theorem intent?_eq (d : Decomposition) (key : IntentKey) (leg : Leg) (link : CandidateLink) :
    d.intent? key leg link = Intent.ofLink? key link d.settings.intentModel
      (Constraint.select leg.source.constraints leg.destination.constraints d.request.constraints
        ⟨d.settings.bandwidthLevel.toNat, d.settings.delayLevel.toNat,
          d.settings.securityLevel.toNat⟩ ++ if d.request.negotiable then [.negotiable] else [])
      d.settings.intentPriority := by
  unfold intent? constraints
  by_cases h : d.request.negotiable = true
  · rw [if_pos h, if_pos h]
  · rw [if_neg h, if_neg h, List.append_nil]

theorem key_of_intent? {link : CandidateLink} {i : Intent} (h : d.intent? k leg link = some i) :
    i.key = k := Intent.key_of_ofLink? h

/-- A search for one key submits nothing under others. -/
theorem submitted_eq_nil_of_ne {l : IntentKey} (hl : l ≠ k) {limit reason links t result u}
    (h : Search o limit (d.intent? k leg) reason links t result es u) : submitted l es = [] :=
  h.submitted_eq_nil fun _ _ hi hkey => hl (hkey.symm.trans (key_of_intent? hi))

theorem Realized.key_eq {p' : Progress} (h : Realized o d k leg p x (outcome, p') y) :
    outcome.key = k := by
  cases h <;> rfl

theorem Realized.account {p' : Progress} (h : Realized o d k leg p x (outcome, p') y)
    (hleg : (k, leg) ∈ d.keyedLegs) : ∃ es, Account d x [outcome] es y := by
  cases h with
  | @unresolved point answer es u hasked hpoint hmem hanswer =>
    have hnone {l} := hasked.submitted_eq_nil (k := l)
    have hkept {l} := hasked.withdrawals_eq_nil (k := l)
    refine ⟨es, .single rfl ?_ (fun _ _ => rfl) ?_⟩
    · exact ⟨leg, answer, hleg, hpoint, hmem, hanswer, hnone, hkept, rfl, rfl⟩
    · intro l hl
      exact ⟨fun _ => rfl, rfl, hnone, hkept⟩
  | @submitted srcs dsts a es u v hasked hsearch =>
    obtain ⟨tried, hlinks, hintent⟩ := hsearch.of_ok
    have hkey : a.intent.key = k := key_of_intent? hintent
    have haccepted := hsearch.accepted_of_ok
    have hkept {l} := hsearch.withdrawals_eq_nil (k := l)
    refine ⟨_, .single rfl ?_ (fun s hs => by simp [hs.symm]) ?_⟩
    · rw [hkey] at haccepted
      refine ⟨leg, srcs, dsts, p.taken, tried, a.link, a.untried, a.intent, a.submission, hleg,
        .head _, .tail _ (.head _), hlinks, ?_, haccepted, hkept, rfl, ?_, ?_⟩
      · rw [← intent?_eq, hintent]
      · simp
      · simp [Scene.entry_upsert]
    · intro l hl
      have hne : k ≠ l := fun h => hl h.symm
      have hnone := submitted_eq_nil_of_ne hl hsearch
      exact ⟨fun s => by simp [Scene.entry_upsert, hne], by simp [hne], hnone, hkept⟩
  | @rejected srcs dsts reason es u v hasked hsearch =>
    have haccepted := hsearch.accepted_of_error (k := k)
    have hkept {l} := hsearch.withdrawals_eq_nil (k := l)
    refine ⟨_, .single rfl ?_ (fun s hs => by simp [hs.symm]) ?_⟩
    · exact ⟨⟨leg, hleg⟩, haccepted, hkept, rfl, by simp [Scene.entry_upsert, KeyStatus.fresh]⟩
    · intro l hl
      have hne : k ≠ l := fun h => hl h.symm
      have hnone := submitted_eq_nil_of_ne hl hsearch
      exact ⟨fun s => by simp [Scene.entry_upsert, KeyStatus.fresh, hne], rfl, hnone, hkept⟩

theorem Withdrawal.key_eq (h : Withdrawal o d k x outcome y) : outcome.key = k := by
  cases h <;> rfl

theorem Withdrawal.account (h : Withdrawal o d k x outcome y) :
    ∃ es, Account d x [outcome] es y := by
  cases h with
  | @withdrawn answer u status hanswer hstatus =>
    refine ⟨_, .single (by simp; rfl) ?_ ?_ ?_⟩
    · exact ⟨answer, status, by simp [withdrawals], hstatus, rfl, by simp,
        by simp [Scene.entry_setStatus]⟩
    · intro s hs
      rw [Scene.record_setStatus_of_ne _ _ _ _ _ hs.symm]
      simp [hs.symm]
    · intro l hl
      have hne : k ≠ l := fun h => hl h.symm
      exact ⟨fun s => by simp [Scene.entry_setStatus, hne], by simp [hne], rfl,
        by simp [withdrawals, hne]⟩
  | @failed u e hanswer he =>
    refine ⟨_, .single rfl ?_ (fun _ _ => rfl) ?_⟩
    · exact ⟨e, by simp [withdrawals], he, rfl, rfl, rfl, rfl⟩
    · intro l hl
      have hne : k ≠ l := fun h => hl h.symm
      exact ⟨fun _ => rfl, rfl, rfl, by simp [withdrawals, hne]⟩

/-! ## Planned keys and candidates -/

theorem exists_of_mem_keyedLegs (h : (k, leg) ∈ d.keyedLegs) :
    ∃ n, k = .forService d.app d.service n := by
  obtain ⟨n, -, rfl⟩ := mem_keys.mp (List.of_mem_zip h).1
  exact ⟨n + 1, rfl⟩

theorem mem_product_of_mem_candidates {taken srcs dsts : List Endpoint} {bidirectional : Bool}
    {link : CandidateLink} (h : link ∈ candidates taken bidirectional srcs dsts) :
    link ∈ CandidateLink.product srcs dsts := by
  simp only [candidates, List.mem_append, List.mem_filter] at h
  exact h.elim (·.1) (·.1)

/-- Intents can be built over candidates between usable endpoints. -/
theorem isUsable_of_mem_candidates {taken srcs dsts : List Endpoint} {bidirectional : Bool}
    {link : CandidateLink} (h : link ∈ candidates taken bidirectional (usable srcs) (usable dsts)) :
    link.isUsable = true := by
  have hproduct := mem_product_of_mem_candidates h
  simp only [CandidateLink.product, List.mem_flatMap, List.mem_map, usable, List.mem_filter]
    at hproduct
  obtain ⟨src, ⟨-, hsrc⟩, dst, ⟨-, hdst⟩, rfl⟩ := hproduct
  simp [CandidateLink.isUsable, hsrc, hdst]

/-! ## Runs -/

theorem RealizedAll.keys_eq {legs : List (IntentKey × Leg)}
    (h : RealizedAll o d legs p x outcomes q z) : outcomes.map (·.key) = legs.map (·.1) := by
  induction h with
  | nil => rfl
  | cons hfirst _ ih => rw [List.map_cons, List.map_cons, hfirst.key_eq, ih]

theorem WithdrawnAll.keys_eq {ks : List IntentKey} (h : WithdrawnAll o d ks x outcomes z) :
    outcomes.map (·.key) = ks := by
  induction h with
  | nil => rfl
  | cons hfirst _ ih => rw [List.map_cons, hfirst.key_eq, ih]

theorem RealizedAll.account {legs : List (IntentKey × Leg)}
    (h : RealizedAll o d legs p x outcomes q z) (hlegs : ∀ leg ∈ legs, leg ∈ d.keyedLegs)
    (hnodup : (outcomes.map (·.key)).Nodup) : ∃ es, Account d x outcomes es z := by
  induction h with
  | nil => exact ⟨[], .nil⟩
  | cons hfirst _ ih =>
    obtain ⟨es, hes⟩ := hfirst.account (hlegs _ (.head _))
    obtain ⟨fs, hfs⟩ := ih (fun leg hleg => hlegs leg (.tail _ hleg)) (List.nodup_cons.mp hnodup).2
    exact ⟨es ++ fs, hes.append hfs hnodup⟩

theorem WithdrawnAll.account {ks : List IntentKey} (h : WithdrawnAll o d ks x outcomes z)
    (hnodup : (outcomes.map (·.key)).Nodup) : ∃ es, Account d x outcomes es z := by
  induction h with
  | nil => exact ⟨[], .nil⟩
  | cons hfirst _ ih =>
    obtain ⟨es, hes⟩ := hfirst.account
    obtain ⟨fs, hfs⟩ := ih (List.nodup_cons.mp hnodup).2
    exact ⟨es ++ fs, hes.append hfs hnodup⟩

theorem nodup_eraseDups (ks : List IntentKey) : ks.eraseDups.Nodup := by
  match ks with
  | [] => simp
  | k :: ks =>
    rw [List.eraseDups_cons, List.nodup_cons]
    exact ⟨by simp, nodup_eraseDups _⟩
termination_by ks.length
decreasing_by exact Nat.lt_succ_of_le (List.length_filter_le _ _)

theorem nodup_keys (n : Nat) : (d.keys n).Nodup := by
  have hinj : ∀ l m : Nat, l ≠ m → d.key (l + 1) ≠ d.key (m + 1) := by
    intro l m hne hkey
    apply hne
    have hnumber := (IntentKey.forService_inj.mp hkey).2
    omega
  exact List.Pairwise.map _ hinj List.nodup_range

theorem keys_keyedLegs : d.keyedLegs.map (·.1) = d.plannedKeys d.request :=
  List.map_fst_zip (Nat.le_of_eq (length_keys _))

/-- The planned keys and then keys that are not planned are all different. -/
theorem nodup_planned_append {ks : List IntentKey} (h : ks.Nodup) :
    (d.plannedKeys d.request ++ ks.filter fun k => k ∉ d.plannedKeys d.request).Nodup := by
  apply List.nodup_append.mpr
  refine ⟨nodup_keys _, h.filter _, ?_⟩
  intro k hk l hl hkl
  rw [List.mem_filter, ← hkl] at hl
  simp [hk] at hl

/-- A report has one outcome at most for a key, and accounts for the whole run. -/
theorem Ran.account {previous : Option ServiceRequest} {validation : Validation} {report : Report}
    (h : Ran o d previous x validation report z) :
    (report.outcomes.map (·.key)).Nodup ∧ ∃ es, Account d x report.outcomes es z := by
  cases h with
  | @create outcomes q z hall =>
    have hnodup : (outcomes.map (·.key)).Nodup := by
      rw [hall.keys_eq, keys_keyedLegs]
      exact nodup_keys _
    exact ⟨hnodup, hall.account (fun _ h => h) hnodup⟩
  | @update outcomes q y ws z hall hstale =>
    have hnodup : ((outcomes ++ ws).map (·.key)).Nodup := by
      rw [List.map_append, hall.keys_eq, hstale.keys_eq, keys_keyedLegs]
      exact nodup_planned_append (nodup_eraseDups _)
    have hparts := hnodup
    rw [List.map_append, List.nodup_append] at hparts
    obtain ⟨es, hes⟩ := hall.account (fun _ h => h) hparts.1
    obtain ⟨fs, hfs⟩ := hstale.account hparts.2.1
    exact ⟨hnodup, es ++ fs, hes.append (Account.ensure.append hfs hparts.2.1) hnodup⟩
  | @delete ws z hall =>
    have hnodup : (ws.map (·.key)).Nodup := hall.keys_eq ▸ nodup_eraseDups _
    obtain ⟨es, hes⟩ := hall.account hnodup
    exact ⟨hnodup, es, Account.ensure.append hes hnodup⟩

/-- The first outcomes of an installation are those of the planned legs, in order. -/
theorem Ran.planned_prefix {previous : Option ServiceRequest} {validation : Validation}
    {report : Report} (h : Ran o d previous x validation report z) (hv : validation ≠ .delete) :
    d.plannedKeys d.request <+: report.outcomes.map (·.key) := by
  cases h with
  | create hall =>
    have hkeys := hall.keys_eq.trans keys_keyedLegs
    exact hkeys ▸ List.prefix_rfl
  | update hall _ =>
    rw [List.map_append, hall.keys_eq, keys_keyedLegs]
    exact List.prefix_append ..
  | delete => exact absurd rfl hv

/-! ## Keys with an outcome -/

theorem mem_ownedIn {others : List IntentKey} :
    k ∈ d.ownedIn x others ↔ x.entry d.service k ≠ none ∨ k ∈ others := by
  rw [ownedIn, List.mem_eraseDups, List.mem_append, ← ServiceRecord.contains_iff, Scene.entry,
    ServiceRecord.contains]
  cases x.record d.service <;> simp [Option.isSome_iff_ne_none]

theorem exists_of_mem_plannedKeys {r : ServiceRequest} (h : k ∈ d.plannedKeys r) :
    ∃ n, k = .forService d.app d.service n := by
  obtain ⟨n, -, rfl⟩ := mem_keys.mp h
  exact ⟨n + 1, rfl⟩

theorem exists_of_mem_previousKeys {previous : Option ServiceRequest}
    (h : k ∈ d.previousKeys previous) : ∃ n, k = .forService d.app d.service n := by
  cases previous with
  | none => cases h
  | some r => exact exists_of_mem_plannedKeys h

/-- Only keys of the service and keys in its record have outcomes. -/
theorem Ran.key_owned {previous : Option ServiceRequest} {validation : Validation}
    {report : Report} (h : Ran o d previous x validation report z)
    (hmem : outcome ∈ report.outcomes) :
    (∃ n, outcome.key = .forService d.app d.service n) ∨
      x.entry d.service outcome.key ≠ none := by
  have hkey := List.mem_map_of_mem (f := Outcome.key) hmem
  cases h with
  | create hall =>
    rw [hall.keys_eq, keys_keyedLegs] at hkey
    exact .inl (exists_of_mem_plannedKeys hkey)
  | @update outcomes q y ws z hall hstale =>
    by_cases hplanned : outcome.key ∈ d.plannedKeys d.request
    · exact .inl (exists_of_mem_plannedKeys hplanned)
    · have hkeys : outcomes.map (·.key) = d.plannedKeys d.request := by
        rw [hall.keys_eq, keys_keyedLegs]
      rw [List.map_append, hkeys, hstale.keys_eq, List.mem_append, List.mem_filter,
        mem_ownedIn] at hkey
      obtain ⟨es, hes⟩ := hall.account (fun _ h => h) (hkeys ▸ nodup_keys _)
      -- Realizing the legs has not touched the key, so what is owned now was owned before.
      rw [← (hes.untouched outcome.key (hkeys ▸ hplanned)).entry]
      rcases hkey with hkey | ⟨hkey | hkey, -⟩
      · exact absurd hkey hplanned
      · exact .inr hkey
      · exact .inl (exists_of_mem_previousKeys hkey)
  | delete hall =>
    rw [hall.keys_eq, mem_ownedIn, List.mem_append] at hkey
    rcases hkey with hkey | hkey | hkey
    · exact .inr hkey
    · exact .inl (exists_of_mem_plannedKeys hkey)
    · exact .inl (exists_of_mem_previousKeys hkey)

theorem WithdrawnAll.eq_withdrawal {ks : List IntentKey} (h : WithdrawnAll o d ks x outcomes z)
    (hmem : outcome ∈ outcomes) :
    outcome = .withdrawn outcome.key ∨ ∃ reason, outcome = .withdrawFailed outcome.key reason := by
  induction h with
  | nil => cases hmem
  | cons hfirst _ ih =>
    rcases List.mem_cons.mp hmem with rfl | hmem
    · cases hfirst with
      | withdrawn => exact .inl rfl
      | failed => exact .inr ⟨_, rfl⟩
    · exact ih hmem

/-- Nothing but withdrawals comes of a key when a service is deleted. -/
theorem Ran.eq_withdrawal {previous : Option ServiceRequest} {report : Report}
    (h : Ran o d previous x .delete report z) (hmem : outcome ∈ report.outcomes) :
    outcome = .withdrawn outcome.key ∨ ∃ reason, outcome = .withdrawFailed outcome.key reason := by
  cases h with
  | delete hall => exact hall.eq_withdrawal hmem

/-! ## The truth of reports -/

/-- The report tells the truth: no key has two outcomes, every planned leg has its outcome first, in
order, and the outcomes account for the whole run. -/
theorem report_upheld {previous : Option ServiceRequest} {validation : Validation}
    {report : Report} (h : o.eval (d.run previous validation) x = (.ok report, z)) :
    (report.outcomes.map (·.key)).Nodup ∧
      (validation ≠ .delete → ∃ rest, report.outcomes.map (·.key) =
        (List.range (d.legsOf d.request).1.length).map
          (fun n => IntentKey.forService d.app d.service (n + 1)) ++ rest) ∧
      ∃ es, Account d x report.outcomes es z := by
  have hran := ran_of_eval h
  obtain ⟨hnodup, haccount⟩ := hran.account
  refine ⟨hnodup, ?_, haccount⟩
  intro hv
  obtain ⟨rest, hrest⟩ := hran.planned_prefix hv
  exact ⟨rest, hrest.symm⟩

/-- A negotiable request for one path. -/
def onePath : Decomposition where
  app := ⟨1, "app"⟩
  retries := 1
  service := ⟨"s", by decide⟩
  request := ⟨.path ⟨0, ⟨⟨"a"⟩, []⟩, ⟨⟨"b"⟩, []⟩⟩, [], true⟩
  settings := {}

/-! A service of two intents is changed to a mesh of three points. -/

def threePoints : Decomposition :=
  { onePath with
    request := ⟨.mesh ⟨[⟨⟨"a"⟩, []⟩, ⟨⟨"b"⟩, []⟩, ⟨⟨"c"⟩, []⟩]⟩, [], true⟩ }

def threePointsBefore : Scene Nat where
  records := VersionedMap.empty.put threePoints.service
    ⟨[⟨threePoints.key 4, .installed, [], true⟩, ⟨threePoints.key 5, .installed, [], true⟩]⟩
  index := .empty
  outside := 0
  calls := []

/-- Surroundings where the registry answers four questions, and the framework accepts one intent and
gives one up. -/
def reluctant : Surroundings Nat where
  resolve p asked :=
    (if asked < 4 then .ok [.eth p.name none ⟨p.name⟩ 1] else .error (.unavailable ""), asked + 1)
  submit _ i asked :=
    (if i.key = threePoints.key 1 then .ok .accepted else .error (.rejected i.key "busy"), asked)
  withdraw _ k asked := (if k = threePoints.key 4 then .ok () else .error (.timeout k), asked)
  heldIntents asked := ([], asked)
  listing := List.reverse
  listing_perm := List.reverse_perm

def threePointsReport : Report where
  service := threePoints.service
  validation := .update
  outcomes := [.submitted (threePoints.key 1) .installReq,
    .rejected (threePoints.key 2) "intent s-2 rejected: busy",
    .endpointNotFound (threePoints.key 3) ⟨"b"⟩, .withdrawn (threePoints.key 4),
    .withdrawFailed (threePoints.key 5) "intent s-5 not acknowledged in time"]
  issues := ["s-3: no endpoint for b"]

/-- Each kind of outcome stands in the report. -/
theorem report_upheld_threePoints :
    ∃ z es, reluctant.eval (threePoints.run none .update) threePointsBefore =
        (.ok threePointsReport, z) ∧
      threePoints.Account threePointsBefore threePointsReport.outcomes es z := by
  have hreport : (reluctant.eval (threePoints.run none .update) threePointsBefore).1 =
      .ok threePointsReport := by decide +kernel
  have hrun : reluctant.eval (threePoints.run none .update) threePointsBefore =
      (.ok threePointsReport, (reluctant.eval (threePoints.run none .update)
        threePointsBefore).2) := Prod.ext hreport rfl
  obtain ⟨-, -, es, hes⟩ := report_upheld hrun
  exact ⟨_, es, hrun, hes⟩

end Decomposition

end IntentPlane
