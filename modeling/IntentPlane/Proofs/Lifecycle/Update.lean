import IntentPlane.Proofs.Lifecycle.Removal

/-!
# Updates converge to the new request

An update installs the new request as creating it would, and then withdraws what else the service
owns. Installing touches planned keys only, so what it owns beside them is what it owned before
(`RealizedAll.recordedBut_eq`), and none of the planned keys is withdrawn.
-/

namespace IntentPlane

section

variable {τ : Type} {o : Surroundings τ} {d : Decomposition} {k : IntentKey} {leg : Leg}
  {p q : Progress} {x y z : Scene τ} {outcomes : List Outcome} {planned others : List IntentKey}

/-! ## What installing leaves of a record -/

namespace Scene

/-- The recorded keys that are not planned, in order. -/
def recordedBut (x : Scene τ) (s : ServiceId) (planned : List IntentKey) : List IntentKey :=
  ((x.record s).getD .empty).keys.filter fun k => k ∉ planned

theorem recordedBut_upsert {e : KeyStatus} (s : ServiceId) (he : e.key ∈ planned) :
    (x.upsert s e).recordedBut s planned = x.recordedBut s planned := by
  rw [recordedBut, record_upsert, if_pos rfl, Option.getD_some, ServiceRecord.keys_upsert,
    recordedBut]
  split
  · rfl
  · rw [List.filter_append, List.filter_singleton]
    simp [he]

end Scene

namespace Decomposition

theorem Realized.recordedBut_eq {r : Outcome × Progress} (h : Realized o d k leg p x r y)
    (hk : k ∈ planned) : y.recordedBut d.service planned = x.recordedBut d.service planned := by
  cases h with
  | unresolved => rfl
  | submitted | rejected => exact Scene.recordedBut_upsert d.service hk

/-- Realizing planned legs adds no other key to the record. -/
theorem RealizedAll.recordedBut_eq {legs : List (IntentKey × Leg)}
    (h : RealizedAll o d legs p x outcomes q z) (hlegs : ∀ k ∈ legs.map (·.1), k ∈ planned) :
    z.recordedBut d.service planned = x.recordedBut d.service planned := by
  induction h with
  | nil => rfl
  | cons hfirst _ ih =>
    rw [List.map_cons, List.forall_mem_cons] at hlegs
    exact (ih hlegs.2).trans (hfirst.recordedBut_eq hlegs.1)

theorem RealizedAll.ne_withdrawn {legs : List (IntentKey × Leg)}
    (h : RealizedAll o d legs p x outcomes q z) (k : IntentKey) : .withdrawn k ∉ outcomes := by
  induction h with
  | nil => exact List.not_mem_nil
  | cons hfirst _ ih =>
    rw [List.mem_cons, not_or]
    refine ⟨?_, ih⟩
    cases hfirst <;> exact nofun

theorem eraseDups_of_nodup {ks : List IntentKey} (h : ks.Nodup) : ks.eraseDups = ks := by
  induction ks with
  | nil => rfl
  | cons k ks ih =>
    rw [List.nodup_cons] at h
    have hfilter : ks.filter (fun l => !l == k) = ks :=
      List.filter_eq_self.mpr fun l hl => by
        have hne : l ≠ k := fun hlk => h.1 (hlk ▸ hl)
        simpa using hne
    rw [List.eraseDups_cons, hfilter, ih h.2]

/-- What the service owns beside the planned keys: those recorded, and then those of the others that
are not recorded. -/
theorem ownedIn_filter (hkeys : ((x.record d.service).getD .empty).keys.Nodup)
    (hothers : others.Nodup) :
    (d.ownedIn x others).filter (fun k => k ∉ planned) =
      x.recordedBut d.service planned ++
        others.filter fun k => k ∉ planned ∧ k ∉ x.recordedBut d.service planned := by
  have hothers' : (others.removeAll ((x.record d.service).getD .empty).keys).Nodup :=
    hothers.filter _
  rw [ownedIn, List.eraseDups_append, eraseDups_of_nodup hkeys, eraseDups_of_nodup hothers',
    List.filter_append]
  refine congrArg (x.recordedBut d.service planned ++ ·) ?_
  rw [List.removeAll, List.filter_filter]
  refine List.filter_congr fun k _ => ?_
  by_cases hk : k ∈ planned <;> simp [Scene.recordedBut, hk]

end Decomposition

end

/-! ## Updating -/

namespace Deployment

/-- The keys of the legs that a demand asks for. -/
def newKeys (D : Deployment) (demand : Demand) : List IntentKey :=
  (List.range (demand.request.action.legs demand.settings.bidirectional .empty).1.length).map
    fun n => .forService D.app demand.service (n + 1)

/-- The keys of the legs that the previous request asks for, under the settings of the demand. -/
def oldKeys (D : Deployment) (demand : Demand) : List IntentKey :=
  match demand.previous with
  | some request => D.newKeys { demand with request }
  | none => []

/-- The keys that an update withdraws: those recorded and not asked for any more, and then those
that were asked for before, each once. -/
def staleKeys (D : Deployment) (demand : Demand) (w : World) : List IntentKey :=
  let recorded := ((w.record demand.service).getD .empty).keys.filter (· ∉ D.newKeys demand)
  recorded ++ (D.oldKeys demand).filter fun k => k ∉ D.newKeys demand ∧ k ∉ recorded

variable {D : Deployment} {w : World} {demand : Demand}

theorem previousKeys_eq (D : Deployment) (demand : Demand) :
    (D.decomposition demand).previousKeys demand.previous = D.oldKeys demand := by
  rw [Decomposition.previousKeys, oldKeys]
  cases demand.previous <;> rfl

theorem nodup_oldKeys (D : Deployment) (demand : Demand) : (D.oldKeys demand).Nodup := by
  rw [oldKeys]
  cases demand.previous with
  | none => exact .nil
  | some r => exact Decomposition.nodup_keys (d := D.decomposition demand) _

/-- Creating and updating a service do the same up to the withdrawals of an update, which remove
what is not asked for. -/
theorem Reaches.update (hw : D.Reaches w)
    (hdir : demand.settings.bidirectional = true ∨ demand.settings.unidirectional = true) :
    ∃ installed issues u,
      D.decompose { demand with validation := .create } w =
        (.ok ⟨demand.service, .create, installed, issues⟩, u) ∧
      installed.map (·.key) = D.newKeys demand ∧ (∀ k, .withdrawn k ∉ installed) ∧
      ∀ previous, (D.newKeys demand ++ D.staleKeys { demand with previous } w).Nodup ∧
        ∃ v, D.decompose { demand with previous, validation := .update } w =
            (.ok ⟨demand.service, .update,
              installed ++ (D.staleKeys { demand with previous } w).map .withdrawn, issues⟩, v) ∧
          Cleared D.app demand.service (D.newKeys demand) u v := by
  have hpos : (D.decomposition demand).retries ≠ 0 := D.retries_pos
  obtain ⟨⟨installed, tracker⟩, y, hinstall⟩ := Decomposition.eval_install_ok
    (o := .inMemory .inserted) (x := w.scene) hpos
  obtain ⟨q, hall, rfl⟩ := Decomposition.install_cases hinstall
  have hcreate : D.decompose { demand with validation := .create } w =
      (.ok ⟨demand.service, .create, installed, q.tracker.issues⟩, y.world) :=
    (decompose_of_eval (Decomposition.eval_run_create hdir hinstall demand.previous)).1
  have hu : D.Reaches y.world := hw.decompose hcreate
  refine ⟨installed, _, y.world, hcreate, hall.keys_eq.trans Decomposition.keys_keyedLegs,
    hall.ne_withdrawn, fun previous => ?_⟩
  have hkeys : ((D.decomposition demand).ownedIn y (D.oldKeys { demand with previous })).filter
      (fun k => k ∉ D.newKeys demand) = D.staleKeys { demand with previous } w := by
    have hproper : ((y.record demand.service).getD .empty).Proper D.app demand.service :=
      .getD (hu.orderly demand.service)
    -- What is recorded beside the new keys was so before the installation, too.
    have hbut : y.recordedBut (D.decomposition demand).service (D.newKeys demand) =
        w.scene.recordedBut (D.decomposition demand).service (D.newKeys demand) :=
      hall.recordedBut_eq fun k hk => by rwa [Decomposition.keys_keyedLegs] at hk
    rw [Decomposition.ownedIn_filter hproper.nodup (D.nodup_oldKeys _), hbut]
    rfl
  obtain ⟨ws, z, hstale⟩ := Decomposition.eval_withdrawAll_ok (o := .inMemory .inserted)
    (x := y.ensure demand.service) hpos
    (((D.decomposition demand).ownedIn y (D.oldKeys { demand with previous })).filter
      fun k => k ∉ D.newKeys demand)
  have hwithdrawn := Decomposition.withdrawAll_cases hstale
  have howned : ((D.decomposition demand).ownedIn y (D.oldKeys { demand with previous })).Nodup :=
    Decomposition.nodup_eraseDups _
  have hnodup := Decomposition.nodup_planned_append (d := D.decomposition demand) howned
  refine ⟨hkeys ▸ hnodup, z.world, ?_,
    cleared_of_withdrawnAll hu.orderly (fun k hk hnone _ => hu.coherent.absent hk hnone)
      (fun k hk => ?_) hwithdrawn⟩
  · rw [← hkeys, ← hwithdrawn.eq_map]
    rw [← previousKeys_eq] at hstale
    exact (decompose_of_eval (Decomposition.eval_run_update hdir hinstall
      ((Decomposition.eval_withdrawStale previous).trans hstale))).1
  · rw [← previousKeys_eq] at hk
    exact Decomposition.exists_of_mem_previousKeys hk

end Deployment

variable {D : Deployment} {w : World} {demand : Demand}

/-- Updates converge to the new request. In every world that operations lead to, a demand to update
a service is met: the legs asked for are realized as creating the service would, with the same
outcomes, and then all other keys that are recorded or were asked for before are withdrawn, each
once. Entries, index and held intents of the new keys are as creating the service leaves them; other
entries become withdrawn or, where an intent was held, requested to be; and nothing is held under
other keys of the service. The previous request makes no difference to all this. -/
theorem update_converges (hw : D.Reaches w) (hv : demand.validation = .update)
    (hdir : demand.settings.bidirectional = true ∨ demand.settings.unidirectional = true) :
    ∃ installed issues u v,
      D.decompose { demand with validation := .create } w =
        (.ok ⟨demand.service, .create, installed, issues⟩, u) ∧
      D.decompose demand w =
        (.ok ⟨demand.service, .update, installed ++ (D.staleKeys demand w).map .withdrawn, issues⟩,
          v) ∧
      installed.map (·.key) = D.newKeys demand ∧
      (D.newKeys demand ++ D.staleKeys demand w).Nodup ∧
      (∀ k ∈ D.newKeys demand,
        .withdrawn k ∉ installed ++ (D.staleKeys demand w).map .withdrawn) ∧
      (∀ k ∈ D.newKeys demand, v.entry demand.service k = u.entry demand.service k ∧
        v.indexed k = u.indexed k ∧ v.framework.get? k = u.framework.get? k) ∧
      (∀ k, k ∉ D.newKeys demand → v.entry demand.service k =
        (w.entry demand.service k).map (·.withStatus
          (if (w.framework.get? k).isSome then .withdrawReq else .withdrawn))) ∧
      (∀ n, v.framework.get? (.forService D.app demand.service n) ≠ none →
        .forService D.app demand.service n ∈ D.newKeys demand) ∧
      ∀ previous, ∃ report v',
        D.decompose { demand with previous } w = (.ok report, v') ∧ v.Alike v' := by
  obtain ⟨installed, issues, u, hcreate, hkeys, hne, hupdate⟩ := hw.update hdir
  obtain ⟨hnodup, v, hrun, hcleared⟩ := hupdate demand.previous
  refine ⟨installed, issues, u, v, hcreate, hv ▸ hrun, hkeys, hnodup, ?_, ?_, ?_, ?_, ?_⟩
  · intro k hk hmem
    rcases List.mem_append.mp hmem with hmem | hmem
    · exact hne k hmem
    · obtain ⟨l, hl, hlk⟩ := List.mem_map.mp hmem
      cases hlk
      exact (List.nodup_append.mp hnodup).2.2 k hk k hl rfl
  · intro k hk
    obtain ⟨hheld, hindexed⟩ := hcleared.spared k fun hno => hno.2 hk
    exact ⟨(hcleared.entry k).trans (if_pos hk), hindexed, hheld⟩
  · intro k hk
    obtain ⟨hentry, hheld⟩ := Deployment.untouched_of_decompose hcreate (hkeys ▸ hk)
    rw [hcleared.entry k, if_neg hk, hentry, World.withdrawalStatus, hheld]
  · intro n hheld
    by_contra hk
    exact hheld (hcleared.gone _ ⟨n, rfl⟩ hk).1
  · intro previous
    obtain ⟨-, v', hrun', hcleared'⟩ := hupdate previous
    rw [← hv] at hrun'
    exact ⟨_, v', hrun', hcleared.alike hcleared'⟩

/-! A connection of two legs, one for each direction, that becomes a path of one. -/

def connectionCreated : List Operation :=
  [.register ((Table.empty.insert ⟨"a"⟩ [.eth "1" none ⟨"x"⟩ 1]).insert ⟨"b"⟩
      [.eth "2" none ⟨"y"⟩ 1, .eth "3" none ⟨"z"⟩ 1]),
    .decompose { pathDemand .create with
      request := ⟨.connection ⟨0, ⟨⟨"a"⟩, []⟩, ⟨⟨"b"⟩, []⟩⟩, [], false⟩
      settings := { bidirectional := false, unidirectional := true } }]

/-- The second leg is withdrawn, and only the path is held afterwards. -/
theorem connection_updated :
    ∃ installed issues v, pathDeployment.decompose (pathDemand .update)
        (pathDeployment.after connectionCreated .empty) =
          (.ok ⟨(pathDemand .update).service, .update, installed ++
            [.withdrawn (.forService pathDeployment.app (pathDemand .update).service 2)], issues⟩,
            v) ∧
      installed.map (·.key) = [pathKey] ∧
      ∀ n, v.framework.get? (.forService pathDeployment.app (pathDemand .update).service n) ≠ none →
        .forService pathDeployment.app (pathDemand .update).service n ∈ [pathKey] := by
  have hw : pathDeployment.Reaches (pathDeployment.after connectionCreated .empty) :=
    ⟨connectionCreated, rfl⟩
  have hv : (pathDemand .update).validation = .update := rfl
  obtain ⟨installed, issues, u, v, -, hrun, hkeys, -, -, -, -, hheld, -⟩ :=
    update_converges hw hv (.inl rfl)
  have hstale : pathDeployment.staleKeys (pathDemand .update)
      (pathDeployment.after connectionCreated .empty) =
        [.forService pathDeployment.app (pathDemand .update).service 2] := by decide +kernel
  rw [hstale] at hrun
  exact ⟨installed, issues, v, hrun, hkeys, hheld⟩

end IntentPlane
