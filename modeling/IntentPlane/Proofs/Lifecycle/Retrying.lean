import IntentPlane.Proofs.Lifecycle.Deletion
import IntentPlane.Proofs.Lifecycle.Standing

/-!
# Retrying

A decomposition that is given up because the store loses its writes may leave an intent with the
framework that neither the record nor the index knows of. Doing the same again repairs it: legs that
were realized are realized as before, and the one that was given up hides what was left of it. So
does deleting the service, which withdraws planned keys whether they are recorded or not.
-/

namespace IntentPlane

open Surroundings (inMemory)

variable {D : Deployment} {d : Decomposition} {e : Enumeration} {v w : World}
  {x y z : Scene Facilities} {k : IntentKey} {losses : List Bool} {demand : Demand}
  {error : StoreError}

/-! ## Giving up -/

theorem losing_world (e : Enumeration) (access : Access) (x : Scene Facilities)
    (losses : List Bool) :
    losing (World.answerIn e) access (x.world, losses) =
      ((losing (inMemory e).answer access (x, losses)).1,
        (losing (inMemory e).answer access (x, losses)).2.1.world,
        (losing (inMemory e).answer access (x, losses)).2.2) := by
  cases access with
  | replaceRecord => rcases losses with _ | ⟨_ | _, losses⟩ <;> rfl
  | readRecord | ensureRecord | putRecord | removeRecord | listServices | listRecords
  | indexIntent | indexedIntent | unindexIntent | resolve | submit | withdraw | heldIntents => rfl

theorem Program.run_losing_world (e : Enumeration) (p : Program α) (x : Scene Facilities)
    (losses : List Bool) :
    p.run (losing (World.answerIn e)) (x.world, losses) =
      ((p.run (losing (inMemory e).answer) (x, losses)).1,
        (p.run (losing (inMemory e).answer) (x, losses)).2.1.world,
        (p.run (losing (inMemory e).answer) (x, losses)).2.2) := by
  induction p generalizing x losses with
  | done => rfl
  | ask access next ih =>
    simp only [Program.run, losing_world]
    exact ih ..

/-- Lost writes do not change the terms either. -/
theorem Program.terms_run_losing (e : Enumeration) (p : Program α) (x : Scene Facilities)
    (losses : List Bool) :
    (p.run (losing (inMemory e).answer) (x, losses)).2.1.outside.terms = x.outside.terms := by
  induction p generalizing x losses with
  | done => rfl
  | ask access next ih =>
    refine (ih ..).trans ?_
    have hterms := Surroundings.terms_answer e access x
    cases access with
    | replaceRecord => rcases losses with _ | ⟨_ | _, losses⟩ <;> rfl
    | readRecord | ensureRecord | putRecord | removeRecord | listServices | listRecords
    | indexIntent | indexedIntent | unindexIntent | resolve | submit | withdraw | heldIntents =>
      exact hterms

namespace Deployment

/-- Meets a demand on a store that loses the conditional writes that it is told to, one after
another. -/
def decomposeLosing (D : Deployment) (losses : List Bool) (demand : Demand) (w : World) :
    Except DecomposeError Report × World :=
  let (result, w, _) := ((D.decomposition demand).run demand.previous demand.validation).run.run
    (losing World.answer) (w, losses)
  (result, w)

/-- A run that an error of the store ends is given up in one of the scenes that it may falter in. -/
theorem given_up {aborted : Scene Facilities → Prop}
    (hfalters : (inMemory .inserted).Falters
      ((D.decomposition demand).run demand.previous demand.validation) w.scene aborted)
    (h : D.decomposeLosing losses demand w = (.error (.store error), v)) :
    ∃ y, aborted y ∧ v = y.world ∧ y.outside.terms = w.scene.outside.terms := by
  obtain ⟨result, y, rest, hrun, hends⟩ := hfalters losses
  have hterms := Program.terms_run_losing .inserted
    ((D.decomposition demand).run demand.previous demand.validation).run w.scene losses
  have hworld := Program.run_losing_world .inserted
    ((D.decomposition demand).run demand.previous demand.validation).run w.scene losses
  rw [hrun] at hterms hworld
  rw [decomposeLosing, ← World.answerIn_inserted] at h
  change _ = (result, y.world, rest) at hworld
  rw [World.world_scene] at hworld
  rw [hworld] at h
  obtain ⟨hresult, rfl⟩ := Prod.mk.inj h
  refine ⟨y, ?_, rfl, hterms⟩
  rcases hends with heval | ⟨-, -, hy⟩
  · -- On a store that works there is no such error.
    rw [hresult] at heval
    rcases Decomposition.eval_run_cases (o := inMemory .inserted) (x := w.scene)
        (d := D.decomposition demand) D.retries_pos demand.previous demand.validation with
      hno | ⟨report, z, hok⟩
    · cases hno.symm.trans heval
    · cases hok.symm.trans heval
  · exact hy

end Deployment

/-! ## Creating a service -/

namespace Decomposition

/-- What creating the service leaves, leg by leg. -/
def imprints (d : Decomposition) (t : Terms) : List Imprint :=
  (d.plan t d.keyedLegs ⟨[], (d.legsOf d.request).2⟩).2

/-- The report of creating the service. -/
def creation (d : Decomposition) (t : Terms) : Report :=
  let (outcomes, p) := (d.plan t d.keyedLegs ⟨[], (d.legsOf d.request).2⟩).1
  ⟨d.service, .create, outcomes, p.tracker.issues⟩

theorem imprints_sublist (d : Decomposition) (t : Terms) :
    ((d.imprints t).map (·.key)).Sublist (d.plannedKeys d.request) := by
  rw [← keys_keyedLegs]
  exact plan_sublist ..

theorem nodup_imprints (d : Decomposition) (t : Terms) : ((d.imprints t).map (·.key)).Nodup :=
  (d.imprints_sublist t).nodup (nodup_keys _)

theorem eval_create (hdir : d.settings.bidirectional = true ∨ d.settings.unidirectional = true)
    (hpos : d.retries ≠ 0) (previous : Option ServiceRequest) (x : Scene Facilities) :
    ∃ z, (inMemory e).eval (d.run previous .create) x = (.ok (d.creation x.outside.terms), z) ∧
      z.standing = x.standing.settleAll d.service (d.imprints x.outside.terms) := by
  obtain ⟨r, z, hall⟩ := eval_realizeAll_ok (o := inMemory e) (p := ⟨[], (d.legsOf d.request).2⟩)
    (x := x) hpos d.keyedLegs
  obtain ⟨hplan, hstanding⟩ := eval_realizeAll_standing hall
  have hinstall : (inMemory e).eval d.install x = (.ok (r.1, r.2.tracker), z) :=
    Surroundings.eval_bind_ok hall _
  refine ⟨z, (eval_run_create hdir hinstall previous).trans ?_, hstanding⟩
  rw [creation, ← hplan]

/-- Only a run with a direction can be given up. -/
theorem falters_run {aborted : Scene Facilities → Prop} {previous : Option ServiceRequest}
    {validation : Validation} (h : (inMemory e).Falters (d.perform previous validation) x aborted) :
    (inMemory e).Falters (d.run previous validation) x fun y =>
      (d.settings.bidirectional = true ∨ d.settings.unidirectional = true) ∧ aborted y := by
  rw [run]
  split
  · exact .throw _
  · rename_i hdir
    have hdir : d.settings.bidirectional = true ∨ d.settings.unidirectional = true := by
      simpa [Classical.or_iff_not_imp_left] using hdir
    exact h.mono fun y hy => ⟨hdir, hy⟩

/-- What is left of a service whose creation is given up. -/
theorem falters_create (hpos : d.retries ≠ 0) (previous : Option ServiceRequest)
    (x : Scene Facilities) :
    (inMemory e).Falters (d.perform previous .create) x fun y => ∃ ms m ns,
      d.imprints x.outside.terms = ms ++ m :: ns ∧
        y.standing = (x.standing.settleAll d.service ms).halfway d.service m :=
  .bind (.bind (falters_realizeAll hpos _) fun _ _ _ => .pure _) fun _ _ _ => .pure _

end Decomposition

namespace Deployment

/-- Creating a service comes to what was decided beforehand, and changes nothing of that. -/
theorem create_eq (D : Deployment) (w : World)
    (hdir : demand.settings.bidirectional = true ∨ demand.settings.unidirectional = true) :
    ∃ u, D.decompose { demand with validation := .create } w =
        (.ok ((D.decomposition demand).creation w.scene.outside.terms), u) ∧
      u.standing = w.standing.settleAll demand.service
        ((D.decomposition demand).imprints w.scene.outside.terms) ∧
      u.scene.outside.terms = w.scene.outside.terms := by
  obtain ⟨z, heval, hstanding⟩ := Decomposition.eval_create (d := D.decomposition demand)
    (e := .inserted) hdir D.retries_pos demand.previous w.scene
  exact ⟨z.world, (decompose_of_eval heval).1, hstanding,
    Surroundings.terms_eval (y := z) heval⟩

/-- What is left of a service whose creation is given up. -/
theorem creation_given_up
    (h : D.decomposeLosing losses { demand with validation := .create } w =
      (.error (.store error), v)) :
    (demand.settings.bidirectional = true ∨ demand.settings.unidirectional = true) ∧
      v.scene.outside.terms = w.scene.outside.terms ∧
      ∃ ms m ns, (D.decomposition demand).imprints w.scene.outside.terms = ms ++ m :: ns ∧
        v.standing = (w.standing.settleAll demand.service ms).halfway demand.service m := by
  obtain ⟨y, ⟨hdir, hhalf⟩, rfl, hterms⟩ := given_up
    (Decomposition.falters_run
      (Decomposition.falters_create D.retries_pos demand.previous w.scene)) h
  exact ⟨hdir, hterms, hhalf⟩

/-- A creation that is given up is taken up again as if from the start. -/
theorem create_resumed (h : D.decomposeLosing losses { demand with validation := .create } w =
      (.error (.store error), v)) :
    ∃ report u v', D.decompose { demand with validation := .create } w = (.ok report, u) ∧
      D.decompose { demand with validation := .create } v = (.ok report, v') ∧ v'.Alike u := by
  obtain ⟨hdir, hterms, ms, m, ns, himprints, hhalf⟩ := creation_given_up h
  obtain ⟨u, hu, hustanding, -⟩ := D.create_eq w hdir
  obtain ⟨v', hv', hvstanding, -⟩ := D.create_eq v hdir
  rw [hterms] at hv' hvstanding
  refine ⟨_, u, v', hu, hv', World.alike_iff.mpr ?_⟩
  have hnodup := (D.decomposition demand).nodup_imprints w.scene.outside.terms
  rw [himprints] at hnodup hvstanding hustanding
  rw [hvstanding, hustanding, hhalf, Standing.settleAll_resume hnodup]

/-- Creating a service again changes nothing. -/
theorem create_repeated (D : Deployment) (demand : Demand) (w : World) :
    ∃ result u u', D.decompose { demand with validation := .create } w = (result, u) ∧
      D.decompose { demand with validation := .create } u = (result, u') ∧ u'.Alike u := by
  by_cases hdir : demand.settings.bidirectional = true ∨ demand.settings.unidirectional = true
  · obtain ⟨u, hu, hustanding, hterms⟩ := D.create_eq w hdir
    obtain ⟨u', hu', hstanding, -⟩ := D.create_eq u hdir
    rw [hterms] at hu' hstanding
    refine ⟨_, u, u', hu, hu', World.alike_iff.mpr ?_⟩
    rw [hstanding, hustanding]
    exact Standing.settleAll_settleAll (Decomposition.nodup_imprints _ _)
  · -- Without a direction nothing is done.
    have hnone (w : World) : D.decompose { demand with validation := .create } w =
        (.error .noDirection, w) :=
      (decompose_of_eval (Decomposition.eval_run_noDirection hdir _ _)).1
    exact ⟨_, w, w, hnone w, hnone w, World.alike_iff.mpr rfl⟩

/-- A creation that is given up has touched planned keys only. -/
theorem creation_sameAt (h : D.decomposeLosing losses { demand with validation := .create } w =
      (.error (.store error), v))
    (hk : k ∉ (D.decomposition demand).plannedKeys demand.request) :
    Standing.SameAt demand.service k w.standing v.standing := by
  obtain ⟨-, -, ms, m, ns, himprints, hhalf⟩ := creation_given_up h
  have hnot : k ∉ (ms ++ m :: ns).map (·.key) := by
    intro hmem
    rw [← himprints] at hmem
    exact hk ((Decomposition.imprints_sublist _ _).subset hmem)
  rw [List.map_append, List.map_cons, List.mem_append, List.mem_cons, not_or, not_or] at hnot
  rw [hhalf]
  exact (Standing.sameAt_settleAll hnot.1).trans
    (Standing.sameAt_halfway fun hmk => hnot.2.1 hmk.symm)

theorem creation_orderly (hw : D.Reaches w)
    (h : D.decomposeLosing losses { demand with validation := .create } w =
      (.error (.store error), v)) : v.scene.Orderly D.app := by
  obtain ⟨-, -, ms, m, ns, himprints, hhalf⟩ := creation_given_up h
  have hown : ∀ n ∈ ms, n.key.BelongsTo D.app demand.service := by
    intro n hn
    have hmem : n.key ∈ ((D.decomposition demand).imprints w.scene.outside.terms).map (·.key) := by
      rw [himprints, List.map_append]
      exact List.mem_append_left _ (List.mem_map_of_mem hn)
    exact Decomposition.exists_of_mem_plannedKeys
      ((Decomposition.imprints_sublist _ _).subset hmem)
  have hproper := Standing.proper_settleAll (t := w.standing)
    (.getD (hw.orderly demand.service)) hown
  refine hw.orderly.of_record_eq hproper fun t => ?_
  change v.standing.record t = _
  rw [hhalf]
  by_cases ht : demand.service = t
  · exact (if_pos ht).trans (if_pos ht).symm
  · exact ((if_neg ht).trans (Standing.record_settleAll_of_ne ht)).trans (if_neg ht).symm

/-- Deleting a service whose creation was given up leaves nothing of it. -/
theorem creation_undone (hw : D.Reaches w)
    (h : D.decomposeLosing losses { demand with validation := .create } w =
      (.error (.store error), v)) (previous : Option ServiceRequest) :
    ∃ report v', D.decompose { demand with previous, validation := .delete } v =
        (.ok report, v') ∧ Cleared D.app demand.service [] v v' := by
  have habsent (k : IntentKey) (hk : k.BelongsTo D.app demand.service)
      (hnone : v.entry demand.service k = none)
      (hnot : k ∉ (D.decomposition demand).plannedKeys demand.request) :
      v.framework.get? k = none ∧ v.indexed k = none := by
    have hsame := creation_sameAt h hnot
    have hentry : w.entry demand.service k = none := by
      change v.scene.entry demand.service k = none at hnone
      change w.scene.entry demand.service k = none
      rw [Scene.entry_eq_getD] at hnone ⊢
      exact hsame.entry.symm.trans hnone
    obtain ⟨hheld, hindexed⟩ := hw.coherent.absent hk hentry
    exact ⟨hsame.held.trans hheld, hsame.indexed.trans hindexed⟩
  obtain ⟨v', hrun, hcleared⟩ := delete_of_absent { demand with previous, validation := .delete }
    (creation_orderly hw h) habsent rfl (creation_given_up h).1
  exact ⟨_, v', hrun, hcleared⟩

end Deployment

/-! ## Deleting a service -/

/-- A world in which the deletion of a service was given up: some of its keys are withdrawn, `rest`
are not yet, and nothing is held or indexed under `key` any more, whose entry is as before. -/
structure HalfCleared (app : ApplicationId) (s : ServiceId) (key : IntentKey)
    (rest : List IntentKey) (w v : World) : Prop where
  own : key.BelongsTo app s
  cleared : ∃ u, Cleared app s (key :: rest) w u ∧ (∀ t, v.record t = u.record t) ∧
    ∀ k, v.framework.get? k = (if key = k then none else u.framework.get? k) ∧
      v.indexed k = if key = k then none else u.indexed k

theorem Decomposition.halfCleared {done rest others : List IntentKey} {key : IntentKey}
    {ws : List Outcome} (hcoherent : Coherent d.app x.world) (horderly : x.Orderly d.app)
    (hothers : ∀ k ∈ others, k.BelongsTo d.app d.service)
    (howned : d.ownedIn x others = done ++ key :: rest)
    (hdone : WithdrawnAll (inMemory e) d done (x.ensure d.service) ws z)
    (hhalf : d.HalfWithdrawn (inMemory e) key z y) :
    HalfCleared d.app d.service key rest x.world y.world := by
  have hown : key.BelongsTo d.app d.service := by
    have hmem : key ∈ d.ownedIn x others := howned ▸ List.mem_append_right _ (.head _)
    exact (mem_ownedIn.mp hmem).elim horderly.belongsTo (hothers key)
  have hfilter : (d.ownedIn x others).filter (fun k => k ∉ key :: rest) = done := by
    have hnodup : (done ++ key :: rest).Nodup := howned ▸ nodup_eraseDups _
    have hdisjoint := (List.nodup_append.mp hnodup).2.2
    rw [howned, List.filter_append, List.filter_eq_self.mpr, List.filter_eq_nil_iff.mpr,
      List.append_nil]
    · intro k hk
      simp [hk]
    · intro k hk
      have hnot : k ∉ key :: rest := fun hmem => hdisjoint k hk k hmem rfl
      simpa using hnot
  have hcleared : Cleared d.app d.service (key :: rest) x.world z.world := by
    rw [← hfilter] at hdone
    exact cleared_of_withdrawnAll horderly (fun k hk hnone _ => hcoherent.absent hk hnone) hothers
      hdone
  obtain ⟨answer, t, hanswer, rfl⟩ := hhalf
  cases hanswer
  refine ⟨hown, z.world, hcleared, fun t => ?_, fun k => ⟨?_, ?_⟩⟩
  · refine (Scene.record_ensure _ d.service t).trans ?_
    by_cases ht : d.service = t
    · rw [if_pos ht, ← ht, hcleared.record]
      exact congrArg (fun r : Option ServiceRecord => some (r.getD .empty)) hcleared.record
    · exact if_neg ht
  · exact z.outside.framework.get?_withdraw key k
  · exact Scene.indexed_dropIndex _ key k

namespace HalfCleared

variable {app : ApplicationId} {s : ServiceId} {key : IntentKey} {rest : List IntentKey}

/-- Deleting the service from there on gets all of it. -/
theorem of_cleared {v' : World} (h : HalfCleared app s key rest w v)
    (hcleared : Cleared app s [] v v') :
    v'.record s = some ⟨((w.record s).getD .empty).entries.map fun f =>
        f.withStatus (v.withdrawalStatus f.key)⟩ ∧
      (∀ t, t ≠ s → v'.record t = w.record t) ∧
      ∀ k, ¬ k.BelongsTo app s →
        v'.framework.get? k = w.framework.get? k ∧ v'.indexed k = w.indexed k := by
  obtain ⟨hown, u, hu, hrecord, hkeys⟩ := h
  refine ⟨?_, ?_, ?_⟩
  · rw [hcleared.record, hrecord, hu.record]
    simp only [Option.getD_some, List.map_map, List.not_mem_nil, if_false]
    refine congrArg some (congrArg ServiceRecord.mk (List.map_congr_left fun f _ => ?_))
    simp only [Function.comp_apply]
    split <;> rfl
  · intro t ht
    rw [hcleared.others t ht, hrecord, hu.others t ht]
  · intro k hk
    obtain ⟨hheld, hindexed⟩ := hcleared.spared k fun hno => hk hno.1
    obtain ⟨hheld', hindexed'⟩ := hkeys k
    obtain ⟨hheld'', hindexed''⟩ := hu.spared k fun hno => hk hno.1
    have hne : key ≠ k := fun heq => hk (heq ▸ hown)
    rw [if_neg hne] at hheld' hindexed'
    exact ⟨hheld.trans (hheld'.trans hheld''), hindexed.trans (hindexed'.trans hindexed'')⟩

theorem keys_eq (h : HalfCleared app s key rest w v) :
    ((v.record s).getD .empty).keys = ((w.record s).getD .empty).keys := by
  obtain ⟨-, u, hu, hrecord, -⟩ := h
  rw [hrecord, hu.record, Option.getD_some, ServiceRecord.keys, List.map_map]
  refine List.map_congr_left fun f _ => ?_
  rw [Function.comp_apply]
  split <;> rfl

theorem orderly (h : HalfCleared app s key rest w v) (horderly : w.scene.Orderly app) :
    v.scene.Orderly app := by
  have hkeys := h.keys_eq
  have hproper : ((w.record s).getD .empty).Proper app s := .getD (horderly s)
  obtain ⟨-, u, hu, hrecord, -⟩ := h
  refine horderly.of_record_eq (s := s) (r := (v.record s).getD .empty)
    ⟨hkeys ▸ hproper.nodup, hkeys ▸ hproper.own⟩ fun t => ?_
  change v.record t = _
  by_cases ht : s = t
  · rw [if_pos ht, ← ht, hrecord, hu.record]
    rfl
  · rw [if_neg ht, hrecord]
    exact hu.others t fun hts => ht hts.symm

/-- Nothing is held or indexed under keys of the service without an entry. -/
theorem absent (h : HalfCleared app s key rest w v) (hcoherent : Coherent app w)
    (hk : k.BelongsTo app s) (hnone : v.entry s k = none) :
    v.framework.get? k = none ∧ v.indexed k = none := by
  obtain ⟨-, u, hu, hrecord, hkeys⟩ := h
  obtain ⟨hheld, hindexed⟩ := hkeys k
  rw [hheld, hindexed]
  by_cases hkey : key = k
  · exact ⟨if_pos hkey, if_pos hkey⟩
  rw [if_neg hkey, if_neg hkey]
  by_cases hleft : k ∈ key :: rest
  · -- It was not withdrawn, so it has no entry because it had none.
    obtain ⟨hheld, hindexed⟩ := hu.spared k fun hno => hno.2 hleft
    have hentry := hu.entry k
    rw [if_pos hleft] at hentry
    rw [World.entry, hrecord] at hnone
    obtain ⟨hheld', hindexed'⟩ := hcoherent.absent hk (hentry.symm.trans hnone)
    exact ⟨hheld.trans hheld', hindexed.trans hindexed'⟩
  · exact hu.gone k hk hleft

end HalfCleared

namespace Deployment

/-- A deletion that is given up is half done. -/
theorem deletion_given_up (hw : D.Reaches w)
    (h : D.decomposeLosing losses { demand with validation := .delete } w =
      (.error (.store error), v)) :
    (demand.settings.bidirectional = true ∨ demand.settings.unidirectional = true) ∧
      ∃ key rest, HalfCleared D.app demand.service key rest w v := by
  obtain ⟨y, ⟨hdir, done, key, rest, ws, z, howned, hdone, hhalf⟩, rfl, -⟩ := given_up
    (Decomposition.falters_run
      (Decomposition.falters_delete D.retries_pos demand.previous)) h
  refine ⟨hdir, key, rest, Decomposition.halfCleared hw.coherent hw.orderly (fun k hk => ?_) howned
    hdone hhalf⟩
  rcases List.mem_append.mp hk with hk | hk
  · exact Decomposition.exists_of_mem_plannedKeys hk
  · exact Decomposition.exists_of_mem_previousKeys hk

/-- A deletion that is given up is done by deleting again. -/
theorem deletion_resumed (hw : D.Reaches w)
    (h : D.decomposeLosing losses { demand with validation := .delete } w =
      (.error (.store error), v)) :
    ∃ report u v', D.decompose { demand with validation := .delete } w = (.ok report, u) ∧
      D.decompose { demand with validation := .delete } v = (.ok report, v') ∧
      Cleared D.app demand.service [] w u ∧ Cleared D.app demand.service [] v v' ∧
      ∃ key rest, HalfCleared D.app demand.service key rest w v := by
  obtain ⟨hdir, key, rest, hhalf⟩ := deletion_given_up hw h
  obtain ⟨u, hu, hcleared⟩ := delete_of_absent { demand with validation := .delete } hw.orderly
    (fun k hk hnone _ => hw.coherent.absent hk hnone) rfl hdir
  obtain ⟨v', hv', hcleared'⟩ := delete_of_absent { demand with validation := .delete }
    (hhalf.orderly hw.orderly) (fun k hk hnone _ => hhalf.absent hw.coherent hk hnone) rfl hdir
  have howned (others : List IntentKey) : (D.decomposition demand).ownedIn v.scene others =
      (D.decomposition demand).ownedIn w.scene others :=
    congrArg (fun ks => (ks ++ others).eraseDups) hhalf.keys_eq
  rw [show (D.decomposition { demand with validation := .delete }).ownedIn v.scene _ = _ from
    howned _] at hv'
  exact ⟨_, u, v', hu, hv', hcleared, hcleared', key, rest, hhalf⟩

end Deployment

/-- Nothing is left under the keys of a service that is cleared altogether. -/
theorem Cleared.emptied {s : ServiceId} (h : Cleared D.app s [] w v)
    (horderly : w.scene.Orderly D.app)
    (hk : (∃ n, k = .forService D.app s n) ∨ v.entry s k ≠ none) :
    v.framework.get? k = none ∧ v.indexed k = none := by
  refine h.gone k (hk.elim id fun hentry => ?_) List.not_mem_nil
  rw [h.entry k, if_neg List.not_mem_nil] at hentry
  exact horderly.belongsTo fun hnone => hentry (congrArg (Option.map _) hnone)

/-- Decompositions that are given up because the store loses its writes are repaired by repeating
them on a store that works. In every world that operations lead to:

* a creation that was given up, whatever writes were lost, and is repeated leads to the records, the
  index and the held intents that it would have led to had it not been given up, with the same
  report; and if the service is deleted instead, nothing is left held or indexed under its keys;
* a creation that was not given up can be repeated to no effect;
* a deletion that was given up and is repeated leads to the index and the held intents that it would
  have led to had it not been given up, with the same report. The record of the service holds the
  entries it had, in their order, as withdrawn or, where an intent was still held, as requested to
  be.
-/
theorem retry_repairs (hw : D.Reaches w) (demand : Demand) :
    (∀ losses error v,
      D.decomposeLosing losses { demand with validation := .create } w =
        (.error (.store error), v) →
      (∃ report u v', D.decompose { demand with validation := .create } w = (.ok report, u) ∧
        D.decompose { demand with validation := .create } v = (.ok report, v') ∧ v'.Alike u) ∧
      ∀ previous, ∃ report v',
        D.decompose { demand with previous, validation := .delete } v = (.ok report, v') ∧
        ∀ k, (∃ n, k = .forService D.app demand.service n) ∨ v'.entry demand.service k ≠ none →
          v'.framework.get? k = none ∧ v'.indexed k = none) ∧
    (∃ result u u', D.decompose { demand with validation := .create } w = (result, u) ∧
      D.decompose { demand with validation := .create } u = (result, u') ∧ u'.Alike u) ∧
    ∀ losses error v,
      D.decomposeLosing losses { demand with validation := .delete } w =
        (.error (.store error), v) →
      ∃ report u v', D.decompose { demand with validation := .delete } w = (.ok report, u) ∧
        D.decompose { demand with validation := .delete } v = (.ok report, v') ∧
        (∀ k, (∃ n, k = .forService D.app demand.service n) ∨ v'.entry demand.service k ≠ none →
          v'.framework.get? k = none ∧ v'.indexed k = none) ∧
        (∀ k, v'.framework.get? k = u.framework.get? k ∧ v'.indexed k = u.indexed k) ∧
        (∀ s, s ≠ demand.service → v'.record s = u.record s) ∧
        v'.record demand.service = some ⟨((w.record demand.service).getD .empty).entries.map
          fun e => e.withStatus
            (if (v.framework.get? e.key).isSome then .withdrawReq else .withdrawn)⟩ := by
  refine ⟨fun losses error v h => ⟨Deployment.create_resumed h, fun previous => ?_⟩,
    D.create_repeated demand w, fun losses error v h => ?_⟩
  · obtain ⟨report, v', hrun, hcleared⟩ := Deployment.creation_undone hw h previous
    exact ⟨report, v', hrun, fun k => hcleared.emptied (Deployment.creation_orderly hw h)⟩
  · obtain ⟨report, u, v', hu, hv', hcleared, hcleared', key, rest, hhalf⟩ :=
      Deployment.deletion_resumed hw h
    obtain ⟨hrecord, hothers, hspared⟩ := hhalf.of_cleared hcleared'
    refine ⟨report, u, v', hu, hv', fun k => hcleared'.emptied (hhalf.orderly hw.orderly),
      fun k => ?_, fun s hs => (hothers s hs).trans (hcleared.others s hs).symm, hrecord⟩
    by_cases hk : k.BelongsTo D.app demand.service
    · obtain ⟨hheld, hindexed⟩ := hcleared.gone k hk List.not_mem_nil
      obtain ⟨hheld', hindexed'⟩ := hcleared'.gone k hk List.not_mem_nil
      exact ⟨hheld'.trans hheld.symm, hindexed'.trans hindexed.symm⟩
    · obtain ⟨hheld, hindexed⟩ := hcleared.spared k fun hno => hk hno.1
      obtain ⟨hheld', hindexed'⟩ := hspared k hk
      exact ⟨hheld'.trans hheld.symm, hindexed'.trans hindexed.symm⟩

/-! A path becomes a connection of two legs. The second leg is accepted, but its entry is lost. -/

def connectionDemand : Demand :=
  { pathDemand .create with
    request := ⟨.connection ⟨0, ⟨⟨"a"⟩, []⟩, ⟨⟨"b"⟩, []⟩⟩, [], false⟩
    settings := { bidirectional := false, unidirectional := true } }

def secondLeg : IntentKey := .forService pathDeployment.app connectionDemand.service 2

theorem second_leg_retried :
    ∃ v report u v' report' z,
      pathDeployment.decomposeLosing [false, true] connectionDemand
          (pathDeployment.after pathCreated .empty) =
        (.error (.store (.contended connectionDemand.service 1)), v) ∧
      v.framework.get? secondLeg ≠ none ∧ v.entry connectionDemand.service secondLeg = none ∧
      pathDeployment.decompose connectionDemand (pathDeployment.after pathCreated .empty) =
        (.ok report, u) ∧
      pathDeployment.decompose connectionDemand v = (.ok report, v') ∧ v'.Alike u ∧
      pathDeployment.decompose { connectionDemand with validation := .delete } v =
        (.ok report', z) ∧ z.framework.get? secondLeg = none := by
  have hw : pathDeployment.Reaches (pathDeployment.after pathCreated .empty) := ⟨pathCreated, rfl⟩
  have hlost : (pathDeployment.decomposeLosing [false, true] connectionDemand
      (pathDeployment.after pathCreated .empty)).1 =
        .error (.store (.contended connectionDemand.service 1)) := by decide +kernel
  obtain ⟨⟨report, u, v', hu, hv', halike⟩, hundone⟩ :=
    (retry_repairs hw connectionDemand).1 [false, true] _ _ (Prod.ext hlost rfl)
  obtain ⟨report', z, hz, hgone⟩ := hundone none
  exact ⟨_, report, u, v', report', z, Prod.ext hlost rfl, by decide +kernel, by decide +kernel, hu,
    hv', halike, hz, (hgone secondLeg (.inl ⟨2, rfl⟩)).1⟩

end IntentPlane
