import IntentPlane.Proofs.Decomposition.Account
import IntentPlane.Proofs.Events
import IntentPlane.Proofs.Lifecycle.Operations
import IntentPlane.Proofs.Recovery

/-!
# What operations do to a world

One lemma for each operation that runs a program: what it does, and which calls the framework heard.
-/

namespace IntentPlane

/-- What a framework in memory holds under a key that is left alone stays the same, and nothing is
submitted there. -/
theorem Untouched.framework {e : Enumeration} {k : IntentKey} {x y : Scene Facilities}
    {es : List Exchange} (h : Untouched k x es y)
    (hheard : Heard (.inMemory e) x.outside es y.outside) :
    y.outside.framework.get? k = x.outside.framework.get? k ∧
      y.outside.framework.submissionCount k = x.outside.framework.submissionCount k :=
  ⟨hheard.get?_of_none_accepted h.withdrawals (accepted_eq_nil h.submitted),
    hheard.submissionCount_of_silent h.submitted⟩

namespace Deployment

/-- Running in a world, told by a scene: where it leads to, and which calls the framework heard. -/
theorem run_scene {e : Enumeration} {p : Program α} {w : World} {a : α} {y : Scene Facilities}
    (h : p.run (Surroundings.inMemory e).answer w.scene = (a, y)) :
    p.run (World.answerIn e) w = (a, y.world) ∧
      Heard (.inMemory e) w.scene.outside y.calls y.outside := by
  have hrun := Program.run_world e p w.scene
  obtain ⟨es, hcalls, hheard⟩ := run_heard (.inMemory e) p w.scene
  rw [h] at hrun hcalls hheard
  obtain rfl : y.calls = es := hcalls
  exact ⟨hrun, hheard⟩

theorem decompose_of_eval {D : Deployment} {demand : Demand} {w : World}
    {result : Except DecomposeError Report} {z : Scene Facilities}
    (h : (Surroundings.inMemory .inserted).eval
      ((D.decomposition demand).run demand.previous demand.validation) w.scene = (result, z)) :
    D.decompose demand w = (result, z.world) ∧
      Heard (.inMemory .inserted) w.scene.outside z.calls z.outside := by
  rw [decompose, Program.runIn, ← World.answerIn_inserted]
  exact run_scene h

/-- A decomposition does nothing, or reports all that it does. -/
theorem decompose_cases (D : Deployment) (demand : Demand) (w : World) :
    D.decompose demand w = (.error .noDirection, w) ∨
      ∃ report z, D.decompose demand w = (.ok report, z.world) ∧
        Decomposition.Ran (.inMemory .inserted) (D.decomposition demand) demand.previous w.scene
          demand.validation report z ∧
        (D.decomposition demand).Account w.scene report.outcomes z.calls z ∧
        Heard (.inMemory .inserted) w.scene.outside z.calls z.outside := by
  have hpos : (D.decomposition demand).retries ≠ 0 := D.retries_pos
  rcases Decomposition.eval_run_cases (o := .inMemory .inserted)
    (x := w.scene) hpos demand.previous demand.validation with h | ⟨report, z, h⟩
  · exact .inl (decompose_of_eval h).1
  · obtain ⟨hrun, hheard⟩ := decompose_of_eval h
    have hran := Decomposition.ran_of_eval h
    obtain ⟨-, es, haccount⟩ := hran.account
    obtain rfl : z.calls = es := haccount.calls
    exact .inr ⟨report, z, hrun, hran, haccount, hheard⟩

/-- A decomposition leaves keys without an outcome alone. -/
theorem untouched_of_decompose {D : Deployment} {demand : Demand} {w u : World} {report : Report}
    (h : D.decompose demand w = (.ok report, u)) {k : IntentKey}
    (hk : k ∉ report.outcomes.map (·.key)) :
    (∀ s, u.entry s k = w.entry s k) ∧ u.framework.get? k = w.framework.get? k := by
  rcases D.decompose_cases demand w with hnone | ⟨report', z, hrun, -, haccount, hheard⟩
  · rw [hnone] at h
    cases h
  · cases hrun.symm.trans h
    have huntouched := haccount.untouched k hk
    exact ⟨huntouched.entry, (huntouched.framework hheard).1⟩

theorem event_cases (D : Deployment) (order : Enumeration) (limit : UInt64) (intent : Intent)
    (status : IntentStatus) (w : World) :
    ∃ event y, D.perform (.event order limit intent status) w = y.world ∧
      StatusEvents.Handled (.inMemory order) limit intent status w.scene event y ∧
      Heard (.inMemory order) w.scene.outside y.calls y.outside := by
  obtain ⟨event, y, h, hhandled⟩ := StatusEvents.run_handle (.inMemory order) limit intent status
    w.scene D.retries_pos
  obtain ⟨hrun, hheard⟩ := run_scene h
  exact ⟨event, y, congrArg Prod.snd hrun, hhandled, hheard⟩

/-- Recovery submits intents that are held, with their paths cleared. -/
theorem recover_cases (D : Deployment) (order : Enumeration) (limit : UInt64)
    (events : List TopologyEvent) (w : World) :
    ∃ g es, D.perform (.recover order limit events) w =
        ⟨g.registry, w.records, w.index, g.framework⟩ ∧
      Heard (.inMemory order) w.scene.outside es g ∧
      ∀ k, withdrawals k es = [] ∧
        ∀ i ∈ submitted k es, ∃ j, w.framework.get? k = some j ∧ i = j.forRecomputation := by
  obtain ⟨report, es, g, h, hes⟩ := Recovery.run_handle (.inMemory order) limit events w.scene
  obtain ⟨hrun, hheard⟩ := run_scene h
  refine ⟨g, es, congrArg Prod.snd hrun, hheard, ?_⟩
  intro k
  refine ⟨(hes k).1, ?_⟩
  intro i hi
  obtain ⟨j, hj, rfl, rfl⟩ := (hes k).2 i hi
  exact ⟨j, Framework.mem_values.mp ((order.held_perm _).mem_iff.mp hj), rfl⟩

end Deployment

end IntentPlane
