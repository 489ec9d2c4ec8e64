import IntentPlane.Proofs.Concurrent.Traces
import IntentPlane.Proofs.Exchanges
import IntentPlane.Proofs.Intent
import IntentPlane.Recovery

/-!
# What recovery does

Recovery asks what the framework holds and submits some of it again with its paths cleared. It
touches nothing else.
-/

namespace IntentPlane.Recovery

variable {τ : Type} {o : Surroundings τ} {limit : UInt64}

theorem mem_of_mem_distinct {i : Intent} {is : List Intent} (h : i ∈ distinct is) : i ∈ is := by
  match is with
  | [] => simp [distinct] at h
  | j :: is =>
    rw [distinct, List.eraseDupsBy_cons, List.mem_cons] at h
    rcases h with rfl | h
    · exact .head _
    · exact .tail _ (List.mem_filter.mp (mem_of_mem_distinct h)).1
termination_by is.length
decreasing_by exact Nat.lt_succ_of_le (List.length_filter_le _ _)

theorem mem_of_mem_affected {i : Intent} {failures : List Failure} {snapshot : List Intent}
    (h : i ∈ affected failures snapshot) : i ∈ snapshot :=
  (List.mem_filter.mp (mem_of_mem_distinct h)).1

theorem run_resubmit (i : Intent) (x : Scene τ) :
    (resubmit limit i).run o.answer x =
      ((i.key, (o.submit limit i.forRecomputation x.outside).1),
        x.hear (o.submit limit i.forRecomputation x.outside).2
          [.submit limit i.forRecomputation (o.submit limit i.forRecomputation x.outside).1]) := rfl

/-- A trace of resubmissions one after another. -/
theorem yields_resubmitAll {is : List Intent} {ds : List Deed}
    {answers : List (IntentKey × Except FrameworkError Submission)}
    (h : (is.mapM (resubmit limit)).Yields ds answers) :
    answers.map (·.1) = is.map (·.key) ∧
      ds = (is.map Intent.forRecomputation).zipWith
        (fun i a => ⟨.submit limit i, a.2⟩) answers := by
  induction is generalizing ds answers with
  | nil =>
    rw [List.mapM_nil] at h
    obtain ⟨rfl, rfl⟩ := Program.yields_pure.mp h
    exact ⟨rfl, rfl⟩
  | cons i is ih =>
    rw [List.mapM_cons] at h
    obtain ⟨ds₁, a, ds₂, rfl, h₁, h₂⟩ := Program.yields_bind.mp h
    obtain ⟨answer, hsubmit, rfl⟩ := Program.yields_map.mp h₁
    obtain rfl := Program.yields_access.mp hsubmit
    obtain ⟨rest, hrest, rfl⟩ := Program.yields_map.mp h₂
    obtain ⟨hkeys, rfl⟩ := ih hrest
    exact ⟨congrArg (i.key :: ·) hkeys, rfl⟩

/-- Each intent of a list is submitted once, with its paths cleared. -/
theorem run_resubmitAll (o : Surroundings τ) (limit : UInt64) (is : List Intent) (x : Scene τ) :
    ∃ answers es u, (is.mapM (resubmit limit)).run o.answer x = (answers, x.hear u es) ∧
      ∀ k, withdrawals k es = [] ∧
        submitted k es = (is.filter (·.key = k)).map Intent.forRecomputation := by
  induction is generalizing x with
  | nil => exact ⟨[], [], x.outside, by rw [Scene.hear_nil]; rfl, fun _ => ⟨rfl, rfl⟩⟩
  | cons i is ih =>
    rcases hs : o.submit limit i.forRecomputation x.outside with ⟨answer, v⟩
    obtain ⟨answers, es, u, hrun, hes⟩ :=
      ih (x.hear v [.submit limit i.forRecomputation answer])
    refine ⟨(i.key, answer) :: answers, .submit limit i.forRecomputation answer :: es, u, ?_,
      fun k => ⟨(hes k).1, ?_⟩⟩
    · rw [List.mapM_cons, Program.run_bind, run_resubmit, hs, Program.run_bind, hrun,
        Scene.hear_hear]
      rfl
    · rw [submitted_submit, (hes k).2, Intent.key_forRecomputation]
      by_cases hk : i.key = k <;> simp [hk]

/-- All that recovery submits are intents held before, with their paths cleared. -/
theorem run_handle (o : Surroundings τ) (limit : UInt64) (events : List TopologyEvent)
    (x : Scene τ) :
    ∃ report es u, (handle limit events).run o.answer x = (report, x.hear u es) ∧
      ∀ k, withdrawals k es = [] ∧ ∀ i ∈ submitted k es,
        ∃ j ∈ (o.heldIntents x.outside).1, j.key = k ∧ i = j.forRecomputation := by
  rw [handle]
  split
  · exact ⟨_, [], x.outside, by rw [Scene.hear_nil]; rfl, fun _ => ⟨rfl, List.forall_mem_nil _⟩⟩
  · rw [Program.run_bind, Surroundings.run_heldIntents, Program.run_bind]
    obtain ⟨answers, es, u, hrun, hes⟩ := run_resubmitAll o limit
      (affected (events.filterMap (·.failure?)) (o.heldIntents x.outside).1)
      (x.hear (o.heldIntents x.outside).2 [.heldIntents (o.heldIntents x.outside).1])
    refine ⟨.ofAnswers answers, .heldIntents (o.heldIntents x.outside).1 :: es, u, ?_,
      fun k => ⟨(hes k).1, ?_⟩⟩
    · rw [hrun, Scene.hear_hear]
      rfl
    intro i hi
    change i ∈ submitted k es at hi
    rw [(hes k).2, List.mem_map] at hi
    obtain ⟨j, hj, rfl⟩ := hi
    rw [List.mem_filter] at hj
    exact ⟨j, mem_of_mem_affected hj.1, by simpa using hj.2, rfl⟩

end IntentPlane.Recovery
