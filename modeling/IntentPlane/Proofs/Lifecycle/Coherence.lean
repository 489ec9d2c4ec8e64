import IntentPlane.Proofs.Lifecycle.Effects

/-!
# Index, framework and records agree

The decomposer, the event handler and the recovery engine write the index, the framework and the
records one after another and each in its own order. `CoherentAt` is what holds of a key between
any two operations. `Coherent.perform` says that every operation keeps it, and `Coherent.after` that
it holds of every world that operations lead to.
-/

namespace IntentPlane

/-- What the index, the framework and the records of a world say of a key fits together. -/
structure CoherentAt (app : ApplicationId) (w : World) (k : IntentKey) : Prop where
  indexed : w.indexed k = (w.framework.get? k).map Intent.forRecomputation
  owned : w.framework.get? k ≠ none → ∃ s, w.entry s k ≠ none
  named : ∀ s e, w.entry s k = some e → ∃ n, k = .forService app s n
  usable : ∀ s e, w.entry s k = some e → ∀ link ∈ e.links, link.isUsable = true

/-- A world in which index, framework and records agree. -/
def Coherent (app : ApplicationId) (w : World) : Prop := ∀ k, CoherentAt app w k

variable {app : ApplicationId} {w v : World} {k : IntentKey}

namespace CoherentAt

/-- A change that spares the records keeps a key coherent if nothing comes to be held under it that
was not held, and the index follows the framework. -/
theorem of_entries (h : CoherentAt app w k) (hentry : ∀ s, v.entry s k = w.entry s k)
    (hheld : w.framework.get? k = none → v.framework.get? k = none)
    (hindexed : v.indexed k = (v.framework.get? k).map Intent.forRecomputation) :
    CoherentAt app v k where
  indexed := hindexed
  owned hv := by
    obtain ⟨s, hs⟩ := h.owned fun hw => hv (hheld hw)
    exact ⟨s, by rwa [hentry]⟩
  named s e he := h.named s e (by rwa [← hentry])
  usable s e he := h.usable s e (by rwa [← hentry])

theorem of_eq (h : CoherentAt app w k) (hentry : ∀ s, v.entry s k = w.entry s k)
    (hheld : v.framework.get? k = w.framework.get? k) (hindexed : v.indexed k = w.indexed k) :
    CoherentAt app v k :=
  h.of_entries hentry hheld.trans (by rw [hindexed, hheld, h.indexed])

/-- A key with an entry in the record of its service is coherent if the index follows the
framework. -/
theorem of_entry (h : CoherentAt app w k) {s : ServiceId} {e : KeyStatus}
    (hother : ∀ t, t ≠ s → v.entry t k = w.entry t k) (hentry : v.entry s k = some e)
    (hname : ∃ n, k = .forService app s n) (husable : ∀ link ∈ e.links, link.isUsable = true)
    (hindexed : v.indexed k = (v.framework.get? k).map Intent.forRecomputation) :
    CoherentAt app v k where
  indexed := hindexed
  owned _ := ⟨s, by simp [hentry]⟩
  named t f hf := by
    by_cases ht : t = s
    · exact ht ▸ hname
    · exact h.named t f (by rwa [← hother t ht])
  usable t f hf := by
    by_cases ht : t = s
    · rw [ht, hentry] at hf
      cases hf
      exact husable
    · exact h.usable t f (by rwa [← hother t ht])

/-- A key with an outcome is coherent after the decomposition. -/
theorem of_upheld {d : Decomposition} {e : Enumeration} {es : List Exchange} {z : Scene Facilities}
    {outcome : Outcome} (h : CoherentAt d.app w outcome.key)
    (hupheld : d.Upheld w.scene es z outcome)
    (hrecords : ∀ s, s ≠ d.service → z.record s = w.scene.record s)
    (hheard : Heard (.inMemory e) w.scene.outside es z.outside) :
    CoherentAt d.app z.world outcome.key := by
  have hother : ∀ k s, s ≠ d.service → z.world.entry s k = w.entry s k := fun k s hs =>
    congrArg (fun r : Option ServiceRecord => r.bind (·.get? k)) (hrecords s hs)
  have hentries : ∀ k, z.entry d.service k = w.scene.entry d.service k →
      ∀ s, z.world.entry s k = w.entry s k := fun k hsame s => by
    by_cases hs : s = d.service
    · exact hs ▸ hsame
    · exact hother k s hs
  cases outcome with
  | submitted k status =>
    obtain ⟨leg, srcs, dsts, taken, tried, link, untried, intent, submission, hleg, -, -, hlinks,
      hintent, haccepted, hkept, -, hindexed, hentry⟩ := hupheld
    have hheld := hheard.get?_of_accepted hkept haccepted
    refine h.of_entry (hother k) hentry (Decomposition.exists_of_mem_keyedLegs hleg) ?_ ?_
    · intro l hl
      have hmem : l ∈ tried ++ link :: untried := List.mem_append_right _ (.tail _ hl)
      rw [← hlinks] at hmem
      exact Decomposition.isUsable_of_mem_candidates hmem
    · change z.indexed k = (z.outside.framework.get? k).map _
      rw [hindexed, hheld, Option.map_some, Intent.forRecomputation_of_ofLink? hintent]
  | rejected k reason =>
    obtain ⟨⟨leg, hleg⟩, haccepted, hkept, hindexed, hentry⟩ := hupheld
    have hheld := hheard.get?_of_none_accepted hkept haccepted
    refine h.of_entry (hother k) hentry (Decomposition.exists_of_mem_keyedLegs hleg)
      (List.forall_mem_nil _) ?_
    change z.indexed k = (z.outside.framework.get? k).map _
    rw [hindexed, hheld]
    exact h.indexed
  | endpointNotFound k point =>
    obtain ⟨leg, answer, -, -, -, -, hnone, hkept, hindexed, hentry⟩ := hupheld
    have hheld := hheard.get?_of_none_accepted hkept (accepted_eq_nil hnone)
    exact h.of_eq (hentries k hentry) hheld hindexed
  | withdrawn k =>
    obtain ⟨answer, status, hw, -, hnone, hindexed, hentry⟩ := hupheld
    have hheld : z.outside.framework.get? k = none :=
      hheard.get?_of_withdrawn (accepted_eq_nil hnone) (by simp [hw])
    have hagree : z.world.indexed k = (z.world.framework.get? k).map Intent.forRecomputation := by
      change z.indexed k = (z.outside.framework.get? k).map _
      rw [hindexed, hheld]
      rfl
    cases hold : w.scene.entry d.service k with
    | none =>
      rw [hold] at hentry
      exact h.of_entries (hentries k (hentry.trans hold.symm)) (fun _ => hheld) hagree
    | some f =>
      rw [hold] at hentry
      exact h.of_entry (hother k) hentry (h.named _ f hold) (h.usable _ f hold :) hagree
  | withdrawFailed k reason =>
    obtain ⟨error, hw, hne, -⟩ := hupheld
    exact absurd (hheard.notFound_of_withdrawals (hw ▸ List.mem_singleton_self _)) (hne k)

/-- A key with an entry that is changed stays coherent if the index follows the framework. -/
theorem of_upsert (h : CoherentAt app w k) {s : ServiceId} {r : ServiceRecord}
    {current next : KeyStatus} {y z : Scene Facilities} (hr : w.record s = some r)
    (hcurrent : r.get? k = some current) (hkey : next.key = current.key)
    (husable : ∀ link ∈ next.links, link ∈ current.links) (hsame : ∀ t, z.record t = w.record t)
    (hz : y = z.upsert s next)
    (hindexed : z.indexed k = (z.outside.framework.get? k).map Intent.forRecomputation) :
    CoherentAt app y.world k := by
  have hold : w.entry s k = some current := Option.bind_eq_some_iff.mpr ⟨r, hr, hcurrent⟩
  have hentry : ∀ t, y.entry t k = if s = t then some next else w.entry t k := fun t => by
    have hnext : next.key = k := hkey.trans (ServiceRecord.key_of_get? hcurrent)
    rw [hz, Scene.entry_upsert, Scene.entry, hsame]
    simp only [hnext, and_true]
    rfl
  refine h.of_entry (s := s) (fun t ht => ?_) ((hentry s).trans (if_pos rfl)) (h.named s _ hold)
    (fun link hlink => h.usable s _ hold link (husable link hlink)) ?_
  · exact (hentry t).trans (if_neg fun hst => ht hst.symm)
  · rw [hz]
    exact hindexed

/-- A key is coherent after an event about it. -/
theorem of_handled {e : Enumeration} {limit : UInt64} {intent : Intent} {status : IntentStatus}
    {event : Option ServiceEvent} {y : Scene Facilities} (h : CoherentAt app w intent.key)
    (hhandled : StatusEvents.Handled (.inMemory e) limit intent status w.scene event y)
    (hheard : Heard (.inMemory e) w.scene.outside y.calls y.outside) :
    CoherentAt app y.world intent.key := by
  cases hhandled with
  | unowned => exact h
  | recorded hr hcurrent _ hnext =>
    exact h.of_upsert hr hcurrent (hnext ▸ rfl) (hnext ▸ fun _ => id) (fun _ => rfl) rfl h.indexed
  | @resubmitted s r current next a es u hr hcurrent _ hsearch hnext =>
    obtain ⟨tried, hlinks, hintent⟩ := hsearch.of_ok
    have hkey : a.intent.key = intent.key := StatusEvents.key_of_rebuildOver? hintent
    have haccepted := hsearch.accepted_of_ok
    change Heard _ w.scene.outside es u at hheard
    have hheld : u.framework.get? intent.key = some a.intent := by
      rw [hkey] at haccepted
      exact hheard.get?_of_accepted hsearch.withdrawals_eq_nil haccepted
    refine h.of_upsert hr hcurrent (hnext ▸ rfl) ?_ (fun _ => rfl) rfl ?_
    · intro link hlink
      rw [hnext] at hlink
      rw [hlinks]
      exact List.mem_append_right _ (.tail _ hlink)
    · change _ = (u.framework.get? intent.key).map _
      rw [hheld, Option.map_some, Intent.forRecomputation_of_ofLink? hintent]
      simp
  | @exhausted s r current next reason es u hr hcurrent _ _ hsearch hnext =>
    change Heard _ w.scene.outside es u at hheard
    have hheld : u.framework.get? intent.key = w.framework.get? intent.key :=
      hheard.get?_of_none_accepted hsearch.withdrawals_eq_nil hsearch.accepted_of_error
    refine h.of_upsert hr hcurrent (hnext ▸ rfl) (hnext ▸ List.forall_mem_nil _)
      (fun _ => rfl) rfl ?_
    change w.indexed intent.key = (u.framework.get? intent.key).map _
    rw [hheld, h.indexed]

/-- Recovery submits only what is held, so clearing paths gives the same as before. -/
theorem of_resubmissions {e : Enumeration} {es : List Exchange} {g : Facilities}
    (h : CoherentAt app w k) (hheard : Heard (.inMemory e) w.scene.outside es g)
    (hkept : withdrawals k es = [])
    (hheld : ∀ i ∈ submitted k es, ∃ j, w.framework.get? k = some j ∧ i = j.forRecomputation) :
    CoherentAt app ⟨g.registry, w.records, w.index, g.framework⟩ k := by
  have hlast := hheard.get?_eq hkept
  -- The intent accepted last was held before, so clearing its paths gives what is indexed.
  cases hla : (accepted k es).getLast? with
  | none =>
    rw [hla] at hlast
    exact h.of_eq (fun _ => rfl) hlast rfl
  | some ia =>
    obtain ⟨i, a⟩ := ia
    obtain ⟨j, hj, rfl⟩ := hheld i (mem_submitted_of_accepted (List.mem_of_getLast? hla))
    rw [hla] at hlast
    refine h.of_entries (fun _ => rfl) ?_ ?_
    · intro hnone
      rw [hj] at hnone
      cases hnone
    · change w.indexed k = (g.framework.get? k).map _
      rw [hlast, h.indexed, hj]
      simp

end CoherentAt

namespace Coherent

theorem empty : Coherent app .empty := fun _ => ⟨rfl, fun h => absurd rfl h, nofun, nofun⟩

variable {D : Deployment}

theorem decompose (h : Coherent D.app w) (demand : Demand) :
    Coherent D.app (D.decompose demand w).2 := by
  rcases D.decompose_cases demand w with hnone | ⟨report, z, hrun, -, haccount, hheard⟩
  · rwa [hnone]
  · rw [hrun]
    intro k
    by_cases hk : k ∈ report.outcomes.map (·.key)
    · obtain ⟨outcome, hmem, rfl⟩ := List.mem_map.mp hk
      exact (h outcome.key).of_upheld (d := D.decomposition demand) (haccount.upheld outcome hmem)
        haccount.records hheard
    · have huntouched := haccount.untouched k hk
      exact (h k).of_eq huntouched.entry (huntouched.framework hheard).1 huntouched.indexed

theorem event (h : Coherent D.app w) (order : Enumeration) (limit : UInt64) (intent : Intent)
    (status : IntentStatus) : Coherent D.app (D.perform (.event order limit intent status) w) := by
  obtain ⟨event, y, hrun, hhandled, hheard⟩ := D.event_cases order limit intent status w
  rw [hrun]
  intro k
  by_cases hk : intent.key = k
  · subst hk
    exact (h intent.key).of_handled hhandled hheard
  · obtain ⟨es, hes, huntouched⟩ := hhandled.untouched hk
    obtain rfl : y.calls = es := hes
    exact (h k).of_eq huntouched.entry (huntouched.framework hheard).1 huntouched.indexed

theorem recover (h : Coherent D.app w) (order : Enumeration) (limit : UInt64)
    (events : List TopologyEvent) : Coherent D.app (D.perform (.recover order limit events) w) := by
  obtain ⟨g, es, hrun, hheard, hes⟩ := D.recover_cases order limit events w
  rw [hrun]
  exact fun k => (h k).of_resubmissions hheard (hes k).1 (hes k).2

/-- Paths are computed of intents that are held, and computing them clears nothing else. -/
theorem compute (h : Coherent app w) (key : IntentKey) (path backup : Option NetworkPath)
    (calculated : Bool) :
    Coherent app { w with framework := w.framework.compute key path backup calculated } := by
  cases hi : w.framework.get? key with
  | none =>
    rw [Framework.compute, hi]
    exact h
  | some i =>
    rw [Framework.compute, hi]
    intro k
    have hkey : i.key = key := Framework.key_of_get? hi
    refine (h k).of_entries (fun _ => rfl) ?_ ?_
    · intro hnone
      change (w.framework.insert _).get? k = none
      have hne : i.key ≠ k := fun heq => by
        rw [← heq, hkey, hi] at hnone
        cases hnone
      rw [Framework.get?_insert, Intent.key_withPaths, if_neg hne, hnone]
    · change w.indexed k = ((w.framework.insert _).get? k).map _
      rw [(h k).indexed, Framework.get?_insert, Intent.key_withPaths]
      split
      · rename_i heq
        rw [← heq, hkey, hi]
        simp
      · rfl

/-- Every operation keeps index, framework and records in agreement. -/
theorem perform (h : Coherent D.app w) (op : Operation) : Coherent D.app (D.perform op w) := by
  cases op with
  | decompose demand => exact h.decompose demand
  | event order limit intent status => exact h.event order limit intent status
  | recover order limit events => exact h.recover order limit events
  | refuse => exact fun k => (h k).of_eq (fun _ => rfl) rfl rfl
  | compute key path backup calculated => exact h.compute key path backup calculated
  | register => exact fun k => (h k).of_eq (fun _ => rfl) rfl rfl

theorem after (h : Coherent D.app w) (ops : List Operation) : Coherent D.app (D.after ops w) := by
  induction ops generalizing w with
  | nil => exact h
  | cons op ops ih => exact ih (h.perform op)

end Coherent

/-- In every world that operations lead to from the empty one, the index holds just what the
framework holds, paths left out, and every intent held has an entry in the record of the service its
key is named after. -/
theorem index_and_owner (D : Deployment) (ops : List Operation) (k : IntentKey) :
    (D.after ops .empty).indexed k =
        ((D.after ops .empty).framework.get? k).map Intent.forRecomputation ∧
      ((D.after ops .empty).framework.get? k ≠ none →
        ∃ s n r, k = .forService D.app s n ∧ (D.after ops .empty).record s = some r ∧
          r.contains k = true) := by
  have h := Coherent.after (D := D) Coherent.empty ops k
  refine ⟨h.indexed, ?_⟩
  intro hheld
  obtain ⟨s, hs⟩ := h.owned hheld
  obtain ⟨e, he⟩ := Option.ne_none_iff_exists'.mp hs
  obtain ⟨n, hn⟩ := h.named s e he
  obtain ⟨r, hr, hget⟩ := Option.bind_eq_some_iff.mp he
  exact ⟨s, n, r, hn, hr, ServiceRecord.contains_of_get? hget⟩

end IntentPlane
