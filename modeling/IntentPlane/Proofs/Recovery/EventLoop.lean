import IntentPlane.Proofs.Recovery.Batching

/-!
# The event loop loses and repeats nothing

While events are sent, the loop takes batches of them and handles each to its end. Whatever it
finds queued when it looks, the batches put together are the events in the order in which they were
sent, and what the framework holds in the end is what it would hold after one batch of them all.
-/

namespace IntentPlane.Recovery

variable {s : RecoverySettings} {events : List TopologyEvent} {batch : List TopologyEvent}
  {bs : List (List TopologyEvent)} {k : IntentKey} {v w w' : World}

/-- Batches are handled to the end, one after another; with recovery disabled they are dropped. -/
inductive Handled (s : RecoverySettings) : World → List (List TopologyEvent) → World → Prop where
  | nil {w : World} : Handled s w [] w
  | handled {w v w' : World} {batch : List TopologyEvent} {bs : List (List TopologyEvent)}
      {report : RecoveryReport} : s.enabled → (handle s.submitTimeoutMs batch).Ends w report v →
      Handled s v bs w' → Handled s w (batch :: bs) w'
  | dropped {w w' : World} {batch : List TopologyEvent} {bs : List (List TopologyEvent)} :
      s.enabled = false → Handled s w bs w' → Handled s w (batch :: bs) w'

theorem Handled.append {more : List (List TopologyEvent)} (h : Handled s w bs v)
    (h' : Handled s v more w') : Handled s w (bs ++ more) w' := by
  induction h with
  | nil => exact h'
  | handled henabled hbatch _ ih => exact .handled henabled hbatch (ih h')
  | dropped hdisabled _ ih => exact .dropped hdisabled (ih h')

/-- Batch by batch the same is mended as at once. -/
theorem Handled.mended (henabled : s.enabled) (h : Handled s w bs w') :
    Mended bs.flatten w w' := by
  induction h with
  | nil => exact .refl _
  | handled _ hbatch _ ih => exact (mended_of_ends hbatch).trans ih
  | dropped hdisabled => exact absurd henabled (by simp [hdisabled])

theorem Handled.of_disabled (hdisabled : s.enabled = false) (h : Handled s w bs w') :
    w' = w := by
  induction h with
  | nil => rfl
  | handled henabled => exact absurd henabled (by simp [hdisabled])
  | dropped _ _ ih => exact ih

/-! ## What the loop keeps up -/

namespace Stage

/-- The events that were taken from the channel for the next batch. -/
def gathered : Stage → List TopologyEvent
  | gathering batch => batch
  | waiting | handling _ | stopped => []

end Stage

namespace Loop

variable {l : Loop World} {moves : List (Move Enumeration)}

/-- What the loop has taken and done so far, if it began with `w`. -/
structure Sound (s : RecoverySettings) (w : World) (l : Loop World) : Prop where
  size : ∀ batch ∈ l.taken, batch ≠ [] ∧ batch.length ≤ max 1 s.batchSize.toNat
  gathering : ∀ batch, l.stage = .gathering batch →
    batch ≠ [] ∧ batch.length ≤ max 1 s.batchSize.toNat
  sent : l.sent = l.taken.flatten ++ l.stage.gathered ++ l.queue
  handled : (∀ rest, l.stage ≠ .handling rest) → Handled s w l.taken l.state
  /-- However the batch that is being handled ends, it was handled as a whole. -/
  handling : ∀ rest, l.stage = .handling rest → s.enabled ∧
    ∀ report w', rest.Ends l.state report w' → Handled s w l.taken w'
  stopped : l.stage = .stopped → l.cancelled ∨ l.queue = []

theorem sound_start (s : RecoverySettings) (w : World) : (start w).Sound s w where
  size := List.forall_mem_nil _
  gathering _ h := by cases h
  sent := rfl
  handled _ := .nil
  handling _ h := by cases h
  stopped _ := .inr rfl

theorem Sound.send (h : l.Sound s w) (event : TopologyEvent) : (l.send event).Sound s w := by
  unfold Loop.send
  split
  · exact h
  next hopen =>
    refine { h with sent := ?_, stopped := fun hstopped => ?_ }
    · rw [h.sent, List.append_assoc]
    · have hstage : l.stage = .stopped := hstopped
      simp [isStopped, hstage] at hopen

theorem Sound.stop (h : l.Sound s w) : l.stop.Sound s w := by
  unfold Loop.stop
  split
  next hwaiting =>
    split
    next hlast =>
      refine { h with
        gathering := fun _ hstage => by cases hstage
        sent := ?_
        handled := fun _ => h.handled fun rest hstage => ?_
        handling := fun _ hstage => by cases hstage
        stopped := fun _ => ?_ }
      · rw [h.sent, hwaiting]
        rfl
      · cases hwaiting.symm.trans hstage
      · simp only [Bool.or_eq_true, Bool.and_eq_true, List.isEmpty_iff] at hlast
        exact hlast.imp_right And.right
    next => exact h
  · exact h

theorem Sound.take (h : l.Sound s w) (hstage : l.stage = .gathering batch) :
    (l.take s batch).Sound s w := by
  have hsize : ∀ b ∈ l.taken ++ [batch], b ≠ [] ∧ b.length ≤ max 1 s.batchSize.toNat := by
    intro b hb
    rcases List.mem_append.mp hb with hb | hb
    · exact h.size b hb
    · exact List.mem_singleton.mp hb ▸ h.gathering batch hstage
  have hsent : l.sent = (l.taken ++ [batch]).flatten ++ l.queue := by
    rw [h.sent, hstage]
    simp [Stage.gathered]
  have hhandled : Handled s w l.taken l.state := h.handled fun rest h' => by
    cases hstage.symm.trans h'
  unfold Loop.take
  by_cases henabled : s.enabled = true
  · rw [if_pos henabled]
    exact {
      size := hsize
      gathering := fun _ h' => by cases h'
      sent := by rw [hsent]; simp [Stage.gathered]
      handled := fun h' => absurd rfl (h' _)
      handling := fun rest h' => by
        cases h'
        exact ⟨henabled, fun _ _ hends => hhandled.append (.handled henabled hends .nil)⟩
      stopped := fun h' => by cases h' }
  · rw [if_neg henabled]
    exact {
      size := hsize
      gathering := fun _ h' => by cases h'
      sent := by rw [hsent]; simp [Stage.gathered]
      handled := fun _ => hhandled.append (.dropped (by simpa using henabled) .nil)
      handling := fun _ h' => by cases h'
      stopped := fun h' => by cases h' }

theorem Sound.turn (h : l.Sound s w) (e : Enumeration) :
    (l.turn s (World.answerIn e)).Sound s w := by
  unfold Loop.turn
  split
  next event rest hstage hqueue =>
    exact {
      size := h.size
      gathering := fun _ h' => by
        cases h'
        exact ⟨List.cons_ne_nil _ _, Nat.le_max_left ..⟩
      sent := by rw [h.sent, hstage, hqueue]; simp [Stage.gathered]
      handled := fun _ => h.handled fun _ h' => by cases hstage.symm.trans h'
      handling := fun _ h' => by cases h'
      stopped := fun h' => by cases h' }
  next batch event rest hstage hqueue =>
    split
    next hroom =>
      exact {
        size := h.size
        gathering := fun _ h' => by
          cases h'
          exact ⟨by simp, by rw [List.length_append]; exact hroom⟩
        sent := by rw [h.sent, hstage, hqueue]; simp [Stage.gathered]
        handled := fun _ => h.handled fun _ h' => by cases hstage.symm.trans h'
        handling := fun _ h' => by cases h'
        stopped := fun h' => by cases h' }
    next => exact h.take hstage
  next batch hstage hqueue => exact h.take hstage
  next queue access next hstage =>
    exact {
      size := h.size
      gathering := fun _ h' => by cases h'
      sent := by rw [h.sent, hstage]; rfl
      handled := fun h' => absurd rfl (h' _)
      handling := fun rest h' => by
        cases h'
        obtain ⟨henabled, hrest⟩ := h.handling _ hstage
        exact ⟨henabled, fun report w' hends => hrest report w' (.ask e hends)⟩
      stopped := fun h' => by cases h' }
  next queue report hstage =>
    exact {
      size := h.size
      gathering := fun _ h' => by cases h'
      sent := by rw [h.sent, hstage]; rfl
      handled := fun _ => (h.handling _ hstage).2 report l.state .done
      handling := fun _ h' => by cases h'
      stopped := fun h' => by cases h' }
  · exact h
  · exact h

theorem Sound.step (h : l.Sound s w) (m : Move Enumeration) :
    (l.step s World.answerIn m).Sound s w := by
  cases m with
  | send event => exact h.send event
  | close => exact { h with }
  | cancel => exact { h with stopped := fun _ => .inl rfl }
  | stop => exact h.stop
  | turn e => exact h.turn e

theorem Sound.run (h : l.Sound s w) (moves : List (Move Enumeration)) :
    (l.run s World.answerIn moves).Sound s w := by
  induction moves generalizing l with
  | nil => exact h
  | cons m moves ih => exact ih (h.step m)

/-! ## The loop always gets through -/

theorem run_cons (l : Loop World) (m : Move Enumeration) (moves : List (Move Enumeration)) :
    l.run s World.answerIn (m :: moves) = (l.step s World.answerIn m).run s World.answerIn moves :=
  rfl

theorem run_append (l : Loop World) (moves more : List (Move Enumeration)) :
    l.run s World.answerIn (moves ++ more) =
      (l.run s World.answerIn moves).run s World.answerIn more := List.foldl_append ..

/-- A batch is handled by as many turns as it takes. -/
theorem exists_handled (e : Enumeration) (rest : Program RecoveryReport)
    (hstage : l.stage = .handling rest) :
    ∃ n, l.run s World.answerIn (List.replicate n (.turn e)) =
      { l with stage := .waiting, state := (rest.run (World.answerIn e) l.state).2 } := by
  induction rest generalizing l with
  | done report =>
    refine ⟨1, ?_⟩
    change l.turn s (World.answerIn e) = _
    rw [turn, hstage]
    rfl
  | ask access next ih =>
    obtain ⟨n, hn⟩ := ih (World.answerIn e access l.state).1
      (l := { l with
        stage := .handling (next (World.answerIn e access l.state).1)
        state := (World.answerIn e access l.state).2 }) rfl
    refine ⟨n + 1, ?_⟩
    rw [List.replicate_succ, run_cons]
    change (l.turn s (World.answerIn e)).run s World.answerIn _ = _
    rw [turn, hstage]
    exact hn

/-- The turn that takes one more event into the batch. -/
theorem turn_gathering {answer : (access : Access) → World → access.Answer × World}
    {event : TopologyEvent} {rest : List TopologyEvent} (hstage : l.stage = .gathering batch)
    (hqueue : l.queue = event :: rest) (hroom : batch.length < max 1 s.batchSize.toNat) :
    l.turn s answer = { l with stage := .gathering (batch ++ [event]), queue := rest } := by
  rw [turn, hstage, hqueue]
  exact if_pos hroom

/-- The turn that ends the batch. -/
theorem turn_gathered {answer : (access : Access) → World → access.Answer × World}
    (hstage : l.stage = .gathering batch)
    (h : l.queue = [] ∨ max 1 s.batchSize.toNat ≤ batch.length) :
    l.turn s answer = l.take s batch := by
  rw [turn, hstage]
  cases hqueue : l.queue with
  | nil => rfl
  | cons event rest =>
    rw [hqueue] at h
    exact if_neg (Nat.not_lt.mpr (h.resolve_left (List.cons_ne_nil _ _)))

/-- A batch is gathered until the queue or the room in it is used up. -/
theorem exists_gathered (e : Enumeration) (hstage : l.stage = .gathering batch) :
    ∃ n, l.run s World.answerIn (List.replicate n (.turn e)) =
      ({ l with queue := l.queue.drop (max 1 s.batchSize.toNat - batch.length) } : Loop World).take s
        (batch ++ l.queue.take (max 1 s.batchSize.toNat - batch.length)) := by
  generalize hqueue : l.queue = queue
  induction queue generalizing l batch with
  | nil =>
    refine ⟨1, ?_⟩
    rw [List.drop_nil, List.take_nil, List.append_nil, ← hqueue]
    change l.turn s (World.answerIn e) = l.take s batch
    exact turn_gathered hstage (.inl hqueue)
  | cons event queue ih =>
    cases hroom : max 1 s.batchSize.toNat - batch.length with
    | zero =>
      refine ⟨1, ?_⟩
      rw [List.drop_zero, List.take_zero, List.append_nil, ← hqueue]
      change l.turn s (World.answerIn e) = l.take s batch
      exact turn_gathered hstage (.inr (Nat.sub_eq_zero_iff_le.mp hroom))
    | succ room =>
      have hlt : batch.length < max 1 s.batchSize.toNat := by omega
      have hrest : max 1 s.batchSize.toNat - (batch ++ [event]).length = room := by
        rw [List.length_append, List.length_singleton]
        omega
      obtain ⟨n, hn⟩ :=
        ih (l := { l with stage := .gathering (batch ++ [event]), queue := queue }) rfl rfl
      refine ⟨n + 1, ?_⟩
      rw [List.replicate_succ, run_cons, step, turn_gathering hstage hqueue hlt, hn, hrest]
      simp [take]

/-- A batch that is gathered is taken and brought to its end. -/
theorem exists_taken (e : Enumeration) (hstage : l.stage = .gathering batch) :
    ∃ n, l.run s World.answerIn (List.replicate n (.turn e)) =
      { l with
        stage := .waiting
        queue := l.queue.drop (max 1 s.batchSize.toNat - batch.length)
        taken := l.taken ++ [batch ++ l.queue.take (max 1 s.batchSize.toNat - batch.length)]
        state := if s.enabled then
            ((handle s.submitTimeoutMs
              (batch ++ l.queue.take (max 1 s.batchSize.toNat - batch.length))).run
                (World.answerIn e) l.state).2
          else l.state } := by
  obtain ⟨m, hm⟩ := exists_gathered (s := s) e hstage
  by_cases henabled : s.enabled = true
  · rw [take, if_pos henabled] at hm
    obtain ⟨n, hn⟩ := exists_handled (s := s) e _
      (l := l.run s World.answerIn (List.replicate m (.turn e))) (by rw [hm])
    refine ⟨m + n, ?_⟩
    rw [List.replicate_add, run_append, hn, hm, if_pos henabled]
  · rw [take, if_neg henabled] at hm
    exact ⟨m, by rw [hm, if_neg henabled]⟩

/-- Whatever happened so far, the loop gets to where it waits for the next batch. -/
theorem exists_idle (l : Loop World) (e : Enumeration) :
    ∃ n, (l.run s World.answerIn (List.replicate n (.turn e))).isIdle := by
  cases hstage : l.stage with
  | waiting | stopped => exact ⟨0, by rw [List.replicate_zero, run, List.foldl_nil, isIdle, hstage]⟩
  | gathering batch =>
    obtain ⟨n, hn⟩ := exists_taken (s := s) e hstage
    exact ⟨n, by rw [hn]; rfl⟩
  | handling rest =>
    obtain ⟨n, hn⟩ := exists_handled (s := s) e rest hstage
    exact ⟨n, by rw [hn]; rfl⟩

end Loop

theorem batches_nil (size : Nat) : batches size ([] : List TopologyEvent) = [] := by rw [batches]

theorem batches_cons (size : Nat) (event : TopologyEvent) (rest : List TopologyEvent) :
    batches size (event :: rest) =
      (event :: rest.take (size - 1)) :: batches size (rest.drop (size - 1)) := by rw [batches]

theorem run_serve_cons (answer : (access : Access) → World → access.Answer × World)
    (event : TopologyEvent) (rest : List TopologyEvent) (w : World) :
    (serve s (event :: rest)).run answer w =
      (serve s (rest.drop (s.batchSize.toNat - 1))).run answer
        (if s.enabled then
          ((handle s.submitTimeoutMs (event :: rest.take (s.batchSize.toNat - 1))).run answer w).2
        else w) := by
  rw [serve, batches_cons, List.forM_eq_forM, List.forM_cons, Program.run_bind, serve,
    List.forM_eq_forM]
  congr 1
  by_cases henabled : s.enabled = true
  · rw [if_pos henabled, if_pos henabled, Program.run_bind]
    rfl
  · rw [if_neg henabled, if_neg henabled]
    rfl

namespace Loop

variable {l : Loop World}

/-- A queue that nothing is added to is served batch by batch. -/
theorem exists_served (s : RecoverySettings) (e : Enumeration) (l : Loop World)
    (hstage : l.stage = .waiting) :
    ∃ n, l.run s World.answerIn (List.replicate n (.turn e)) =
      { l with
        queue := []
        taken := l.taken ++ batches s.batchSize.toNat l.queue
        state := ((serve s l.queue).run (World.answerIn e) l.state).2 } := by
  obtain ⟨stage, queue, closed, cancelled, sent, taken, w⟩ := l
  cases hstage
  induction hlength : queue.length using Nat.strongRecOn generalizing queue taken w with
  | ind length ih =>
  subst hlength
  cases queue with
  | nil => exact ⟨0, by rw [batches_nil, List.append_nil, serve, batches_nil]; rfl⟩
  | cons event rest =>
    have hroom : max 1 s.batchSize.toNat - [event].length = s.batchSize.toNat - 1 := by
      rw [List.length_singleton]
      omega
    obtain ⟨m, hm⟩ := exists_taken (s := s) e
      (l := ⟨.gathering [event], rest, closed, cancelled, sent, taken, w⟩) rfl
    rw [hroom] at hm
    obtain ⟨n, hn⟩ := ih (rest.drop (s.batchSize.toNat - 1)).length
      (by simp only [List.length_drop, List.length_cons]; omega) _ _ _ rfl
    refine ⟨m + 1 + n, ?_⟩
    rw [List.replicate_add, run_append, List.replicate_succ, run_cons]
    change run s World.answerIn (run s World.answerIn
      ⟨.gathering [event], rest, closed, cancelled, sent, taken, w⟩ _) _ = _
    rw [hm]
    refine hn.trans ?_
    simp [batches_cons, run_serve_cons]

end Loop

/-! ## The whole -/

/-- What the event loop owes for the events that it was sent, if it began with `w`. -/
structure Loop.Faithful (s : RecoverySettings) (w : World) (l : Loop World) : Prop where
  size : ∀ batch ∈ l.taken, batch ≠ [] ∧ batch.length ≤ max 1 s.batchSize.toNat
  sent : l.sent = l.taken.flatten ++ l.stage.gathered ++ l.queue
  /-- Only a loop that was told to stop leaves events in the channel. -/
  drained : l.isStopped → l.cancelled = false → l.taken.flatten = l.sent
  progress : ∀ e, ∃ n, (l.run s World.answerIn (List.replicate n (.turn e))).isIdle
  /-- From where it waits, the loop serves what is queued until nothing is left. -/
  served : l.stage = .waiting → ∀ e, ∃ n, l.run s World.answerIn (List.replicate n (.turn e)) =
    { l with
      queue := []
      taken := l.taken ++ batches s.batchSize.toNat l.queue
      state := ((serve s l.queue).run (World.answerIn e) l.state).2 }
  handled : l.isIdle → Handled s w l.taken l.state
  held : s.enabled → l.isIdle → ∀ limit e k, l.state.framework.get? k =
    ((handle limit l.taken.flatten).run (World.answerIn e) w).2.framework.get? k
  once : s.enabled → l.isIdle → ∀ k i, w.framework.get? k = some i → Hit l.taken.flatten i →
    k ∉ w.framework.rejected →
      l.state.framework.submissionCount k = w.framework.submissionCount k + 1
  spared : s.enabled → l.isIdle →
    ∀ k, (∀ i, w.framework.get? k = some i → ¬ Hit l.taken.flatten i) →
      l.state.framework.submissionCount k = w.framework.submissionCount k
  /-- What was broken before is not submitted again, but for the keys that are rejected. -/
  again : s.enabled → l.isIdle → ∀ limit e more,
    (∀ link, Severed more link → Severed l.taken.flatten link) →
    ((handle limit more).run (World.answerIn e) l.state).1.resubmitted = [] ∧
      ∀ k, k ∉ w.framework.rejected →
        ((handle limit more).run (World.answerIn e) l.state).2.framework.submissionCount k =
            l.state.framework.submissionCount k ∧
          ((handle limit more).run (World.answerIn e) l.state).2.framework.get? k =
            l.state.framework.get? k
  disabled : s.enabled = false → l.state = w

theorem Hit.mono {more : List TopologyEvent} {i : Intent}
    (hdown : ∀ link, Severed more link → Severed events link) (h : Hit more i) : Hit events i := by
  obtain ⟨p, path, hp, hpath, link, hlink, hsevered⟩ := h
  exact ⟨p, path, hp, hpath, link, hlink, hdown link hsevered⟩

/-- After events were handled, nothing that they take down breaks an intent again. -/
theorem Mended.not_breaks {more : List TopologyEvent} {i : Intent} (h : Mended events w v)
    (hdown : ∀ link, Severed more link → Severed events link) (hheld : v.framework.get? k = some i)
    (hk : k ∉ w.framework.rejected) : breaks more i = false := by
  rw [h.held, Option.map_eq_some_iff] at hheld
  obtain ⟨j, hj, rfl⟩ := hheld
  have hkey : j.key ∉ w.framework.rejected := by rwa [Framework.key_of_get? hj]
  unfold mend
  split
  next => exact breaks_forRecomputation ..
  next hwhole =>
    by_contra hbreaks
    have hhit : Hit more j := breaks_iff.mp (by simpa using hbreaks)
    exact hwhole ⟨breaks_iff.mpr (hhit.mono hdown), hkey⟩

/-- However the events come and wherever the loop cuts them into batches, nothing is lost, repeated
or left half done, what is queued is served, and recovery does what one batch of all events does. -/
theorem batching_faithful (s : RecoverySettings) (w : World)
    (moves : List (Loop.Move Enumeration)) :
    ((Loop.start w).run s World.answerIn moves).Faithful s w := by
  have h := (Loop.sound_start s w).run moves
  generalize (Loop.start w).run s World.answerIn moves = l at h
  have hhandled (hidle : l.isIdle) : Handled s w l.taken l.state := by
    refine h.handled fun rest hstage => ?_
    simp [Loop.isIdle, hstage] at hidle
  have hmended (henabled : s.enabled) (hidle : l.isIdle) : Mended l.taken.flatten w l.state :=
    (hhandled hidle).mended henabled
  refine {
    size := h.size
    sent := h.sent
    drained := fun hstopped hcancelled => ?_
    progress := l.exists_idle
    served := fun hwaiting e => l.exists_served s e hwaiting
    handled := hhandled
    held := fun henabled hidle limit e k => ?_
    once := fun henabled hidle k i hheld hhit hk => ?_
    spared := fun henabled hidle k hspared => ?_
    again := fun henabled hidle limit e more hdown => ?_
    disabled := fun hdisabled => ?_ }
  · have hstage : l.stage = .stopped := by
      unfold Loop.isStopped at hstopped
      split at hstopped
      next hstage => exact hstage
      next => cases hstopped
    have hqueue := (h.stopped hstage).resolve_left (by simp [hcancelled])
    rw [h.sent, hstage, hqueue]
    simp [Stage.gathered]
  · have hwhole := mended_of_ends (Program.ends_run e (handle limit l.taken.flatten) w)
    rw [(hmended henabled hidle).held, hwhole.held]
  · exact (hmended henabled hidle).once k i hheld (breaks_iff.mpr hhit) hk
  · refine (hmended henabled hidle).spared k fun i hheld => ?_
    by_contra hbreaks
    exact hspared i hheld (breaks_iff.mp (by simpa using hbreaks))
  · have hbefore := hmended henabled hidle
    have hends := Program.ends_run e (handle limit more) l.state
    have hafter := mended_of_ends hends
    refine ⟨resubmitted_eq_nil hends fun k i hheld hbreaks => ?_, fun k hk => ⟨?_, ?_⟩⟩
    · by_contra hk
      rw [hbefore.not_breaks hdown hheld (hbefore.rejected ▸ hk)] at hbreaks
      cases hbreaks
    · exact hafter.spared k fun i hheld => hbefore.not_breaks hdown hheld hk
    · rw [hafter.held]
      cases hheld : l.state.framework.get? k with
      | none => rfl
      | some i => simp [mend, hbefore.not_breaks hdown hheld hk]
  · refine (h.handled fun rest hstage => ?_).of_disabled hdisabled
    simpa [hdisabled] using (h.handling rest hstage).1

end IntentPlane.Recovery
