import IntentPlane.Proofs.Decomposition.Steps
import IntentPlane.Proofs.Guarantee

/-!
# Writes that are lost

A store may lose conditional writes, as it does while others keep writing. An update that loses
each of its attempts gives up, and the decomposition that needs it is given up with it, wherever it
is by then. `Falters` says what may come of a program whatever writes are lost: it ends as it does
on a store that works, or with an error of the store in one of the scenes given.
-/

namespace IntentPlane

/-- Answers accesses, but loses the conditional writes that it is told to, one after another. -/
def losing {σ : Type} (answer : (access : Access) → σ → access.Answer × σ) :
    (access : Access) → σ × List Bool → access.Answer × (σ × List Bool)
  | .replaceRecord .., (s, true :: losses) => (false, (s, losses))
  | .replaceRecord service version record, (s, losses) =>
    let (written, s) := answer (.replaceRecord service version record) s
    (written, (s, losses.tail))
  | access, (s, losses) =>
    let (reply, s) := answer access s
    (reply, (s, losses))

theorem Program.run_lift_bind {σ : Type} (answer : (access : Access) → σ → access.Answer × σ)
    (p : Program α) (f : α → ExceptT ε Program β) (s : σ) :
    (monadLift p >>= f : ExceptT ε Program β).run.run answer s =
      (f (p.run answer s).1).run.run answer (p.run answer s).2 := by
  rw [ExceptT.run_bind]
  change ((p >>= fun a => pure (Except.ok a)) >>= _).run answer s = _
  rw [run_bind, run_bind]
  rfl

/-- The accesses that are never lost. -/
def Contract.unconditional : Contract where
  allows
    | .replaceRecord .. => False
    | _ => True
  expects _ _ := True

theorem Program.Keeps.run_losing {σ : Type} {p : Program α} {Q : α → Prop}
    (hp : p.Keeps .unconditional Q) (answer : (access : Access) → σ → access.Answer × σ) (s : σ)
    (losses : List Bool) :
    p.run (losing answer) (s, losses) = ((p.run answer s).1, (p.run answer s).2, losses) := by
  induction p generalizing s with
  | done => rfl
  | ask access next ih =>
    obtain ⟨hallowed, hnext⟩ := hp
    cases access with
    | replaceRecord => cases hallowed
    | readRecord | ensureRecord | putRecord | removeRecord | listServices | listRecords
    | indexIntent | indexedIntent | unindexIntent | resolve | submit | withdraw | heldIntents =>
      exact ih _ (hnext _ trivial) _

theorem unconditional_ask (access : Access) (h : Contract.unconditional.allows access) :
    (Program.ask access .done).Keeps .unconditional fun _ => True :=
  .ask h fun _ _ => trivial

theorem unconditional_getKeys (s : ServiceId) :
    (StatusStore.getKeys s).Keeps .unconditional fun _ => True :=
  .bind (unconditional_ask _ trivial) fun _ _ => trivial

theorem unconditional_submitFirst (limit : UInt64) (build? : CandidateLink → Option Intent)
    (reason : String) (links : List CandidateLink) :
    (submitFirst limit build? reason links).Keeps .unconditional fun _ => True := by
  induction links generalizing reason with
  | nil => exact trivial
  | cons link links ih =>
    cases hb : build? link with
    | none => simpa only [submitFirst, hb] using ih reason
    | some i =>
      simp only [submitFirst, hb]
      refine .bind (unconditional_ask _ trivial) ?_
      rintro (e | a) -
      · exact ih e.message
      · exact trivial

namespace Surroundings

variable {τ : Type}

/-- Whatever writes are lost, a program ends as it does on a store that works, or with an error of
the store in one of the scenes given. -/
def Falters (o : Surroundings τ) (m : ExceptT DecomposeError Program α) (x : Scene τ)
    (aborted : Scene τ → Prop) : Prop :=
  ∀ losses, ∃ result y rest, m.run.run (losing o.answer) (x, losses) = (result, y, rest) ∧
    (o.eval m x = (result, y) ∨ ∃ e, result = .error (.store e) ∧ aborted y)

variable {o : Surroundings τ} {x y : Scene τ} {P Q : Scene τ → Prop}
  {m : ExceptT DecomposeError Program α} {f : α → ExceptT DecomposeError Program β}

namespace Falters

theorem mono (h : o.Falters m x P) (hPQ : ∀ y, P y → Q y) : o.Falters m x Q := by
  intro losses
  obtain ⟨result, y, rest, hrun, hends⟩ := h losses
  exact ⟨result, y, rest, hrun, hends.imp_right fun ⟨e, he, hy⟩ => ⟨e, he, hPQ y hy⟩⟩

theorem pure (a : α) : o.Falters (Pure.pure a : ExceptT DecomposeError Program α) x P :=
  fun losses => ⟨.ok a, x, losses, rfl, .inl rfl⟩

theorem throw (e : DecomposeError) :
    o.Falters (MonadExcept.throw e : ExceptT DecomposeError Program α) x P :=
  fun losses => ⟨.error e, x, losses, rfl, .inl rfl⟩

/-- A sequence is given up in its first part, or in the second where the first leads to. -/
theorem bind (hm : o.Falters m x P) (hf : ∀ a y, o.eval m x = (.ok a, y) → o.Falters (f a) y P) :
    o.Falters (m >>= f) x P := by
  intro losses
  obtain ⟨result, y, rest, hrun, hends⟩ := hm losses
  rw [ExceptT.run_bind, Program.run_bind, hrun, eval_bind]
  rcases hends with hends | ⟨e, rfl, hy⟩
  · rw [hends]
    cases result with
    | ok a => exact hf a y hends rest
    | error e => exact ⟨.error e, y, rest, rfl, .inl rfl⟩
  · exact ⟨.error (.store e), y, rest, rfl, .inr ⟨e, rfl, hy⟩⟩

/-- What makes no conditional write ends as it does on a store that works. -/
theorem lift {p : Program α} {R : α → Prop} (hp : p.Keeps .unconditional R) :
    o.Falters (monadLift p) x P := by
  intro losses
  refine ⟨.ok (p.run o.answer x).1, (p.run o.answer x).2, losses, ?_, .inl (eval_lift p)⟩
  have hrun := hp.run_losing o.answer x losses
  change (p >>= fun a => Pure.pure (Except.ok a)).run (losing o.answer) (x, losses) = _
  rw [Program.run_bind, hrun]
  rfl

theorem lift_bind {p : Program γ} {g : γ → ExceptT DecomposeError Program β} {c : γ} {R : γ → Prop}
    (hp : p.Keeps .unconditional R) (hrun : p.run o.answer x = (c, y))
    (hg : o.Falters (g c) y P) : o.Falters (monadLift p >>= g) x P := by
  refine bind (lift hp) ?_
  intro c' y' h
  rw [eval_lift, hrun] at h
  obtain ⟨hc, rfl⟩ := Prod.mk.inj h
  cases hc
  exact hg

end Falters
end Surroundings

/-! ## Updates of a record -/

variable {τ : Type} {o : Surroundings τ}

namespace Scene

variable (x : Scene τ) (s : ServiceId)

/-- A record that is there need not be written first. -/
theorem ensure_ensure : (x.ensure s).ensure s = x.ensure s := by
  have hget : (x.ensure s).records.get? s = some (x.records.ensure s .empty).1 := by
    simp [ensure, VersionedMap.get?_ensure]
  rw [ensure, VersionedMap.ensure_of_get? hget]

theorem write_ensure (r : ServiceRecord) : (x.ensure s).write s r = x.write s r := by
  have h := congrArg Scene.records (x.ensure_ensure s)
  rw [write, write]
  exact congrArg (fun records => ({ x with records := records.put s r } : Scene τ)) h

end Scene

namespace StatusStore

variable {x : Scene τ} {s : ServiceId} {change : ServiceRecord → ServiceRecord}

/-- One attempt writes, or is lost and leaves the rest of the attempts. -/
theorem run_attempt_losing (failure : StoreError) (left : Nat) (losses : List Bool) :
    (attempt failure .create s change (left + 1)).run (losing o.answer) (x, losses) =
      match losses with
      | true :: losses =>
        (attempt failure .create s change left).run (losing o.answer) (x.ensure s, losses)
      | losses =>
        (.ok (some (change ((x.record s).getD .empty))),
          x.write s (change ((x.record s).getD .empty)), losses.tail) := by
  have hget : (x.ensure s).records.get? s = some (x.records.ensure s .empty).1 := by
    simp [Scene.ensure, VersionedMap.get?_ensure]
  have hval : (x.records.ensure s .empty).1.value = (x.record s).getD .empty :=
    VersionedMap.ensure_value ..
  simp only [attempt, read, map_eq_pure_bind, bind_assoc, Program.run_bind, Program.pure_bind,
    Program.ensureRecord, Program.replaceRecord, Program.run, losing, Surroundings.answer]
  rw [hval]
  rcases losses with _ | ⟨_ | _, losses⟩
  · simp only [VersionedMap.replace_current hget, if_true]
    rfl
  · simp only [VersionedMap.replace_current hget, if_true]
    rfl
  · rfl

/-- An update writes at one of its attempts, or loses them all and changes no entry. -/
theorem run_attempt_cases (failure : StoreError) (change : ServiceRecord → ServiceRecord)
    (left : Nat) (x : Scene τ) (losses : List Bool) :
    ∃ rest, (attempt failure .create s change (left + 1)).run (losing o.answer) (x, losses) =
          (.ok (some (change ((x.record s).getD .empty))),
            x.write s (change ((x.record s).getD .empty)), rest) ∨
        (attempt failure .create s change (left + 1)).run (losing o.answer) (x, losses) =
          (.error failure, x.ensure s, rest) := by
  induction left generalizing x losses with
  | zero =>
    rw [run_attempt_losing]
    rcases losses with _ | ⟨_ | _, losses⟩
    · exact ⟨_, .inl rfl⟩
    · exact ⟨_, .inl rfl⟩
    · exact ⟨_, .inr rfl⟩
  | succ left ih =>
    rw [run_attempt_losing]
    rcases losses with _ | ⟨_ | _, losses⟩
    · exact ⟨_, .inl rfl⟩
    · exact ⟨_, .inl rfl⟩
    · -- The next attempt reads what this one has ensured.
      have hnext := ih (x.ensure s) losses
      rwa [Scene.record_ensure, if_pos rfl, Option.getD_some, Scene.write_ensure,
        Scene.ensure_ensure] at hnext

end StatusStore

namespace Decomposition

variable {d : Decomposition} {x y z : Scene τ} {key : IntentKey} {leg : Leg} {p : Progress}

/-- An entry is recorded, or the run is given up with an empty record where there was none. -/
theorem falters_record (h : d.retries ≠ 0) (e : KeyStatus) :
    o.Falters (d.record e) x (· = x.ensure d.service) := by
  intro losses
  obtain ⟨n, hn⟩ := StatusStore.exists_toNat_eq_succ h
  obtain ⟨rest, hrun⟩ := StatusStore.run_attempt_cases (o := o) (s := d.service)
    (.contended d.service d.retries) (·.upsert e) n x losses
  rw [← hn] at hrun
  have hupdate : (d.record e).run.run (losing o.answer) (x, losses) = _ :=
    Program.run_lift_bind ..
  rw [StatusStore.updateKey, Program.run_bind, StatusStore.modify] at hupdate
  rcases hrun with hrun | hrun
  · rw [hrun] at hupdate
    exact ⟨.ok (), _, rest, hupdate, .inl ((eval_record e).trans (if_neg h))⟩
  · rw [hrun] at hupdate
    exact ⟨_, _, rest, hupdate, .inr ⟨_, rfl, rfl⟩⟩

/-! ## Legs -/

/-- A leg is given up after the search over its links, whatever that came to, and before its entry
is written. -/
theorem falters_realizeOver (h : d.retries ≠ 0) (links : List CandidateLink) :
    o.Falters (d.realizeOver key leg links p) x fun y =>
      ∃ result es v, Search o d.settings.submitTimeoutMs (d.intent? key leg)
          "no usable candidate link" links x.outside result es v ∧
        y = (x.hear v es).ensure d.service := by
  obtain ⟨result, es, v, hsearch, hrun⟩ := run_submitFirst o d.settings.submitTimeoutMs
    (d.intent? key leg) "no usable candidate link" links x
  rw [realizeOver]
  refine .lift_bind (unconditional_submitFirst ..) hrun ?_
  cases result with
  | ok a =>
    refine .bind ((falters_record h _).mono fun y hy => ⟨_, es, v, hsearch, hy⟩) fun _ _ _ => ?_
    exact .lift_bind (unconditional_ask _ trivial) (Surroundings.run_indexIntent ..) (.pure _)
  | error reason =>
    exact .bind ((falters_record h _).mono fun y hy => ⟨_, es, v, hsearch, hy⟩) fun _ _ _ =>
      .pure _

/-! ## Withdrawals -/

/-- The withdrawal of a key that is given up before its entry is written. -/
def HalfWithdrawn (o : Surroundings τ) (d : Decomposition) (key : IntentKey) (x y : Scene τ) :
    Prop :=
  ∃ answer u, o.withdraw d.settings.submitTimeoutMs key x.outside = (answer, u) ∧
    y = ((x.hear u [.withdraw d.settings.submitTimeoutMs key answer]).dropIndex key).ensure
      d.service

theorem falters_recordWithdrawal (h : d.retries ≠ 0) (status : IntentStatus) :
    o.Falters (d.recordWithdrawal key status) x
      (· = (x.dropIndex key).ensure d.service) := by
  rw [recordWithdrawal]
  refine .lift_bind (unconditional_ask _ trivial) (Surroundings.run_unindexIntent ..) ?_
  refine .lift_bind (unconditional_getKeys _) (StatusStore.run_getKeys ..) ?_
  split
  · refine .bind ((falters_record h _).mono fun y hy => ?_) fun _ _ _ => .pure _
    rw [hy, Scene.ensure_ensure]
  · exact .pure (Outcome.withdrawn key)

theorem falters_withdraw (h : d.retries ≠ 0) :
    o.Falters (d.withdraw key) x (d.HalfWithdrawn o key x) := by
  rw [withdraw]
  refine .lift_bind (unconditional_ask _ trivial) (Surroundings.run_withdraw ..) ?_
  split
  · exact (falters_recordWithdrawal h _).mono fun y hy => ⟨_, _, rfl, hy⟩
  · exact (falters_recordWithdrawal h _).mono fun y hy => ⟨_, _, rfl, hy⟩
  · exact .pure _

/-- Withdrawals are given up in the middle of one, with those before it done. -/
theorem falters_withdrawAll (h : d.retries ≠ 0) (keys : List IntentKey) :
    o.Falters (keys.mapM d.withdraw) x fun y => ∃ done key rest ws z,
      keys = done ++ key :: rest ∧ WithdrawnAll o d done x ws z ∧ d.HalfWithdrawn o key z y := by
  induction keys generalizing x with
  | nil => exact .pure _
  | cons key keys ih =>
    rw [List.mapM_cons]
    refine .bind ((falters_withdraw h).mono fun y hy => ?_) fun outcome y hfirst => ?_
    · exact ⟨[], key, keys, [], x, rfl, .nil, hy⟩
    · refine .bind (ih.mono fun z hz => ?_) fun _ _ _ => .pure _
      obtain ⟨done, key', rest, ws, z', rfl, hdone, hhalf⟩ := hz
      exact ⟨key :: done, key', rest, outcome :: ws, z', rfl,
        .cons (withdraw_cases hfirst) hdone, hhalf⟩

/-- A deletion is given up in the middle of a withdrawal, with those before it done. -/
theorem falters_delete (h : d.retries ≠ 0) (previous : Option ServiceRequest) :
    o.Falters (d.perform previous .delete) x fun y => ∃ done key rest ws z,
      d.ownedIn x (d.plannedKeys d.request ++ d.previousKeys previous) = done ++ key :: rest ∧
        WithdrawnAll o d done (x.ensure d.service) ws z ∧ d.HalfWithdrawn o key z y := by
  have howned (others : List IntentKey) :
      (d.ownedKeys others).Keeps .unconditional fun _ => True :=
    .bind (unconditional_getKeys _) fun _ _ => trivial
  exact .bind (.lift_bind (howned _) (run_ownedKeys _ x) (falters_withdrawAll h _))
    fun _ _ _ => .pure _

end Decomposition

end IntentPlane
