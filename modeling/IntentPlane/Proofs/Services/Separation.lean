import IntentPlane.Proofs.Recovery
import IntentPlane.Proofs.Services.Territory

/-!
# Services do not interfere

`Reached` holds of the scenes that decompositions, status events and recovery lead to, whatever they
are answered, however many updates of the store are tried, and whatever happens outside in between.
All records are proper there (`Reached.orderly`), so the name of a key tells whose it is. What
belongs to one service is spared by all that is done for another (`Spared`).
-/

namespace IntentPlane

variable {τ : Type} {app : ApplicationId} {mine : ServiceId → Prop} {s t : ServiceId}
  {k : IntentKey} {x y z : Scene τ}

/-- A key tells the service it is named after. -/
theorem IntentKey.BelongsTo.unique (hs : k.BelongsTo app s) (ht : k.BelongsTo app t) : s = t := by
  obtain ⟨m, rfl⟩ := hs
  obtain ⟨n, hn⟩ := ht
  exact (forService_inj.mp hn).1

/-- All records are proper. -/
def Scene.Orderly (app : ApplicationId) (x : Scene τ) : Prop :=
  ∀ s r, x.record s = some r → r.Proper app s

theorem Scene.Orderly.belongsTo (h : x.Orderly app) (he : x.entry s k ≠ none) :
    k.BelongsTo app s := by
  obtain ⟨e, he⟩ := Option.ne_none_iff_exists'.mp he
  obtain ⟨r, hr, hget⟩ := Option.bind_eq_some_iff.mp he
  exact (h s r hr).own_of_get? hget

/-- What belongs to a service is the same in two scenes, and no call made from one to the other is
about it. -/
structure Spared (app : ApplicationId) (t : ServiceId) (x y : Scene τ) : Prop where
  record : y.record t = x.record t
  indexed : ∀ n, y.indexed (.forService app t n) = x.indexed (.forService app t n)
  calls : ∃ es, y.calls = x.calls ++ es ∧
    ∀ n, submitted (.forService app t n) es = [] ∧ withdrawals (.forService app t n) es = []

namespace Spared

theorem of_same (hrecord : y.record t = x.record t) (hindexed : ∀ k, y.indexed k = x.indexed k)
    (hcalls : y.calls = x.calls) : Spared app t x y :=
  ⟨hrecord, fun _ => hindexed _, [], by rw [hcalls, List.append_nil], fun _ => ⟨rfl, rfl⟩⟩

theorem of_call {e : Exchange} {u : τ}
    (he : ∀ n, submitted (.forService app t n) [e] = [] ∧
      withdrawals (.forService app t n) [e] = []) :
    Spared app t x (x.hear u [e]) :=
  ⟨rfl, fun _ => rfl, [e], rfl, he⟩

theorem trans (h : Spared app t x y) (h' : Spared app t y z) : Spared app t x z where
  record := h'.record.trans h.record
  indexed n := (h'.indexed n).trans (h.indexed n)
  calls := by
    obtain ⟨es, hes, hnone⟩ := h.calls
    obtain ⟨fs, hfs, hnone'⟩ := h'.calls
    refine ⟨es ++ fs, by rw [hfs, hes, List.append_assoc], fun n => ⟨?_, ?_⟩⟩
    · rw [submitted_append, (hnone n).1, (hnone' n).1, List.append_nil]
    · rw [withdrawals_append, (hnone n).2, (hnone' n).2, List.append_nil]

end Spared

/-! ## Keeping within a service -/

theorem Scene.Orderly.of_record_eq (hx : x.Orderly app) {r : ServiceRecord} (hr : r.Proper app s)
    (h : ∀ t, y.record t = if s = t then some r else x.record t) : y.Orderly app := by
  intro t q hq
  rw [h] at hq
  split at hq
  · rename_i hst
    cases hq
    exact hst ▸ hr
  · exact hx t q hq

/-- An access that keeps within some services is answered as expected, leaves records proper and
spares the others. -/
theorem Surroundings.answer_within (o : Surroundings τ) (access : Access) (x : Scene τ)
    (hx : x.Orderly app) (hallowed : (Contract.within app mine).allows access) :
    (Contract.within app mine).expects access (o.answer access x).1 ∧
      (o.answer access x).2.Orderly app ∧
      ∀ t, ¬ mine t → Spared app t x (o.answer access x).2 := by
  have hother : ∀ {s t}, mine s → ¬ mine t → s ≠ t := fun hs ht hst => ht (hst ▸ hs)
  have hkey : ∀ {k : IntentKey}, (∃ s, mine s ∧ k.BelongsTo app s) → ∀ t, ¬ mine t → ∀ n,
      k ≠ .forService app t n := by
    rintro k ⟨s, hs, hk⟩ t ht n rfl
    exact hother hs ht (hk.unique ⟨n, rfl⟩)
  have hidle : x.Orderly app ∧ ∀ t, ¬ mine t → Spared app t x x :=
    ⟨hx, fun _ _ => .of_same rfl (fun _ => rfl) rfl⟩
  cases access with
  | readRecord s =>
    refine ⟨fun v hv => hx s v.value ?_, hidle⟩
    exact Option.map_eq_some_iff.mpr ⟨v, hv, rfl⟩
  | ensureRecord s =>
    have hproper : ((x.record s).getD .empty).Proper app s := .getD (hx s)
    refine ⟨?_, hx.of_record_eq hproper fun t => x.record_ensure s t, fun t ht => ?_⟩
    · change (x.records.ensure s .empty).1.value.Proper app s
      rwa [VersionedMap.ensure_value]
    · exact .of_same ((x.record_ensure s t).trans (if_neg (hother hallowed ht)))
        (fun _ => rfl) rfl
  | putRecord s r =>
    obtain ⟨hs, hr⟩ := hallowed
    have hrecord := fun t => VersionedMap.value?_put x.records s t r
    exact ⟨trivial, hx.of_record_eq hr hrecord, fun t ht =>
      .of_same ((hrecord t).trans (if_neg (hother hs ht))) (fun _ => rfl) rfl⟩
  | replaceRecord s version r =>
    obtain ⟨hs, hr⟩ := hallowed
    refine ⟨trivial, ?_⟩
    simp only [Surroundings.answer, VersionedMap.replace]
    split
    · have hrecord := fun t => VersionedMap.value?_put x.records s t r
      exact ⟨hx.of_record_eq hr hrecord, fun t ht =>
        .of_same ((hrecord t).trans (if_neg (hother hs ht))) (fun _ => rfl) rfl⟩
    · exact hidle
  | removeRecord s =>
    have hrecord := fun t => VersionedMap.value?_remove x.records s t
    refine ⟨trivial, fun t r hr => ?_, fun t ht => ?_⟩
    · have hr := (hrecord t).symm.trans hr
      split at hr
      · cases hr
      · exact hx t r hr
    · exact .of_same ((hrecord t).trans (if_neg (hother hallowed ht))) (fun _ => rfl) rfl
  | listRecords =>
    refine ⟨fun s r hmem => hx s r ?_, hidle⟩
    exact VersionedMap.mem_entries.mp ((o.listing_perm _).mem_iff.mp hmem)
  | indexIntent k i =>
    refine ⟨trivial, hx, fun t ht => ⟨rfl, fun n => ?_, [], (List.append_nil _).symm,
      fun _ => ⟨rfl, rfl⟩⟩⟩
    exact (x.indexed_setIndex k _ i).trans (if_neg (hkey hallowed t ht n))
  | unindexIntent k =>
    refine ⟨trivial, hx, fun t ht => ⟨rfl, fun n => ?_, [], (List.append_nil _).symm,
      fun _ => ⟨rfl, rfl⟩⟩⟩
    exact (x.indexed_dropIndex k _).trans (if_neg (hkey hallowed t ht n))
  | submit limit i =>
    exact ⟨trivial, hx, fun t ht => .of_call fun n =>
      ⟨by simp [submitted, hkey hallowed t ht n], rfl⟩⟩
  | withdraw limit k =>
    exact ⟨trivial, hx, fun t ht => .of_call fun n =>
      ⟨rfl, by simp [withdrawals, hkey hallowed t ht n]⟩⟩
  | resolve | heldIntents =>
    exact ⟨trivial, hx, fun t ht => .of_call fun n => ⟨rfl, rfl⟩⟩
  | listServices | indexedIntent => exact ⟨trivial, hidle⟩

/-- A program that keeps within some services leaves records proper and spares the others. -/
theorem Program.Keeps.spares {p : Program α} {Q : α → Prop}
    (hp : p.Keeps (.within app mine) Q) (o : Surroundings τ) (hx : x.Orderly app) :
    (p.run o.answer x).2.Orderly app ∧
      ∀ t, ¬ mine t → Spared app t x (p.run o.answer x).2 := by
  -- The invariant of the run: records are proper, and the others were spared so far.
  refine (hp.run (I := fun y => y.Orderly app ∧ ∀ t, ¬ mine t → Spared app t x y) ?_
    ⟨hx, fun _ _ => .of_same rfl (fun _ => rfl) rfl⟩).2
  intro access y ⟨hy, hspared⟩ hallowed
  obtain ⟨hexpected, hz, hspared'⟩ := o.answer_within access y hy hallowed
  exact ⟨hexpected, hz, fun t ht => (hspared t ht).trans (hspared' t ht)⟩

theorem Decomposition.spares (d : Decomposition) (o : Surroundings τ)
    (previous : Option ServiceRequest) (validation : Validation) (hx : x.Orderly d.app) :
    (o.eval (d.run previous validation) x).2.Orderly d.app ∧
      ∀ t, t ≠ d.service → Spared d.app t x (o.eval (d.run previous validation) x).2 := by
  have hkept : (Contract.within d.app (· = d.service)).Kept (fun _ => True)
      (d.run previous validation) := d.kept_run (by rfl) previous validation
  exact hkept.spares o hx

theorem StatusEvents.spares (o : Surroundings τ) (retries : UInt32) (limit : UInt64)
    (intent : Intent) (status : IntentStatus) (hx : x.Orderly app) :
    ((handle retries limit intent status).run o.answer x).2.Orderly app ∧
      ∀ t, ¬ intent.key.BelongsTo app t →
        Spared app t x ((handle retries limit intent status).run o.answer x).2 :=
  (keeps_handle (fun _ h => h) retries limit status).spares o hx

/-! ## Reached scenes -/

/-- The scenes that the components of one application lead to from an empty store. Each time they
are answered by any registry and framework, and records are listed in any order. -/
inductive Reached (app : ApplicationId) : Scene τ → Prop where
  | start (u : τ) : Reached app ⟨.empty, .empty, u, []⟩
  | decompose {x : Scene τ} (o : Surroundings τ) (d : Decomposition)
      (previous : Option ServiceRequest) (validation : Validation) : d.app = app →
      Reached app x → Reached app (o.eval (d.run previous validation) x).2
  | event {x : Scene τ} (o : Surroundings τ) (retries : UInt32) (limit : UInt64)
      (intent : Intent) (status : IntentStatus) : Reached app x →
      Reached app ((StatusEvents.handle retries limit intent status).run o.answer x).2
  | recover {x : Scene τ} (o : Surroundings τ) (limit : UInt64) (events : List TopologyEvent) :
      Reached app x → Reached app ((Recovery.handle limit events).run o.answer x).2
  /-- Something happens outside. -/
  | change {x : Scene τ} (u : τ) : Reached app x → Reached app { x with outside := u }

namespace Reached

theorem orderly (h : Reached app x) : x.Orderly app := by
  induction h with
  | start => exact nofun
  | decompose o d previous validation happ _ ih =>
    cases happ
    exact (d.spares o previous validation ih).1
  | event o retries limit intent status _ ih =>
    exact (StatusEvents.spares o retries limit intent status ih).1
  | @recover x o limit events _ ih =>
    obtain ⟨report, es, u, hrun, -⟩ := Recovery.run_handle o limit events x
    rw [hrun]
    exact ih
  | change _ _ ih => exact ih

/-- No key is in the records of two services. -/
theorem owner_unique (h : Reached app x) (hs : x.entry s k ≠ none) (ht : x.entry t k ≠ none) :
    s = t :=
  (h.orderly.belongsTo hs).unique (h.orderly.belongsTo ht)

/-- The service found for a key is the one whose record holds it, in whatever order records are
listed. -/
theorem findService_iff (h : Reached app x) (o : Surroundings τ) :
    ((StatusStore.findService k).run o.answer x).1 = some s ↔ x.entry s k ≠ none := by
  have hfound : ∀ {t}, ((StatusStore.findService k).run o.answer x).1 = some t →
      x.entry t k ≠ none := by
    intro t ht
    obtain ⟨r, hr, hcontains⟩ := StatusStore.findService_eq_some o x (Prod.ext ht rfl)
    obtain ⟨e, he⟩ := ServiceRecord.exists_of_contains hcontains
    rw [Scene.entry, hr, Option.bind_some, he]
    exact Option.some_ne_none e
  constructor
  · exact hfound
  · intro hs
    cases hfind : ((StatusStore.findService k).run o.answer x).1 with
    | some t => rw [h.owner_unique (hfound hfind) hs]
    | none =>
      obtain ⟨e, he⟩ := Option.ne_none_iff_exists'.mp hs
      obtain ⟨r, hr, hget⟩ := Option.bind_eq_some_iff.mp he
      have hno := (StatusStore.findService_eq_none o x).mp hfind s r hr
      rw [ServiceRecord.contains_of_get? hget] at hno
      cases hno

end Reached

/-- In memory, the framework still holds for a service that is spared what it held. -/
theorem Spared.framework {e : Enumeration} {p : Program α} {x : Scene Facilities}
    (h : Spared app t x (p.run (Surroundings.inMemory e).answer x).2) (n : Nat) :
    (p.run (Surroundings.inMemory e).answer x).2.outside.framework.get? (.forService app t n) =
      x.outside.framework.get? (.forService app t n) := by
  obtain ⟨es, hcalls, hheard⟩ := run_heard (.inMemory e) p x
  obtain ⟨fs, hcalls', hnone⟩ := h.calls
  obtain rfl : es = fs := List.append_cancel_left (hcalls.symm.trans hcalls')
  exact hheard.get?_of_none_accepted (hnone n).2 (accepted_eq_nil (hnone n).1)

/-- Services never interfere. A key tells its service and its number; so in every scene reached, a
key is in the record of one service at most, the service found for a key is the one whose record
holds it, and what is done for one service spares all others: their records, their part of the
index, and their intents in the framework, which no call is made about and which a framework in
memory holds as before. -/
theorem services_apart (app : ApplicationId) :
    (∀ (s t : ServiceId) (m n : Nat),
      IntentKey.forService app s m = .forService app t n → s = t ∧ m = n) ∧
    (∀ {τ : Type} (x : Scene τ), Reached app x →
      (∀ k s t, x.entry s k ≠ none → x.entry t k ≠ none → s = t) ∧
      (∀ (o : Surroundings τ) s n,
        ((StatusStore.findService (.forService app s n)).run o.answer x).1 = some s ↔
          x.entry s (.forService app s n) ≠ none) ∧
      (∀ (o : Surroundings τ) (d : Decomposition) previous validation t, d.app = app →
        t ≠ d.service → Spared app t x (o.eval (d.run previous validation) x).2) ∧
      (∀ (o : Surroundings τ) retries limit intent status s n t,
        intent.key = .forService app s n → t ≠ s →
        Spared app t x ((StatusEvents.handle retries limit intent status).run o.answer x).2)) ∧
    (∀ (e : Enumeration) (x : Scene Facilities), Reached app x →
      (∀ (d : Decomposition) previous validation t n, d.app = app → t ≠ d.service →
        ((Surroundings.inMemory e).eval (d.run previous validation)
            x).2.outside.framework.get? (.forService app t n) =
          x.outside.framework.get? (.forService app t n)) ∧
      (∀ retries limit intent status s n t l, intent.key = .forService app s n → t ≠ s →
        ((StatusEvents.handle retries limit intent status).run (Surroundings.inMemory e).answer
            x).2.outside.framework.get? (.forService app t l) =
          x.outside.framework.get? (.forService app t l))) := by
  have hdecompose : ∀ {τ : Type} {x : Scene τ}, Reached app x → ∀ (o : Surroundings τ)
      (d : Decomposition) previous validation t, d.app = app → t ≠ d.service →
      Spared app t x (o.eval (d.run previous validation) x).2 := by
    intro τ x hx o d previous validation t happ ht
    cases happ
    exact (d.spares o previous validation hx.orderly).2 t ht
  have hevent : ∀ {τ : Type} {x : Scene τ}, Reached app x → ∀ (o : Surroundings τ) retries limit
      intent status s n t, intent.key = .forService app s n → t ≠ s →
      Spared app t x ((StatusEvents.handle retries limit intent status).run o.answer x).2 := by
    intro τ x hx o retries limit intent status s n t hkey ht
    refine (StatusEvents.spares o retries limit intent status hx.orderly).2 t fun hown => ?_
    exact ht (hown.unique ⟨n, hkey⟩)
  refine ⟨fun s t m n => IntentKey.forService_inj.mp, ?_, ?_⟩
  · intro τ x hx
    exact ⟨fun k s t => hx.owner_unique, fun o s n => hx.findService_iff o, hdecompose hx,
      hevent hx⟩
  · intro e x hx
    constructor
    · intro d previous validation t n happ ht
      exact (hdecompose hx (.inMemory e) d previous validation t happ ht).framework n
    · intro retries limit intent status s n t l hkey ht
      exact (hevent hx (.inMemory e) retries limit intent status s n t hkey ht).framework l

end IntentPlane
