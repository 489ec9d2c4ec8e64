import IntentPlane.Proofs.Concurrent.Entries
import IntentPlane.Proofs.Concurrent.Rewriting

/-!
# Two calls over one entry

An event and another call that rewrites the entry of a key run side by side to their ends. Along the
whole run the service keeps its record and its entry, it stays the only one to own the key, and the
framework answers as it did. So both calls find what they look for (`Rivals.finds`).
-/

namespace IntentPlane

namespace Crew

/-- All calls are over, and none gave up. -/
def Succeeded {τ ι : Type} {tasks : ι → Task} (c : Crew τ tasks) : Prop :=
  ∀ i, ∃ result, c.threads i = .done result ∧ (tasks i).gaveUp result = false

end Crew

/-- An event, and another call that puts an entry under the same key. The service has an entry for
the key, and no other service has one. What is to be deleted is held by the framework. -/
structure Rivals (tasks : Task.Side → Task) (x : Scene Facilities) (s : ServiceId) (k : IntentKey)
    (r : ServiceRecord) (e : KeyStatus) : Prop where
  event : ∃ retries limit intent status, tasks .left = .event retries limit intent status
  rewriting : ∀ i, (tasks i).Rewriting s k
  bounded : Bounded x.records
  record : x.record s = some r
  nodup : r.keys.Nodup
  entry : r.get? k = some e
  owner : ∀ t, x.entry t k ≠ none → t = s
  held : ∀ d previous, tasks .right = .decompose d previous .delete →
    x.outside.framework.get? k ≠ none

/-! ## The framework along a log -/

namespace Answered

variable {ι : Type}

/-- Accesses between which nothing drifts are calls answered one after another. -/
theorem heard {τ : Type} {o : Surroundings τ} {x y : Scene τ} {log : Log ι}
    (h : Answered o Eq x log y) : Heard o x.outside log.exchanges y.outside := by
  induction h with
  | nil => exact .nil
  | drift hdrift _ ih =>
    subst hdrift
    exact ih
  | @deed x y i access log _ ih =>
    cases access with
    | resolve => exact .resolve rfl ih
    | submit => exact .submit rfl ih
    | withdraw => exact .withdraw rfl ih
    | heldIntents => exact .heldIntents rfl ih
    | readRecord | ensureRecord | putRecord | replaceRecord | removeRecord | listServices
    | listRecords | indexIntent | indexedIntent | unindexIntent => exact ih

theorem mono {τ : Type} {o : Surroundings τ} {drift drift' : τ → τ → Prop} {x y : Scene τ}
    {log : Log ι} (h : Answered o drift x log y) (hdrift : ∀ t u, drift t u → drift' t u) :
    Answered o drift' x log y := by
  induction h with
  | nil => exact .nil _
  | drift hd _ ih => exact .drift (hdrift _ _ hd) ih
  | deed _ ih => exact .deed ih

/-- A first withdrawal finds what was held at the beginning, if nothing was accepted meanwhile, or
something was held anyway. -/
theorem withdrawnAs_of_first {o : Enumeration} {x y : Scene Facilities} {before after : Log ι}
    {i : ι} {n : UInt64} {k : IntentKey} {answer : Except FrameworkError Unit}
    (h : Answered (.inMemory o) Eq x (before ++ (i, ⟨.withdraw n k, answer⟩) :: after) y)
    (hfirst : withdrawals k before.exchanges = [])
    (hheld : accepted k before.exchanges = [] ∨ x.outside.framework.get? k ≠ none) :
    Decomposition.WithdrawnAs answer (x.outside.framework.withdrawnAs k) := by
  obtain ⟨z, hbefore, hanswer, -⟩ := h.scene_at
  have hget := hbefore.heard.get?_eq hfirst
  have hsome : (z.outside.framework.get? k).isSome = (x.outside.framework.get? k).isSome := by
    rcases hheld with hnone | hheld
    · rw [hget, hnone]
      rfl
    · obtain ⟨i, hi⟩ := Option.ne_none_iff_exists'.mp hheld
      rw [hget, hi]
      cases (accepted k before.exchanges).getLast? <;> rfl
  have hanswer : answer = (z.outside.framework.withdraw k).1 := hanswer
  rw [Framework.withdrawnAs, ← hsome]
  cases hz : z.outside.framework.get? k with
  | none =>
    rw [hanswer, Framework.withdraw_none hz]
    exact .atOnce
  | some i =>
    rw [hanswer, Framework.withdraw_some hz]
    exact .requested

end Answered

theorem Log.withdrawals_eq_nil {ι : Type} {log : Log ι} {k : IntentKey}
    (h : ∀ i n answer, (i, ⟨.withdraw n k, answer⟩) ∉ log) : withdrawals k log.exchanges = [] := by
  refine List.filterMap_eq_nil_iff.mpr fun exchange hexchange => ?_
  obtain ⟨⟨i, d⟩, hd, heq⟩ := List.mem_filterMap.mp hexchange
  unfold Deed.exchange? at heq
  split at heq <;> cases heq
  case h_3 l answer hwithdraw =>
    refine if_neg ?_
    rintro rfl
    obtain rfl : d = _ := hwithdraw
    exact h i _ answer hd
  all_goals rfl

theorem Log.accepted_eq_nil {ι : Type} {log : Log ι} {k : IntentKey}
    (h : ∀ i n j answer, (i, ⟨.submit n j, answer⟩) ∈ log → j.key ≠ k) :
    accepted k log.exchanges = [] := by
  refine List.eq_nil_iff_forall_not_mem.mpr fun ⟨j, a⟩ hmem => ?_
  obtain ⟨hk, i, n, hmem⟩ := Log.mem_accepted.mp hmem
  exact h i n j _ hmem hk

/-! ## An entry in a log -/

/-- The write of a call that rewrites an entry. -/
def Rewrite.write {f : Framework} {s : ServiceId} {k : IntentKey} {t : Task} {ds : List Deed}
    (w : Rewrite f s k t ds) : Deed :=
  ⟨.replaceRecord s w.found.version (w.found.value.upsert (t.makes f k w.saw).1), true⟩

namespace Rewrite

variable {f : Framework} {s : ServiceId} {k : IntentKey} {t : Task} {i : Task.Side}
  {log before after : Log Task.Side} {ds : List Deed} {o : Enumeration} {x y : Scene Facilities}
  {e? : Option KeyStatus}

/-- The place of the write in a log. -/
theorem exists_place (w : Rewrite f s k t ds) (hown : log.own i = ds) :
    ∃ before after, log = before ++ (i, w.write) :: after ∧
      before.own i = w.earlier ++ [w.absent.finds s w.found] ∧ Log.own after i = w.later := by
  rw [w.eq, List.append_cons] at hown
  exact Log.own_split hown

theorem spares_found (w : Rewrite f s k t ds) :
    Upserting s (· ≠ k) [] (w.earlier ++ [w.absent.finds s w.found]) :=
  w.spares_earlier.append_self (.singleton (.inl (w.absent.within_finds s w.found _)))

theorem entry_written (w : Rewrite f s k t ds) (log : Log Task.Side) (x : Scene Facilities)
    (i : Task.Side) :
    Log.entry (log ++ [(i, w.write)]) x s k = some (t.makes f k w.saw).1 := by
  have hentry := log.entry_written x i s w.found.version w.found.value (t.makes f k w.saw).1
  rwa [w.key] at hentry

/-- What is written onto is what is there. -/
theorem found_eq (w : Rewrite f s k t ds)
    (h : Answered (.inMemory o) Eq x (before ++ (i, w.write) :: after) y) (hx : Bounded x.records)
    (hown : before.own i = w.earlier ++ [w.absent.finds s w.found]) :
    w.found.value.get? k = before.entry x s k := by
  rw [Log.entry, h.records_of_written hx hown]
  rfl

/-- A call makes its entry of the one that is there, if that stays the same up to the write. -/
theorem saw_eq (w : Rewrite f s k t ds)
    (h : Answered (.inMemory o) Eq x (before ++ (i, w.write) :: after) y) (hx : Bounded x.records)
    (hown : before.own i = w.earlier ++ [w.absent.finds s w.found])
    (hentry : ∀ earlier later, before = earlier ++ later → earlier.entry x s k = e?) :
    e? = some w.saw := by
  rcases w.sees with ⟨-, hsaw⟩ | ⟨first, absent, v, rest, hearlier, hsaw, -⟩
  · rw [← hsaw, w.found_eq h hx hown]
    exact (hentry before [] (List.append_nil _).symm).symm
  · rw [hearlier, List.append_assoc, List.cons_append] at hown
    obtain ⟨earlier, later, rfl, -, -⟩ := Log.own_split hown
    rw [List.append_assoc, List.cons_append] at h
    rw [← hsaw, ← h.entry_of_finds]
    exact (hentry earlier _ rfl).symm

/-- What one call makes of an entry that no other call puts. -/
theorem entry_eq (w : Rewrite f s k t ds) (hds : log.own i = ds)
    (h : Answered (.inMemory o) Eq x log y) (hx : Bounded x.records)
    (hothers : ∀ j, j ≠ i → Upserting s (· ≠ k) [] (log.own j)) :
    x.entry s k = some w.saw ∧ log.entry x s k = some (t.makes f k w.saw).1 := by
  obtain ⟨before, after, rfl, hbefore, hafter⟩ := w.exists_place hds
  have hself : ¬ (k ≠ k) := not_not_intro rfl
  -- Nobody else puts the entry, and the call itself but once.
  have hspares (j : Task.Side) : Upserting s (· ≠ k) [] (before.own j) ∧
      Upserting s (· ≠ k) (Log.own (before ++ [(i, w.write)]) j) (Log.own after j) := by
    by_cases hj : j = i
    · subst hj
      refine ⟨hbefore ▸ w.spares_found, ?_⟩
      simpa [hafter] using w.spares_later.after (Log.own (before ++ [(j, w.write)]) j)
    · have hother := hothers j hj
      rw [Log.own_append, Log.own_cons, if_neg (Ne.symm hj), List.nil_append] at hother
      obtain ⟨h₁, h₂⟩ := hother.of_append
      refine ⟨h₁, ?_⟩
      simpa [Ne.symm hj] using h₂
  constructor
  · refine w.saw_eq h hx hbefore ?_
    rintro earlier later rfl
    obtain ⟨z, hz, -⟩ := h.split
    exact hz.entry_start hx (fun j => (hspares j).1) hself
  · rw [List.append_cons] at h ⊢
    exact (h.entry_append hx (fun j => (hspares j).2) hself).trans
      (w.entry_written before x i)

end Rewrite

/-! ## All along -/

namespace Rivals

open StatusEvents

variable {tasks : Task.Side → Task} {x y : Scene Facilities} {s : ServiceId} {k l : IntentKey}
  {r : ServiceRecord} {e : KeyStatus} {o : Enumeration} {log before after : Log Task.Side}
  {c : Crew Facilities tasks} {i : Task.Side}

theorem entry_eq (h : Rivals tasks x s k r e) : x.entry s k = some e := by
  rw [Scene.entry, h.record]
  exact h.entry

theorem yields (hc : Crew.Course (.inMemory o) Eq x log c) (hdone : c.Succeeded)
    (i : Task.Side) :
    ∃ result, (tasks i).program.Yields (log.own i) result ∧ (tasks i).gaveUp result = false := by
  obtain ⟨result, hresult, hok⟩ := hdone i
  exact ⟨result, hc.yields hresult, hok⟩

/-- The service is found to own the key if no other service does. -/
theorem owner?_eq {listed : List (ServiceId × ServiceRecord)}
    (hlisted : listed = o.records y.records.entries)
    (hother : ∀ t, t ≠ s → y.entry t k = none) (hentry : y.entry s k ≠ none) :
    owner? k listed = some s := by
  have hrun : (StatusStore.findService k).run (Surroundings.inMemory o).answer y =
      (owner? k listed, y) := by
    rw [hlisted]
    rfl
  cases howner : owner? k listed with
  | none =>
    rw [howner] at hrun
    have hnone := (StatusStore.findService_eq_none _ y).mp (congrArg Prod.fst hrun)
    obtain ⟨e, he⟩ := Option.ne_none_iff_exists'.mp hentry
    obtain ⟨q, hq, hfound⟩ := Option.bind_eq_some_iff.mp he
    have hcontains := ServiceRecord.contains_of_get? hfound
    rw [hnone s q hq] at hcontains
    cases hcontains
  | some t =>
    rw [howner] at hrun
    obtain ⟨q, hq, hcontains⟩ := StatusStore.findService_eq_some _ y hrun
    obtain ⟨e, he⟩ := ServiceRecord.exists_of_contains hcontains
    by_contra hne
    have hnone := hother t fun ht => hne (by rw [ht])
    rw [Scene.entry, hq, Option.bind_some, he] at hnone
    cases hnone

theorem upserting_of_owner (h : Rivals tasks x s k r e)
    (hc : Crew.Course (.inMemory o) Eq x (before ++ after) c) (hdone : c.Succeeded)
    (howner : ∀ {i listed}, (i, ⟨.listRecords, listed⟩) ∈ before → owner? k listed = some s)
    (i : Task.Side) : Upserting s ((tasks i).Touches k) [] (before.own i) := by
  obtain ⟨result, hyields, hok⟩ := yields hc hdone i
  rw [Log.own_append] at hyields
  exact (h.rewriting i).upserting hyields hok fun hmem => howner (Log.mem_own.mp hmem)

/-- While calls put entries into the record, it is there with all its keys. -/
theorem exists_record (h : Rivals tasks x s k r e) (hanswered : Answered (.inMemory o) Eq x log y)
    (hcalls : ∀ i, Upserting s ((tasks i).Touches k) [] (log.own i)) :
    ∃ q, log.records x.record s = some q ∧ r.keys <+: q.keys ∧ q.keys.Nodup :=
  hanswered.keys_append h.bounded (fun i => (hcalls i).mono fun _ _ => trivial) h.record h.nodup

theorem entry_ne_none (h : Rivals tasks x s k r e) (hl : l ∈ r.keys)
    (hanswered : Answered (.inMemory o) Eq x log y)
    (hcalls : ∀ i, Upserting s ((tasks i).Touches k) [] (log.own i)) :
    log.entry x s l ≠ none := by
  obtain ⟨q, hq, hkeys, -⟩ := h.exists_record hanswered hcalls
  rw [Log.entry, hq, Option.bind_some]
  obtain ⟨e, he⟩ := ServiceRecord.exists_of_contains
    (ServiceRecord.contains_iff.mpr (hkeys.subset hl))
  rw [he]
  exact Option.some_ne_none e

theorem key_mem (h : Rivals tasks x s k r e) : k ∈ r.keys :=
  ServiceRecord.contains_iff.mp (ServiceRecord.contains_of_get? h.entry)

/-- All along, no other service has an entry for the key, and whoever looks finds the service. -/
theorem owned (h : Rivals tasks x s k r e)
    (hc : Crew.Course (.inMemory o) Eq x (before ++ after) c) (hdone : c.Succeeded) :
    (∀ t, t ≠ s → before.entry x t k = none) ∧
      ∀ {i listed}, (i, ⟨.listRecords, listed⟩) ∈ before → owner? k listed = some s := by
  induction before using List.reverseRecOn generalizing after with
  | nil =>
    refine ⟨fun t ht => ?_, nofun⟩
    by_contra hentry
    exact ht (h.owner t hentry)
  | append_singleton before last ih =>
    obtain ⟨i, d⟩ := last
    have hearlier := hc
    rw [List.append_assoc] at hearlier
    obtain ⟨hother, hlisted⟩ := ih hearlier
    obtain ⟨z, hanswered, -⟩ := hc.answered.split
    obtain ⟨y, hbefore, hanswer, -⟩ := hanswered.unsnoc
    have hnow {j : Task.Side} {listed : List (ServiceId × ServiceRecord)}
        (hmem : (j, ⟨.listRecords, listed⟩) ∈ before ++ [(i, d)]) : owner? k listed = some s := by
      rcases List.mem_append.mp hmem with hmem | hmem
      · exact hlisted hmem
      · obtain ⟨rfl, rfl⟩ := Prod.mk.inj (List.mem_singleton.mp hmem)
        refine owner?_eq (y := y) hanswer (fun t ht => ?_) ?_
        · rw [hbefore.entry_eq]
          exact hother t ht
        · rw [hbefore.entry_eq]
          exact h.entry_ne_none h.key_mem hbefore (h.upserting_of_owner hearlier hdone hlisted)
    refine ⟨fun t ht => ?_, hnow⟩
    have hd : d.Upserts s ((tasks i).Touches k) (Log.own before i) := by
      have hcalls := h.upserting_of_owner hc hdone hnow i
      rw [Log.own_append] at hcalls
      simpa using hcalls.of_append.2 [] d [] (by simp)
    rw [← hother t ht, Log.entry, Log.entry, Log.records_append]
    change (d.writes _ t).bind _ = _
    rcases hd with hwithin | ⟨_, _, _, _, -, -, rfl⟩
    · rcases hwithin.writes_eq (Log.records before x.record) t with hsame | hempty
      · rw [hsame]
      · rw [hempty]
        cases Log.records before x.record t <;> rfl
    · rw [Deed.writes, Function.update_of_ne ht]

theorem upserting (h : Rivals tasks x s k r e) (hc : Crew.Course (.inMemory o) Eq x log c)
    (hdone : c.Succeeded) (i : Task.Side) : Upserting s ((tasks i).Touches k) [] (log.own i) := by
  have hall : Crew.Course (.inMemory o) Eq x (log ++ []) c := (List.append_nil log).symm ▸ hc
  exact h.upserting_of_owner hall hdone (h.owned hall hdone).2 i

/-- What a call finds out about withdrawals. -/
theorem withdrawn (h : Rivals tasks x s k r e) (hc : Crew.Course (.inMemory o) Eq x log c)
    (hdone : c.Succeeded) {earlier later : List Deed} {n : UInt64}
    {answer : Except FrameworkError Unit}
    (hown : log.own i = earlier ++ ⟨.withdraw n l, answer⟩ :: later)
    (hfirst : ∀ n answer, ⟨.withdraw n l, answer⟩ ∉ earlier) :
    Decomposition.WithdrawnAs answer (x.outside.framework.withdrawnAs l) := by
  -- It is the call beside the event that withdraws, and it deletes the service.
  have hright {j : Task.Side} {n : UInt64} {answer : Except FrameworkError Unit}
      (hmem : (j, ⟨.withdraw n l, answer⟩) ∈ log) :
      j = .right ∧ ∃ d previous, tasks j = .decompose d previous .delete := by
    obtain ⟨result, hyields, -⟩ := yields hc hdone j
    obtain ⟨d, previous, hd⟩ := (h.rewriting j).deletion_of_withdraw hyields (Log.mem_own.mpr hmem)
    refine ⟨?_, d, previous, hd⟩
    cases j with
    | right => rfl
    | left =>
      obtain ⟨_, _, _, _, hevent⟩ := h.event
      rw [hevent] at hd
      cases hd
  obtain ⟨before, after, rfl, rfl, -⟩ := Log.own_split hown
  obtain ⟨rfl, d, previous, hd⟩ := hright (List.mem_append_right _ (.head _))
  refine hc.answered.withdrawnAs_of_first (Log.withdrawals_eq_nil fun j m a hmem => ?_) ?_
  · obtain ⟨rfl, -⟩ := hright (List.mem_append_left _ hmem)
    exact hfirst m a (Log.mem_own.mpr hmem)
  · by_cases hl : l = k
    · exact .inr (hl ▸ h.held d previous hd)
    · refine .inl (Log.accepted_eq_nil fun j m i a hmem heq => ?_)
      obtain ⟨result, hyields, hok⟩ := yields hc hdone j
      exact hl (heq.symm.trans ((h.rewriting j).key_of_submit hyields hok
        (Log.mem_own.mpr (List.mem_append_left _ hmem))))

/-- Both calls find what they look for. -/
theorem finds (h : Rivals tasks x s k r e) (hc : Crew.Course (.inMemory o) Eq x log c)
    (hdone : c.Succeeded) (i : Task.Side) : Finds x.outside.framework s k (log.own i) := by
  have hcalls {before after : Log Task.Side} (hlog : log = before ++ after) (j : Task.Side) :
      Upserting s ((tasks j).Touches k) [] (before.own j) := by
    have hj := h.upserting hc hdone j
    rw [hlog, Log.own_append] at hj
    exact hj.of_append.1
  have hall : Crew.Course (.inMemory o) Eq x (log ++ []) c := (List.append_nil log).symm ▸ hc
  refine {
    owner := fun hmem => (h.owned hall hdone).2 (Log.mem_own.mp hmem)
    present := fun hmem => ?_
    entry := fun {absent v} hmem => ?_
    reply := fun n j answer hmem => ?_
    withdrawn := fun hown hfirst => h.withdrawn hc hdone hown hfirst }
  · obtain ⟨before, after, hlog⟩ := List.append_of_mem (Log.mem_own.mp hmem)
    have hanswered := hlog ▸ hc.answered
    obtain ⟨y, hbefore, -⟩ := hanswered.split
    obtain ⟨q, hq, -⟩ := h.exists_record hbefore (hcalls hlog)
    rw [hanswered.records_of_missing] at hq
    cases hq
  · obtain ⟨before, after, hlog⟩ := List.append_of_mem (Log.mem_own.mp hmem)
    have hanswered := hlog ▸ hc.answered
    obtain ⟨y, hbefore, -⟩ := hanswered.split
    rw [← hanswered.entry_of_finds]
    exact h.entry_ne_none h.key_mem hbefore (hcalls hlog)
  · refine (hc.answered.mono ?_).reply_of_submit (Log.mem_own.mp hmem)
    rintro _ _ rfl
    exact (rfl :)

/-! ## The other entries -/

/-- The entries of other keys do not depend on how the calls came. -/
theorem entry_of_ne (h : Rivals tasks x s k r e) (hc : Crew.Course (.inMemory o) Eq x log c)
    (hdone : c.Succeeded) (hl : l ≠ k) :
    c.scene.entry s l =
      (x.entry s l).map ((tasks .right).leaves x.outside.framework l) := by
  have hleft : Upserting s (· ≠ l) [] (log.own .left) := by
    refine (h.upserting hc hdone .left).mono fun l' hl' heq => ?_
    obtain ⟨_, _, _, _, hevent⟩ := h.event
    rw [hevent] at hl'
    exact hl (heq.symm.trans hl')
  have hanswered := hc.answered
  obtain ⟨result, hyields, hok⟩ := yields hc hdone .right
  rw [hanswered.entry_eq]
  rcases (h.rewriting .right).rewrite_or_spares hyields hok hl (h.upserting hc hdone .right)
      (fun hown hfirst => h.withdrawn hc hdone hown hfirst) with
    ⟨⟨w⟩, hmakes⟩ | ⟨hright, hnone⟩
  · obtain ⟨hentry, hfinal⟩ := w.entry_eq rfl hanswered h.bounded fun j hj => by
      cases j with
      | left => exact hleft
      | right => exact absurd rfl hj
    rw [hfinal, hentry, hmakes]
    rfl
  · have hspares (j : Task.Side) : Upserting s (· ≠ l) (Log.own [] j) (log.own j) := by
      cases j with
      | left => exact hleft
      | right => exact hright
    have hself : ¬ (l ≠ l) := not_not_intro rfl
    have hall : Answered (.inMemory o) Eq x ([] ++ log) c.scene := hanswered
    have hfinal : log.entry x s l = x.entry s l := hall.entry_append h.bounded hspares hself
    rw [hfinal]
    rcases hnone with ⟨v, hv, hnone⟩ | hsame
    · obtain ⟨before, after, rfl⟩ := List.append_of_mem (Log.mem_own.mp hv)
      have hlook : Answered (.inMemory o) Eq x
          (before ++ (.right, StatusStore.Absent.create.finds s v) :: after) c.scene := hanswered
      rw [← hanswered.entry_start h.bounded hspares hself, hlook.entry_of_finds, hnone]
      rfl
    · cases x.entry s l with
      | none => rfl
      | some e => exact (congrArg some (hsame e)).symm

/-- In the end the record has the keys that it had at the beginning. -/
theorem exists_record_final (h : Rivals tasks x s k r e)
    (hc : Crew.Course (.inMemory o) Eq x log c) (hdone : c.Succeeded) :
    ∃ q, c.scene.record s = some q ∧ q.keys = r.keys := by
  obtain ⟨q, hq, ⟨added, hkeys⟩, hnodup⟩ :=
    h.exists_record hc.answered (h.upserting hc hdone)
  rw [← hc.answered.record_eq] at hq
  refine ⟨q, hq, ?_⟩
  cases added with
  | nil => rw [← hkeys, List.append_nil]
  | cons l added =>
    -- A new key would have an entry, where there was none.
    have hmem : l ∈ q.keys := hkeys ▸ List.mem_append_right _ (.head _)
    have hl : l ∉ r.keys := by
      rw [← hkeys] at hnodup
      exact fun hl => (List.disjoint_of_nodup_append hnodup) hl (.head _)
    have hne : l ≠ k := fun heq => hl (heq ▸ h.key_mem)
    obtain ⟨f, hf⟩ := ServiceRecord.exists_of_contains (ServiceRecord.contains_iff.mpr hmem)
    have hentry := h.entry_of_ne hc hdone hne
    rw [Scene.entry, hq, Option.bind_some, hf, Scene.entry, h.record, Option.bind_some] at hentry
    cases hr : r.get? l with
    | none =>
      rw [hr] at hentry
      cases hentry
    | some g =>
      exact (hl (ServiceRecord.contains_iff.mp (ServiceRecord.contains_of_get? hr))).elim

/-- Two runs that leave the same entry under the key leave the same record. -/
theorem record_eq_iff {log' : Log Task.Side} {c' : Crew Facilities tasks}
    (h : Rivals tasks x s k r e) (hc : Crew.Course (.inMemory o) Eq x log c) (hdone : c.Succeeded)
    (hc' : Crew.Course (.inMemory o) Eq x log' c') (hdone' : c'.Succeeded) :
    c.scene.record s = c'.scene.record s ↔ c.scene.entry s k = c'.scene.entry s k := by
  refine ⟨fun hrecord => by rw [Scene.entry, hrecord, Scene.entry], fun hentry => ?_⟩
  obtain ⟨q, hq, hkeys⟩ := h.exists_record_final hc hdone
  obtain ⟨q', hq', hkeys'⟩ := h.exists_record_final hc' hdone'
  have hget (l : IntentKey) : q.get? l = q'.get? l := by
    have hall : c.scene.entry s l = c'.scene.entry s l := by
      by_cases hl : l = k
      · rw [hl, hentry]
      · rw [h.entry_of_ne hc hdone hl, h.entry_of_ne hc' hdone' hl]
    rwa [Scene.entry, hq, Scene.entry, hq'] at hall
  rw [hq, hq', ServiceRecord.ext_get? (hkeys' ▸ h.nodup) (hkeys.trans hkeys'.symm) hget]

end Rivals

end IntentPlane
