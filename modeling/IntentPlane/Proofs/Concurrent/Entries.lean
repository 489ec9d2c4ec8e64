import IntentPlane.Proofs.Concurrent.Crew
import IntentPlane.Proofs.Record.Built
import Mathlib.Data.List.Induction

/-!
# What becomes of an entry

A call that finds a record and writes it back with an entry put into it changes that entry and no
other (`Upserting`), whoever came in between: a write that succeeds finds the record as it was read.
So the entry of a key stays as it is along every part of a log in which nobody puts one under the
key (`Answered.entry_append`).
-/

namespace IntentPlane

variable {τ ι : Type}

theorem Log.records_append (l l' : Log ι) (m : Contents) :
    Log.records (l ++ l') m = l'.records (l.records m) := List.foldl_append

/-- The entry of a key in the record of a service after a log. -/
def Log.entry (log : Log ι) (x : Scene τ) (s : ServiceId) (k : IntentKey) : Option KeyStatus :=
  (log.records x.record s).bind (·.get? k)

/-- An entry that was just written. -/
theorem Log.entry_written (log : Log ι) (x : Scene τ) (i : ι) (s : ServiceId) (version : Nat)
    (r : ServiceRecord) (e : KeyStatus) :
    Log.entry (log ++ [(i, ⟨.replaceRecord s version (r.upsert e), true⟩)]) x s e.key = some e := by
  rw [Log.entry, Log.records_append]
  simp [Log.records, Deed.writes]

/-- An access that is not a write leaves a record, or makes an empty one. -/
theorem Deed.Within.writes_eq {mine : IntentKey → Prop} {d : Deed} (hd : d.Within mine)
    (m : Contents) (s : ServiceId) :
    d.writes m s = m s ∨ d.writes m s = some ((m s).getD .empty) := by
  unfold Deed.writes
  split
  · rename_i t v
    by_cases ht : s = t
    · rw [← ht]
      exact .inr (Function.update_self ..)
    · exact .inl (Function.update_of_ne ht ..)
  · cases hd
  · cases hd
  · cases hd
  · exact .inl rfl

namespace Answered

variable {o : Surroundings τ} {drift : τ → τ → Prop} {x y z : Scene τ} {before log rest : Log ι}
  {s : ServiceId} {k : IntentKey} {mine : IntentKey → Prop} {d : Deed} {i : ι}
  {v : Versioned ServiceRecord} {absent : StatusStore.Absent} {r : ServiceRecord}

theorem entry_eq (h : Answered o drift x log y) : y.entry s k = log.entry x s k := by
  rw [Scene.entry, h.record_eq]
  rfl

/-- What an update finds is there. -/
theorem entry_of_finds (h : Answered o drift x (log ++ (i, absent.finds s v) :: rest) y) :
    log.entry x s k = v.value.get? k := by
  obtain ⟨z, hlog, hanswer, -⟩ := h.scene_at
  rw [← hlog.entry_eq, Scene.entry_eq_getD]
  cases absent with
  | create =>
    have hv : v = (z.records.ensure s .empty).1 := hanswer
    rw [hv, VersionedMap.ensure_value]
    rfl
  | leave =>
    have hv : z.records.get? s = some v := hanswer.symm
    simp [Scene.record, VersionedMap.value?, hv]

/-- A record that is found missing is not there. -/
theorem records_of_missing (h : Answered o drift x (log ++ (i, ⟨.readRecord s, none⟩) :: rest) y) :
    log.records x.record s = none := by
  obtain ⟨z, hlog, hanswer, -⟩ := h.scene_at
  have hget : z.records.get? s = none := hanswer.symm
  rw [← hlog.record_eq, Scene.record, VersionedMap.value?, hget]
  rfl

variable [DecidableEq ι]

/-- A record is written over just as it was found. -/
theorem records_of_written
    (h : Answered o drift x (log ++ (i, ⟨.replaceRecord s v.version r, true⟩) :: rest) y)
    (hx : Bounded x.records) {earlier : List Deed}
    (hown : log.own i = earlier ++ [absent.finds s v]) :
    log.records x.record s = some v.value := by
  obtain ⟨z, hlog, hanswer, -⟩ := h.scene_at
  obtain ⟨log₁, log₂, rfl, -, -⟩ := Log.own_split hown
  rw [← hlog.record_eq]
  exact hlog.record_of_replaced hx hanswer.symm

/-- What an access makes of a record that it may put an entry into. -/
theorem records_upserted (h : Answered o drift x (log ++ [(i, d)]) y) (hx : Bounded x.records)
    (hd : d.Upserts s mine (log.own i)) :
    let found := log.records x.record s
    let left := Log.records (log ++ [(i, d)]) x.record s
    left = found ∨ left = some (found.getD .empty) ∨
      ∃ e, mine e.key ∧ left = some ((found.getD .empty).upsert e) := by
  intro found left
  have hleft : left = d.writes (log.records x.record) s := by
    simp only [left, Log.records_append]
    rfl
  rw [hleft]
  rcases hd with hwithin | ⟨earlier, absent, v, e, hown, he, rfl⟩
  · rcases hwithin.writes_eq (log.records x.record) s with hsame | hempty
    · exact .inl hsame
    · exact .inr (.inl hempty)
  · refine .inr (.inr ⟨e, he, ?_⟩)
    have hfound : found = some v.value := h.records_of_written hx hown
    rw [hfound]
    simp [Deed.writes]

/-- Other entries stay. -/
theorem entry_concat (h : Answered o drift x (log ++ [(i, d)]) y) (hx : Bounded x.records)
    (hd : d.Upserts s mine (log.own i)) (hk : ¬ mine k) :
    Log.entry (log ++ [(i, d)]) x s k = log.entry x s k := by
  rw [Log.entry, Log.entry]
  rcases h.records_upserted hx hd with hsame | hempty | ⟨e, he, hput⟩
  · rw [hsame]
  · rw [hempty]
    cases log.records x.record s <;> rfl
  · have hne : e.key ≠ k := fun heq => hk (heq ▸ he)
    rw [hput, Option.bind_some, ServiceRecord.get?_upsert, if_neg hne]
    cases log.records x.record s <;> rfl

/-- An entry stays along a part of a log in which nobody puts one under its key. -/
theorem entry_append (h : Answered o drift x (before ++ log) y) (hx : Bounded x.records)
    (hcalls : ∀ i, Upserting s mine (before.own i) (log.own i)) (hk : ¬ mine k) :
    Log.entry (before ++ log) x s k = before.entry x s k := by
  induction log using List.reverseRecOn generalizing y with
  | nil => rw [List.append_nil]
  | append_singleton log last ih =>
    obtain ⟨i, d⟩ := last
    rw [← List.append_assoc] at h ⊢
    obtain ⟨z, hlog, -, -⟩ := h.unsnoc
    refine (h.entry_concat hx ?_ hk).trans (ih hlog fun j => ?_)
    · have hlast := hcalls i
      rw [Log.own_append] at hlast
      have hd := hlast.of_append.2 [] d [] (by simp)
      rwa [List.append_nil, ← Log.own_append] at hd
    · have hj := hcalls j
      rw [Log.own_append] at hj
      exact hj.of_append.1

/-- It stays up to every place in such a part. -/
theorem entry_append_left {later : Log ι} (h : Answered o drift x (before ++ (log ++ later)) y)
    (hx : Bounded x.records)
    (hcalls : ∀ i, Upserting s mine (before.own i) (Log.own (log ++ later) i)) (hk : ¬ mine k) :
    Log.entry (before ++ log) x s k = before.entry x s k := by
  rw [← List.append_assoc] at h
  obtain ⟨z, hz, -⟩ := h.split
  refine hz.entry_append hx (fun i => ?_) hk
  have hi := hcalls i
  rw [Log.own_append] at hi
  exact hi.of_append.1

/-- An entry stays up to a place before which nobody puts one under its key. -/
theorem entry_start {later : Log ι} (h : Answered o drift x (log ++ later) y)
    (hx : Bounded x.records) (hcalls : ∀ i, Upserting s mine [] (Log.own (log ++ later) i))
    (hk : ¬ mine k) : log.entry x s k = x.entry s k :=
  have hall : Answered o drift x ([] ++ (log ++ later)) y := h
  hall.entry_append_left hx hcalls hk

/-- Records are not taken away, and keys are only added to them, each once. -/
theorem keys_append (h : Answered o drift x log y) (hx : Bounded x.records)
    (hcalls : ∀ i, Upserting s mine [] (log.own i)) (hr : x.record s = some r)
    (hnodup : r.keys.Nodup) :
    ∃ q, log.records x.record s = some q ∧ r.keys <+: q.keys ∧ q.keys.Nodup := by
  induction log using List.reverseRecOn generalizing y with
  | nil => exact ⟨r, hr, List.prefix_rfl, hnodup⟩
  | append_singleton log last ih =>
    obtain ⟨i, d⟩ := last
    obtain ⟨z, hlog, -, -⟩ := h.unsnoc
    have hsplit (j : ι) := (Log.own_append log [(i, d)] j ▸ hcalls j).of_append
    obtain ⟨q, hq, hkeys, hq'⟩ := ih hlog fun j => (hsplit j).1
    have hd : d.Upserts s mine (Log.own log i) := by
      simpa using (hsplit i).2 [] d [] (by simp)
    rcases h.records_upserted hx hd with hsame | hempty | ⟨e, -, hput⟩
    · exact ⟨q, hsame.trans hq, hkeys, hq'⟩
    · rw [hq, Option.getD_some] at hempty
      exact ⟨q, hempty, hkeys, hq'⟩
    · rw [hq, Option.getD_some] at hput
      refine ⟨q.upsert e, hput, ?_, ServiceRecord.nodup_keys_upsert hq' e⟩
      rw [ServiceRecord.keys_upsert]
      split
      · exact hkeys
      · exact hkeys.trans (List.prefix_append ..)

end Answered

end IntentPlane
