import IntentPlane.Proofs.VersionedMap

/-!
# Versions

Calls to a versioned map come in any order. What a single call comes to is told by `Acted`, and all
else follows from it. Versions are issued in increasing order, and what is stored has versions of
the past, each at one key. An entry that is written or removed is absent from then on or younger
than the clock was. So who was told the version of an entry replaces the entry just if it was left
alone since (`versions_reliable`).
-/

namespace IntentPlane.VersionedMap

variable {κ β : Type} [DecidableEq κ]

inductive Call (κ β : Type) where
  | get (key : κ)
  | put (key : κ) (value : β)
  | ensure (key : κ) (value : β)
  | replace (key : κ) (version : Nat) (value : β)
  | remove (key : κ)

/-- What a call is answered with: writes without a condition with the version they were made at. -/
@[reducible] def Call.Answer : Call κ β → Type
  | .get _ => Option (Versioned β)
  | .put .. => Nat
  | .ensure .. => Versioned β
  | .replace .. => Bool
  | .remove _ => Option β

def Call.key : Call κ β → κ
  | .get k | .put k _ | .ensure k _ | .replace k .. | .remove k => k

def answer : (call : Call κ β) → VersionedMap κ β → call.Answer × VersionedMap κ β
  | .get k, m => (m.get? k, m)
  | .put k b, m => ((m.put k b).clock, m.put k b)
  | .ensure k b, m => m.ensure k b
  | .replace k version b, m => m.replace k version b
  | .remove k, m => m.remove k

def after (m : VersionedMap κ β) (calls : List (Call κ β)) : VersionedMap κ β :=
  calls.foldl (fun m call => (answer call m).2) m

/-- What becomes of an entry. -/
inductive Effect where
  | written (version : Nat)
  | removed

def Effect.version? : Effect → Option Nat
  | written version => some version
  | removed => none

/-- The entry at a key as one that was just written. -/
def written? (m : VersionedMap κ β) (k : κ) : Option Effect :=
  (m.get? k).map fun v => .written v.version

/-- What a call does to the entry at its key, if it does anything. -/
def effect? (m : VersionedMap κ β) : Call κ β → Option Effect
  | .get _ => none
  | .put k b => (m.put k b).written? k
  | .ensure k b => if (m.get? k).isSome then none else (m.ensure k b).2.written? k
  | .replace k version b =>
    if (m.replace k version b).1 then (m.replace k version b).2.written? k else none
  | .remove k => if (m.remove k).1.isSome then some .removed else none

/-- The calls of a run, each with the map it was made to. -/
def steps (m : VersionedMap κ β) : List (Call κ β) → List (VersionedMap κ β × Call κ β)
  | [] => []
  | call :: calls => (m, call) :: (answer call m).2.steps calls

/-- The versions that a run of calls issues to writes, in their order. -/
def issued (m : VersionedMap κ β) (calls : List (Call κ β)) : List Nat :=
  (m.steps calls).filterMap fun step => (step.1.effect? step.2).bind (·.version?)

/-- In a run of calls no write to a key takes effect, and no removal of it. -/
def LeftAlone (m : VersionedMap κ β) (k : κ) (calls : List (Call κ β)) : Prop :=
  ∀ step ∈ m.steps calls, step.2.key = k → step.1.effect? step.2 = none

/-- The answer to a call tells the version of the entry at a key. -/
inductive Tells (k : κ) (version : Nat) : (call : Call κ β) → call.Answer → Prop where
  | get {b : β} : Tells k version (.get k) (some ⟨b, version⟩)
  | put {b : β} : Tells k version (.put k b) version
  | ensure {b c : β} : Tells k version (.ensure k b) ⟨c, version⟩

/-- Versions that are stored are ticks of the past, each at one key. -/
structure Stamped (m : VersionedMap κ β) : Prop where
  version_le : ∀ k v, m.get? k = some v → v.version ≤ m.clock
  distinct : ∀ k l v w, m.get? k = some v → m.get? l = some w → v.version = w.version → k = l

/-- What versions are good for after calls to a map that began empty. -/
structure Reliable (calls : List (Call κ β)) : Prop where
  /-- A version is greater than all that were issued before it. -/
  increasing : (issued .empty calls).Pairwise (· < ·)
  clock : (after .empty calls).clock = (issued .empty calls).length
  /-- As long as there are fewer of them than numbers of 64 bits, versions are such numbers. -/
  fits : (issued .empty calls).length < UInt64.size →
    ∀ version ∈ issued .empty calls, version < UInt64.size
  stamped : (after .empty calls).Stamped
  /-- Who was told the version of an entry replaces it just if it was left alone since. -/
  replaces : ∀ earlier call later k version, calls = earlier ++ call :: later →
    Tells k version call (answer call (after .empty earlier)).1 →
      ∀ b, ((after .empty calls).replace k version b).1 = true ↔
        (after .empty (earlier ++ [call])).LeftAlone k later
  /-- Versions of other keys replace nothing. -/
  foreign : ∀ earlier call later k l version, calls = earlier ++ call :: later →
    Tells l version call (answer call (after .empty earlier)).1 → l ≠ k →
      ∀ b, ((after .empty calls).replace k version b).1 = false
  refused : ∀ k version b, ((after .empty calls).replace k version b).1 = false →
    ((after .empty calls).replace k version b).2 = after .empty calls
  present : ∀ k b, (after .empty calls).get? k ≠ none →
    ((after .empty calls).ensure k b).2 = after .empty calls
  ensured : ∀ k b, ((after .empty calls).ensure k b).2.get? k =
    some ((after .empty calls).ensure k b).1

variable {m m' : VersionedMap κ β} {call : Call κ β} {calls : List (Call κ β)} {k l : κ}
  {v w : Versioned β} {version : Nat}

/-! ## One call -/

/-- What a call comes to: the map stays as it is, or the entry at the key of the call is written at
the next tick or removed. -/
inductive Acted (m : VersionedMap κ β) (call : Call κ β) : VersionedMap κ β → Prop where
  | idle : m.effect? call = none → Acted m call m
  | wrote (b : β) : m.effect? call = some (.written (m.clock + 1)) →
      Acted m call (m.put call.key b)
  | removed : m.effect? call = some .removed → Acted m call (m.remove call.key).2

theorem written?_put (m : VersionedMap κ β) (k : κ) (b : β) :
    (m.put k b).written? k = some (.written (m.clock + 1)) := by
  rw [written?, get?_put, if_pos rfl]
  rfl

theorem acted_answer (m : VersionedMap κ β) (call : Call κ β) :
    Acted m call (answer call m).2 := by
  cases call with
  | get k => exact .idle rfl
  | put k b => exact .wrote b (written?_put m k b)
  | ensure k b =>
    rw [answer]
    cases h : m.get? k with
    | some v =>
      rw [ensure_of_get? h]
      apply Acted.idle
      rw [effect?, h]
      rfl
    | none =>
      rw [ensure_of_get?_none h]
      apply Acted.wrote b
      rw [effect?, h, ensure_of_get?_none h]
      exact written?_put m k b
  | replace k version b =>
    rw [answer]
    cases h : (m.replace k version b).1 with
    | false =>
      rw [replace_failed h]
      apply Acted.idle
      rw [effect?, h]
      rfl
    | true =>
      rw [replace_succeeded h]
      apply Acted.wrote b
      rw [effect?, replace_succeeded h]
      exact written?_put m k b
  | remove k =>
    rw [answer]
    cases h : m.get? k with
    | none =>
      rw [remove_of_get?_none h]
      apply Acted.idle
      rw [effect?, remove_of_get?_none h]
      rfl
    | some v =>
      apply Acted.removed
      rw [effect?, remove, h]
      rfl

namespace Acted

/-- A call that issues a version issues the next tick, and else the clock stands still. -/
theorem issues (h : Acted m call m') :
    (m.effect? call).bind (·.version?) = none ∧ m'.clock = m.clock ∨
      (m.effect? call).bind (·.version?) = some (m.clock + 1) ∧ m'.clock = m.clock + 1 := by
  cases h with
  | idle heffect => exact .inl ⟨by rw [heffect]; rfl, rfl⟩
  | wrote b heffect => exact .inr ⟨by rw [heffect]; rfl, rfl⟩
  | removed heffect => exact .inl ⟨by rw [heffect]; rfl, rfl⟩

theorem clock_le (h : Acted m call m') : m.clock ≤ m'.clock := by
  rcases h.issues with ⟨-, hclock⟩ | ⟨-, hclock⟩ <;> omega

/-- A call without effect on a key leaves its entry as it is. -/
theorem get?_eq (h : Acted m call m') (hnone : call.key = k → m.effect? call = none) :
    m'.get? k = m.get? k := by
  cases h with
  | idle => rfl
  | wrote b heffect =>
    rw [get?_put, if_neg]
    intro hkey
    cases heffect.symm.trans (hnone hkey)
  | removed heffect =>
    rw [get?_remove, if_neg]
    intro hkey
    cases heffect.symm.trans (hnone hkey)

/-- An entry that a call had an effect on is younger than the clock was. -/
theorem lt_version (h : Acted m call m') (hkey : call.key = k) (heffect : m.effect? call ≠ none)
    (hw : m'.get? k = some w) : m.clock < w.version := by
  cases h with
  | idle hnone => exact absurd hnone heffect
  | wrote b =>
    rw [get?_put, if_pos hkey] at hw
    cases hw
    exact Nat.lt_succ_self _
  | removed =>
    rw [get?_remove, if_pos hkey] at hw
    cases hw

end Acted

/-! ## Stored versions -/

theorem stamped_empty : (empty : VersionedMap κ β).Stamped := ⟨nofun, nofun⟩

theorem Stamped.of_put {b : β} (h : m.Stamped) (hv : (m.put k b).get? l = some v) :
    l = k ∧ v.version = m.clock + 1 ∨ m.get? l = some v ∧ v.version ≤ m.clock := by
  rw [get?_put] at hv
  split at hv
  next hkey =>
    cases hv
    exact .inl ⟨hkey.symm, rfl⟩
  next => exact .inr ⟨hv, h.version_le l v hv⟩

theorem Stamped.put (h : m.Stamped) (k : κ) (b : β) : (m.put k b).Stamped where
  version_le l v hv := by
    change v.version ≤ m.clock + 1
    rcases h.of_put hv with ⟨-, hnew⟩ | ⟨-, hle⟩ <;> omega
  distinct l l' v w hv hw hversion := by
    -- The new version is above the clock, so no other entry has it.
    rcases h.of_put hv with ⟨hl, hnew⟩ | ⟨hold, hle⟩
    · rcases h.of_put hw with ⟨hl', -⟩ | ⟨-, hle⟩
      · exact hl.trans hl'.symm
      · omega
    · rcases h.of_put hw with ⟨-, hnew⟩ | ⟨hold', -⟩
      · omega
      · exact h.distinct l l' v w hold hold' hversion

theorem Stamped.remove (h : m.Stamped) (k : κ) : (m.remove k).2.Stamped := by
  have hold {l : κ} {v : Versioned β} (hv : (m.remove k).2.get? l = some v) :
      m.get? l = some v := by
    rw [get?_remove] at hv
    split at hv
    · cases hv
    · exact hv
  constructor
  · intro l v hv
    exact h.version_le l v (hold hv)
  · intro l l' v w hv hw hversion
    exact h.distinct l l' v w (hold hv) (hold hw) hversion

theorem Stamped.answer (h : m.Stamped) (call : Call κ β) : (answer call m).2.Stamped := by
  have hacted := acted_answer m call
  generalize (VersionedMap.answer call m).2 = m' at hacted
  cases hacted with
  | idle => exact h
  | wrote b => exact h.put call.key b
  | removed => exact h.remove call.key

theorem Stamped.after (h : m.Stamped) (calls : List (Call κ β)) : (m.after calls).Stamped := by
  induction calls generalizing m with
  | nil => exact h
  | cons call calls ih => exact ih (h.answer call)

/-! ## Runs of calls -/

theorem after_append (m : VersionedMap κ β) (earlier later : List (Call κ β)) :
    m.after (earlier ++ later) = (m.after earlier).after later := List.foldl_append

theorem issued_cons (m : VersionedMap κ β) (call : Call κ β) (calls : List (Call κ β)) :
    m.issued (call :: calls) =
      ((m.effect? call).bind (·.version?)).toList ++ (answer call m).2.issued calls := by
  rw [issued, steps, List.filterMap_cons]
  dsimp only
  cases (m.effect? call).bind (·.version?) <;> rfl

/-- The clock counts the versions that are issued. -/
theorem clock_after (m : VersionedMap κ β) (calls : List (Call κ β)) :
    (m.after calls).clock = m.clock + (m.issued calls).length := by
  induction calls generalizing m with
  | nil => rfl
  | cons call calls ih =>
    have hrest := ih (answer call m).2
    change ((answer call m).2.after calls).clock = _
    rw [issued_cons, List.length_append, hrest]
    rcases (acted_answer m call).issues with ⟨hissued, hclock⟩ | ⟨hissued, hclock⟩
    · rw [hissued, hclock, Option.toList_none, List.length_nil, Nat.zero_add]
    · rw [hissued, hclock, Option.toList_some, List.length_singleton, Nat.add_assoc]

/-- The versions issued are the ticks one after another. -/
theorem issued_eq (m : VersionedMap κ β) (calls : List (Call κ β)) :
    m.issued calls = List.range' (m.clock + 1) (m.issued calls).length := by
  induction calls generalizing m with
  | nil => rfl
  | cons call calls ih =>
    have hrest := ih (answer call m).2
    rw [issued_cons]
    rcases (acted_answer m call).issues with ⟨hissued, hclock⟩ | ⟨hissued, hclock⟩
    · rw [hclock] at hrest
      rw [hissued]
      exact hrest
    · rw [hclock] at hrest
      rw [hissued, Option.toList_some, List.singleton_append, List.length_cons, List.range'_succ,
        ← hrest]

theorem leftAlone_cons : m.LeftAlone k (call :: calls) ↔
    (call.key = k → m.effect? call = none) ∧ (answer call m).2.LeftAlone k calls := by
  simp only [LeftAlone, steps, List.forall_mem_cons]

theorem get?_of_leftAlone (h : m.LeftAlone k calls) : (m.after calls).get? k = m.get? k := by
  induction calls generalizing m with
  | nil => rfl
  | cons call calls ih =>
    obtain ⟨hcall, hcalls⟩ := leftAlone_cons.mp h
    exact (ih hcalls).trans ((acted_answer m call).get?_eq hcall)

/-- If an entry was not left alone, what stands in its place is younger than the clock was. -/
theorem lt_version_of_not_leftAlone (h : ¬ m.LeftAlone k calls)
    (hw : (m.after calls).get? k = some w) : m.clock < w.version := by
  induction calls generalizing m with
  | nil => exact absurd (fun _ hstep => nomatch hstep) h
  | cons call calls ih =>
    have hacted := acted_answer m call
    by_cases hcalls : (answer call m).2.LeftAlone k calls
    · have hcall : ¬ (call.key = k → m.effect? call = none) := by
        intro hcall
        exact h (leftAlone_cons.mpr ⟨hcall, hcalls⟩)
      obtain ⟨hkey, heffect⟩ := Classical.not_imp.mp hcall
      have hnow : (answer call m).2.get? k = some w := (get?_of_leftAlone hcalls).symm.trans hw
      exact hacted.lt_version hkey heffect hnow
    · exact Nat.lt_of_le_of_lt hacted.clock_le (ih hcalls hw)

/-! ## What callers are told -/

/-- What a caller is told is stored. -/
theorem Tells.stored (h : Tells k version call (answer call m).1) :
    ∃ v, (answer call m).2.get? k = some v ∧ v.version = version := by
  generalize hanswer : (answer call m).1 = told at h
  cases h with
  | get => exact ⟨_, hanswer, rfl⟩
  | @put b =>
    refine ⟨⟨b, m.clock + 1⟩, ?_, hanswer⟩
    rw [answer, get?_put, if_pos rfl]
  | @ensure b c =>
    refine ⟨⟨c, version⟩, ?_, rfl⟩
    rw [answer, get?_ensure, if_pos rfl, ← hanswer]
    rfl

/-- An entry of a version that was told is the entry that was stored then. -/
theorem replace_iff_leftAlone (hm : m.Stamped) (hv : m.get? k = some v) (b : β) :
    ((m.after calls).replace k v.version b).1 = true ↔ m.LeftAlone k calls := by
  rw [replace_iff]
  constructor
  · rintro ⟨w, hw, hversion⟩
    refine Classical.byContradiction fun hdisturbed => ?_
    have hlt := lt_version_of_not_leftAlone hdisturbed hw
    have hle := hm.version_le k v hv
    omega
  · intro halone
    exact ⟨v, (get?_of_leftAlone halone).trans hv, rfl⟩

theorem replace_foreign (hm : m.Stamped) (hv : m.get? l = some v) (hne : l ≠ k) (b : β) :
    ((m.after calls).replace k v.version b).1 = false := by
  apply Bool.eq_false_iff.mpr
  intro hreplaced
  obtain ⟨w, hw, hversion⟩ := replace_iff.mp hreplaced
  by_cases halone : m.LeftAlone k calls
  · have hstored : m.get? k = some w := (get?_of_leftAlone halone).symm.trans hw
    exact hne (hm.distinct l k v w hv hstored hversion.symm)
  · have hlt := lt_version_of_not_leftAlone halone hw
    have hle := hm.version_le l v hv
    omega

/-- Versions are reliable, whatever calls are made to a map that begins empty. -/
theorem versions_reliable (calls : List (Call κ β)) : Reliable calls := by
  have hstamped (calls : List (Call κ β)) : (after .empty calls).Stamped :=
    stamped_empty.after calls
  have hcut (earlier : List (Call κ β)) (call : Call κ β) (later : List (Call κ β)) :
      after .empty (earlier ++ call :: later) =
        (after .empty (earlier ++ [call])).after later := by
    rw [← after_append, List.append_assoc, List.singleton_append]
  have hstored {earlier : List (Call κ β)} {call : Call κ β} {k : κ} {version : Nat}
      (htold : Tells k version call (answer call (after .empty earlier)).1) :
      ∃ v, (after .empty (earlier ++ [call])).get? k = some v ∧ v.version = version := by
    rw [after_append]
    exact htold.stored
  refine {
    increasing := ?_
    clock := ?_
    fits := ?_
    stamped := hstamped calls
    replaces := ?_
    foreign := ?_
    refused := ?_
    present := ?_
    ensured := ?_ }
  · rw [issued_eq]
    exact List.pairwise_lt_range'
  · rw [clock_after]
    exact Nat.zero_add _
  · intro hfew version hmem
    rw [issued_eq] at hmem
    have hrange := List.mem_range'_1.mp hmem
    change 0 + 1 ≤ version ∧ version < 0 + 1 + (issued .empty calls).length at hrange
    omega
  · rintro earlier call later k version rfl htold b
    obtain ⟨v, hv, rfl⟩ := hstored htold
    rw [hcut]
    exact replace_iff_leftAlone (hstamped _) hv b
  · rintro earlier call later k l version rfl htold hne b
    obtain ⟨v, hv, rfl⟩ := hstored htold
    rw [hcut]
    exact replace_foreign (hstamped _) hv hne b
  · intro k version b hfailed
    rw [replace_failed hfailed]
  · intro k b hpresent
    obtain ⟨v, hv⟩ := Option.ne_none_iff_exists'.mp hpresent
    rw [ensure_of_get? hv]
  · intro k b
    rw [get?_ensure, if_pos rfl]

/-- Inserted again after a removal, a key is not replaced at the version of before. -/
theorem reinserted_not_replaced :
    let calls : List (Call String Nat) := [.put "a" 1, .remove "a", .ensure "a" 1]
    ((after .empty calls).replace "a" 1 2).1 = false := by
  intro calls
  have hreplaces := (versions_reliable calls).replaces [] (.put "a" 1) [.remove "a", .ensure "a" 1]
    "a" 1 rfl .put 2
  apply Bool.eq_false_iff.mpr
  intro hreplaced
  have hnone := hreplaces.mp hreplaced _ (.head _) rfl
  revert hnone
  simp [effect?, remove, after, answer, get?_put]

end IntentPlane.VersionedMap
