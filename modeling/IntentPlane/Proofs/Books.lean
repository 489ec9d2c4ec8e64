import IntentPlane.Proofs.InMemory
import Mathlib.Data.List.Induction

/-!
# The books of the framework

Submissions, withdrawals, insertions and marks on keys come in any order to a framework that begins
with empty books. The journal of the calls has their answers, and the changes under a key are those
of its calls that succeeded. What one call does to the books under a key is told by `Booked`, and
the rest follows call by call (`books_straight_iff`): the last change says what is held, but what
counts as withdrawn is said by the last change that is no insertion. So a key that was withdrawn and
is inserted again is held and counts as withdrawn.
-/

namespace IntentPlane.Framework

/-- A call that writes to the books. -/
inductive Call where
  | submit (intent : Intent)
  | withdraw (key : IntentKey)
  | insert (intent : Intent)
  | reject (key : IntentKey)
  | negotiate (key : IntentKey)

@[reducible] def Call.Answer : Call → Type
  | .submit _ => Except FrameworkError Submission
  | .withdraw _ => Except FrameworkError Unit
  | .insert _ | .reject _ | .negotiate _ => Unit

def Call.submits (k : IntentKey) : Call → Bool
  | .submit i => i.key = k
  | _ => false

def answer : (call : Call) → Framework → call.Answer × Framework
  | .submit i, f => f.submit i
  | .withdraw k, f => f.withdraw k
  | .insert i, f => ((), f.insert i)
  | .reject k, f => ((), f.reject k)
  | .negotiate k, f => ((), f.negotiate k)

def after (f : Framework) (calls : List Call) : Framework :=
  calls.foldl (fun f call => (answer call f).2) f

structure Entry where
  call : Call
  answer : call.Answer

/-- Calls that are made one after another, with their answers. -/
def journal (f : Framework) : List Call → List Entry
  | [] => []
  | call :: calls => ⟨call, (answer call f).1⟩ :: (answer call f).2.journal calls

/-- What a call that succeeds changes under its key. -/
inductive Change where
  | submitted (intent : Intent)
  | inserted (intent : Intent)
  | withdrawn

/-- What is held after a change. -/
def Change.intent? : Change → Option Intent
  | submitted i | inserted i => some i
  | withdrawn => none

def Change.isInsertion : Change → Bool
  | inserted _ => true
  | submitted _ | withdrawn => false

def Entry.change? (k : IntentKey) : Entry → Option Change
  | ⟨.submit i, .ok _⟩ => if i.key = k then some (.submitted i) else none
  | ⟨.withdraw l, .ok _⟩ => if l = k then some .withdrawn else none
  | ⟨.insert i, _⟩ => if i.key = k then some (.inserted i) else none
  | _ => none

/-- The submissions, withdrawals and insertions under a key that succeeded, in their order. -/
def changes (f : Framework) (k : IntentKey) (calls : List Call) : List Change :=
  (f.journal calls).filterMap (·.change? k)

/-- Insertions left out, the last change is a withdrawal. -/
def Departed (cs : List Change) : Prop :=
  (cs.filter fun c => !c.isInsertion).getLast? = some .withdrawn

/-- A key was withdrawn and is held again by an insertion. -/
def Reinserted (cs : List Change) : Prop :=
  Departed cs ∧ ∃ i, cs.getLast? = some (.inserted i)

/-- What books that were empty say under a key after calls. -/
structure Straight (k : IntentKey) (calls : List Call) : Prop where
  held : ∀ i, (after .empty calls).get? k = some i ↔
    (changes .empty k calls).getLast? = some (.submitted i) ∨
      (changes .empty k calls).getLast? = some (.inserted i)
  submissions : (after .empty calls).submissionCount k = calls.countP (·.submits k)
  refuses : ∀ i, i.key = k →
    ((∃ e, ((after .empty calls).submit i).1 = .error e) ↔ .reject k ∈ calls)
  /-- A refused submission is counted and changes nothing else. -/
  refused : ∀ i e, i.key = k → ((after .empty calls).submit i).1 = .error e →
    ((after .empty calls).submit i).2 = { after .empty calls with
      submissions := (after .empty calls).submissions.insert k
        ((after .empty calls).submissionCount k + 1) }
  withdraws : ((after .empty calls).withdraw k).1 = .ok () ↔ (after .empty calls).get? k ≠ none
  withdrawn : k ∈ (after .empty calls).withdrawn ↔ Departed (changes .empty k calls)

variable {f : Framework} {k : IntentKey} {i : Intent} {cs : List Change}

/-! ## One call -/

/-- What a call comes to under a key, by the change it makes there. -/
inductive Booked (k : IntentKey) (f g : Framework) : Option Change → Prop where
  | idle : g.get? k = f.get? k → (k ∈ g.withdrawn ↔ k ∈ f.withdrawn) → Booked k f g none
  | submitted (i : Intent) : g.get? k = some i → k ∉ g.withdrawn →
      Booked k f g (some (.submitted i))
  | inserted (i : Intent) : g.get? k = some i → (k ∈ g.withdrawn ↔ k ∈ f.withdrawn) →
      Booked k f g (some (.inserted i))
  | withdrawn : g.get? k = none → k ∈ g.withdrawn → Booked k f g (some .withdrawn)

theorem mem_withdrawn_take : k ∈ (f.take i).withdrawn ↔ k ∈ f.withdrawn ∧ k ≠ i.key := by
  change k ∈ f.withdrawn.filter (fun l => l ≠ i.key) ↔ _
  rw [List.mem_filter, decide_eq_true_iff]

theorem booked_submit (f : Framework) (i : Intent) (k : IntentKey) :
    Booked k f (f.submit i).2 (Entry.change? k ⟨.submit i, (f.submit i).1⟩) := by
  cases hanswer : (f.submit i).1 with
  | error e =>
    rw [submit_error hanswer]
    exact .idle rfl Iff.rfl
  | ok a =>
    rw [submit_ok hanswer, Entry.change?]
    split
    next hkey =>
      apply Booked.submitted i
      · rw [get?_take, if_pos hkey]
      · rw [mem_withdrawn_take]
        intro hmem
        exact hmem.2 hkey.symm
    next hkey =>
      apply Booked.idle
      · rw [get?_take, if_neg hkey, get?_count]
      · rw [mem_withdrawn_take]
        exact and_iff_left (Ne.symm hkey)

theorem booked_withdraw (f : Framework) (l k : IntentKey) :
    Booked k f (f.withdraw l).2 (Entry.change? k ⟨.withdraw l, (f.withdraw l).1⟩) := by
  cases hheld : f.get? l with
  | none =>
    rw [withdraw_none hheld]
    exact .idle rfl Iff.rfl
  | some i =>
    have hwithdrawn : (f.withdraw l).2.withdrawn = f.withdrawn.insert l := by
      rw [withdraw, hheld]
    rw [withdraw_some hheld, Entry.change?]
    split
    next hkey =>
      apply Booked.withdrawn
      · rw [get?_withdraw, if_pos hkey]
      · rw [hwithdrawn, List.mem_insert_iff]
        exact .inl hkey.symm
    next hkey =>
      apply Booked.idle
      · rw [get?_withdraw, if_neg hkey]
      · rw [hwithdrawn, List.mem_insert_iff]
        exact or_iff_right (Ne.symm hkey)

theorem booked_answer (call : Call) (f : Framework) (k : IntentKey) :
    Booked k f (answer call f).2 (Entry.change? k ⟨call, (answer call f).1⟩) := by
  cases call with
  | submit i => exact booked_submit f i k
  | withdraw l => exact booked_withdraw f l k
  | insert i =>
    rw [answer, Entry.change?]
    split
    next hkey =>
      apply Booked.inserted i
      · rw [get?_insert, if_pos hkey]
      · exact Iff.rfl
    next hkey =>
      apply Booked.idle
      · rw [get?_insert, if_neg hkey]
      · exact Iff.rfl
  | reject l | negotiate l => exact .idle rfl Iff.rfl

theorem submit_error_iff : (∃ e, (f.submit i).1 = .error e) ↔ i.key ∈ f.rejected := by
  constructor
  · rintro ⟨e, he⟩
    by_contra hkey
    rw [submit_taken hkey] at he
    cases he
  · intro hkey
    rw [submit_rejected hkey]
    exact ⟨_, rfl⟩

theorem withdraw_ok_iff : (f.withdraw k).1 = .ok () ↔ f.get? k ≠ none := by
  cases hheld : f.get? k with
  | none => simp [withdraw_none hheld]
  | some i => simp [withdraw_some hheld]

theorem submissionCount_answer (call : Call) (f : Framework) (k : IntentKey) :
    (answer call f).2.submissionCount k =
      f.submissionCount k + if call.submits k then 1 else 0 := by
  cases call with
  | submit i =>
    rw [answer, submissionCount_submit, Call.submits]
    simp only [decide_eq_true_eq]
  | withdraw l => exact submissionCount_withdraw f l k
  | insert i | reject l | negotiate l => rfl

theorem mem_rejected_answer (call : Call) (f : Framework) (k : IntentKey) :
    k ∈ (answer call f).2.rejected ↔ call = .reject k ∨ k ∈ f.rejected := by
  cases call with
  | submit i =>
    rw [answer, rejected_submit]
    simp
  | withdraw l =>
    have hrejected : (f.withdraw l).2.rejected = f.rejected := by
      unfold withdraw
      split <;> rfl
    rw [answer, hrejected]
    simp
  | insert i | negotiate l => simp [answer, insert, negotiate]
  | reject l =>
    change k ∈ f.rejected.insert l ↔ _
    rw [List.mem_insert_iff, Call.reject.injEq, eq_comm]

/-! ## Calls one after another -/

theorem after_append (f : Framework) (calls : List Call) (call : Call) :
    f.after (calls ++ [call]) = (answer call (f.after calls)).2 := List.foldl_append

theorem journal_append (f : Framework) (calls : List Call) (call : Call) :
    f.journal (calls ++ [call]) =
      f.journal calls ++ [⟨call, (answer call (f.after calls)).1⟩] := by
  induction calls generalizing f with
  | nil => rfl
  | cons first calls ih => exact congrArg (_ :: ·) (ih _)

theorem changes_append (f : Framework) (k : IntentKey) (calls : List Call) (call : Call) :
    f.changes k (calls ++ [call]) = f.changes k calls ++
      (Entry.change? k ⟨call, (answer call (f.after calls)).1⟩).toList := by
  rw [changes, journal_append, List.filterMap_append, List.filterMap_cons]
  cases Entry.change? k ⟨call, (answer call (f.after calls)).1⟩ <;> rfl

/-- The last change says what is held. -/
theorem get?_after (k : IntentKey) (calls : List Call) :
    (after .empty calls).get? k = (changes .empty k calls).getLast?.bind (·.intent?) := by
  induction calls using List.reverseRecOn with
  | nil => rfl
  | append_singleton calls call ih =>
    have hbooked := booked_answer call (after .empty calls) k
    rw [after_append, changes_append]
    generalize Entry.change? k ⟨call, (answer call (after .empty calls)).1⟩ = change? at hbooked ⊢
    cases hbooked with
    | idle hget => rw [hget, ih, Option.toList_none, List.append_nil]
    | submitted i hget | inserted i hget | withdrawn hget =>
      rw [hget, Option.toList_some, List.getLast?_concat]
      rfl

/-- The last change that is no insertion says whether a key counts as withdrawn. -/
theorem mem_withdrawn_after (k : IntentKey) (calls : List Call) :
    k ∈ (after .empty calls).withdrawn ↔ Departed (changes .empty k calls) := by
  induction calls using List.reverseRecOn with
  | nil => exact iff_of_false List.not_mem_nil nofun
  | append_singleton calls call ih =>
    have hbooked := booked_answer call (after .empty calls) k
    rw [after_append, changes_append]
    generalize Entry.change? k ⟨call, (answer call (after .empty calls)).1⟩ = change? at hbooked ⊢
    rw [Departed, List.filter_append]
    cases hbooked with
    | idle _ hmem | inserted i _ hmem =>
      rw [hmem, ih, Departed]
      simp [Change.isInsertion]
    | submitted i _ hmem =>
      refine iff_of_false hmem ?_
      simp [Change.isInsertion]
    | withdrawn _ hmem =>
      refine iff_of_true hmem ?_
      simp [Change.isInsertion]

theorem submissionCount_after (k : IntentKey) (calls : List Call) :
    (after .empty calls).submissionCount k = calls.countP (·.submits k) := by
  induction calls using List.reverseRecOn with
  | nil => rfl
  | append_singleton calls call ih =>
    rw [after_append, submissionCount_answer, ih, List.countP_append, List.countP_singleton]

theorem mem_rejected_after (k : IntentKey) (calls : List Call) :
    k ∈ (after .empty calls).rejected ↔ .reject k ∈ calls := by
  induction calls using List.reverseRecOn with
  | nil => exact iff_of_false List.not_mem_nil List.not_mem_nil
  | append_singleton calls call ih =>
    rw [after_append, mem_rejected_answer, ih, List.mem_append, List.mem_singleton, or_comm,
      eq_comm]

/-! ## What the changes say -/

theorem bind_intent?_eq_some {change? : Option Change} : change?.bind (·.intent?) = some i ↔
    change? = some (.submitted i) ∨ change? = some (.inserted i) := by
  cases change? with
  | none => simp
  | some c => cases c <;> simp [Change.intent?]

/-- A key counts as withdrawn if it was withdrawn last, or if it was inserted since. -/
theorem departed_iff : Departed cs ↔ cs.getLast? = some .withdrawn ∨ Reinserted cs := by
  rcases List.eq_nil_or_concat cs with rfl | ⟨cs, c, rfl⟩
  · simp [Departed, Reinserted]
  · cases c <;> simp [Departed, Reinserted, Change.isInsertion]

theorem straight_after (k : IntentKey) (calls : List Call) : Straight k calls where
  held i := by rw [get?_after, bind_intent?_eq_some]
  submissions := submissionCount_after k calls
  refuses i hkey := by rw [submit_error_iff, hkey, mem_rejected_after]
  refused i e hkey he := by
    subst hkey
    exact submit_error he
  withdraws := withdraw_ok_iff
  withdrawn := mem_withdrawn_after k calls

/-- The books are straight under every key. A key that counts as withdrawn is not held and was
withdrawn last, unless it was inserted again after a withdrawal: then it is held as well. -/
theorem books_straight_iff (k : IntentKey) (calls : List Call) :
    Straight k calls ∧
      ((k ∈ (after .empty calls).withdrawn ↔ (after .empty calls).get? k = none ∧
          (changes .empty k calls).getLast? = some .withdrawn) ↔
        ¬ Reinserted (changes .empty k calls)) ∧
      (k ∈ (after .empty calls).withdrawn ∧ (after .empty calls).get? k ≠ none ↔
        Reinserted (changes .empty k calls)) := by
  have hlast (hwithdrawn : (changes .empty k calls).getLast? = some .withdrawn) :
      (after .empty calls).get? k = none := by
    rw [get?_after, hwithdrawn]
    rfl
  have hreinserted (hre : Reinserted (changes .empty k calls)) :
      (after .empty calls).get? k ≠ none ∧
        (changes .empty k calls).getLast? ≠ some .withdrawn := by
    obtain ⟨-, i, hi⟩ := hre
    rw [get?_after, hi]
    exact ⟨nofun, nofun⟩
  rw [mem_withdrawn_after, departed_iff]
  refine ⟨straight_after k calls, ⟨?_, ?_⟩, ?_, ?_⟩
  · intro hiff hre
    exact (hreinserted hre).2 (hiff.mp (.inr hre)).2
  · intro hno
    constructor
    · intro hdeparted
      have hwithdrawn := hdeparted.resolve_right hno
      exact ⟨hlast hwithdrawn, hwithdrawn⟩
    · intro hwithdrawn
      exact .inl hwithdrawn.2
  · rintro ⟨hwithdrawn | hre, hheld⟩
    · exact absurd (hlast hwithdrawn) hheld
    · exact hre
  · intro hre
    exact ⟨.inr hre, (hreinserted hre).1⟩

/-- A path that is inserted again after its withdrawal. -/
def renewedPath : Intent :=
  ⟨⟨⟨1, "app"⟩, "path-1"⟩, ⟨none, none⟩, [], 100, .connectivity ⟨"1/None"⟩ ⟨"2/None"⟩⟩

def renewal : List Call :=
  [.insert renewedPath, .withdraw renewedPath.key, .insert renewedPath]

theorem renewed_path_counts_as_withdrawn :
    ¬ (renewedPath.key ∈ (after .empty renewal).withdrawn ↔
      (after .empty renewal).get? renewedPath.key = none ∧
        (changes .empty renewedPath.key renewal).getLast? = some .withdrawn) := by
  rw [(books_straight_iff renewedPath.key renewal).2.1, not_not]
  have hchanges : changes .empty renewedPath.key renewal =
      [.inserted renewedPath, .withdrawn, .inserted renewedPath] := rfl
  rw [hchanges]
  exact ⟨rfl, renewedPath, rfl⟩

end IntentPlane.Framework
