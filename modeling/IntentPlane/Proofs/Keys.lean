import IntentPlane.Intent
import Std.Data.String.ToNat

/-!
# Keys of services

The key of an intent tells its service and its number: digits hold no hyphen, so the last hyphen of
a key's name is where the two were put together. The order of keys is total.
-/

namespace IntentPlane

/-- A text is cut at its last hyphen in one way only. -/
theorem hyphen_inj {as bs cs ds : List Char} (hc : '-' ∉ cs) (hd : '-' ∉ ds)
    (h : as ++ '-' :: cs = bs ++ '-' :: ds) : as = bs ∧ cs = ds := by
  rcases List.append_eq_append_iff.mp h with ⟨xs, rfl, hx⟩ | ⟨xs, rfl, hx⟩
  · cases xs with
    | nil => simpa using hx
    | cons x xs =>
      obtain ⟨rfl, rfl⟩ := List.cons.inj hx
      simp at hc
  · cases xs with
    | nil => simpa using hx.symm
    | cons x xs =>
      obtain ⟨rfl, rfl⟩ := List.cons.inj hx
      simp at hd

theorem hyphen_not_mem_repr (n : Nat) : '-' ∉ n.repr.toList := by
  rw [Nat.toList_repr]
  intro h
  have hdigit := Nat.isDigit_of_mem_toDigits (by decide) (by decide) h
  revert hdigit
  decide

namespace IntentKey

theorem forService_inj {app : ApplicationId} {s t : ServiceId} {m n : Nat} :
    forService app s m = forService app t n ↔ s = t ∧ m = n := by
  constructor
  · intro h
    have hname : (s.text ++ "-" ++ m.repr).toList = (t.text ++ "-" ++ n.repr).toList :=
      congrArg (fun k => k.name.toList) h
    simp only [String.toList_append, List.append_assoc] at hname
    obtain ⟨htext, hnumber⟩ := hyphen_inj (hyphen_not_mem_repr m) (hyphen_not_mem_repr n) hname
    refine ⟨?_, Nat.repr_injective (String.toList_inj.mp hnumber)⟩
    cases s
    cases t
    simpa using String.toList_inj.mp htext
  · rintro ⟨rfl, rfl⟩
    rfl

theorem le_iff {k l : IntentKey} :
    k.le l ↔ k.app.id < l.app.id ∨ k.app.id = l.app.id ∧
      (k.app.name < l.app.name ∨ k.app.name = l.app.name ∧ k.name ≤ l.name) := by
  simp [le]

theorem le_trans {k l m : IntentKey} (h : k.le l) (h' : l.le m) : k.le m := by
  rw [le_iff] at *
  grind [UInt16.lt_trans, String.lt_trans, String.le_trans]

theorem le_total (k l : IntentKey) : k.le l || l.le k := by
  rw [Bool.or_eq_true, le_iff, le_iff]
  grind [String.le_total, String.lt_trans]

/-- The strict order of keys. -/
def Before (k l : IntentKey) : Prop := k.le l ∧ k ≠ l

end IntentKey

end IntentPlane
