import IntentPlane.Json.Reader
import IntentPlane.Proofs.Json.Hereditary
import IntentPlane.Proofs.Json.Number

/-!
# Numbers of a text are finite

A text has no way to write a double that is not finite: one out of range is unreadable
(`parse?_finite`).
-/

namespace IntentPlane.Json

mutual

/-- Whether all doubles in a value are finite. -/
def IsFinite : Json → Prop
  | .float x => Double.isFinite x = true
  | .arr items => ItemsFinite items
  | .obj members => MembersFinite members
  | _ => True

def ItemsFinite : List Json → Prop
  | [] => True
  | item :: rest => item.IsFinite ∧ ItemsFinite rest

def MembersFinite : List (String × Json) → Prop
  | [] => True
  | (_, value) :: rest => value.IsFinite ∧ MembersFinite rest

end

theorem itemsFinite_iff {items : List Json} :
    ItemsFinite items ↔ ∀ item ∈ items, item.IsFinite := by
  induction items with
  | nil => simp [ItemsFinite]
  | cons item items ih => simp [ItemsFinite, ih]

theorem membersFinite_iff {members : List (String × Json)} :
    MembersFinite members ↔ ∀ member ∈ members, member.2.IsFinite := by
  induction members with
  | nil => simp [MembersFinite]
  | cons member members ih => simp [MembersFinite, ih]

instance : Hereditary IsFinite where
  item _ := itemsFinite_iff.mp
  member _ := membersFinite_iff.mp

/-! ## Texts -/

namespace Reader

theorem numberValue_finite (negative : Bool) (whole : List Char) (fraction : Option (List Char))
    (exponent : Option Int) : (numberValue negative whole fraction exponent).IsFinite := by
  unfold numberValue
  extract_lets places mantissa n x
  split
  · trivial
  · cases hx : x with
    | none => trivial
    | some y => exact Double.isFinite_of_ofDecimal? hx

theorem number?_finite {cs rest : List Char} {j : Json} (h : number? cs = some (j, rest)) :
    j.IsFinite := by
  simp only [number?, Option.bind_eq_bind, Option.bind_eq_some_iff, Option.pure_def,
    Option.some.injEq, Prod.mk.injEq] at h
  obtain ⟨_, -, _, -, _, -, rfl, -⟩ := h
  exact numberValue_finite _ _ _ _

theorem stringValue_finite (pieces : List Piece) : (stringValue pieces).IsFinite := by
  unfold stringValue
  cases text? pieces <;> trivial

theorem nested_finite {depth : Nat} {container : Json} (h : container.IsFinite) :
    (nested depth container).IsFinite := by
  unfold nested
  split
  · exact h
  · trivial

theorem object_finite {members : List (Option String × Json)}
    (h : ∀ member ∈ members, member.2.IsFinite) : (object members).IsFinite := by
  have hnamed : ∀ named, members.mapM (fun member : Option String × Json => do
      return (← member.1, member.2)) = some named → MembersFinite named := by
    induction members with
    | nil =>
      intro named hnamed
      cases hnamed
      trivial
    | cons member members ih =>
      intro named hnamed
      simp only [List.mapM_cons, Option.bind_eq_bind, Option.bind_eq_some_iff, Option.pure_def,
        Option.some.injEq] at hnamed
      obtain ⟨_, ⟨name, -, rfl⟩, rest, hrest, rfl⟩ := hnamed
      exact ⟨h member (.head _), ih (fun m hm => h m (.tail _ hm)) rest hrest⟩
  unfold object
  extract_lets named
  cases hn : named with
  | none => trivial
  | some members => exact hnamed members hn

mutual

theorem value?_finite {depth : Nat} {rest : List Char} {j : Json} : ∀ (fuel : Nat) {cs : List Char},
    value? depth fuel cs = some (j, rest) → j.IsFinite
  | 0, _, h => by simp [value?] at h
  | fuel + 1, cs, h => by
    have hword {word : List Char} {value : Json} (h : word? word value cs = some (j, rest))
        (hvalue : value.IsFinite) : j.IsFinite := by
      unfold word? at h
      split at h
      · cases h
        exact hvalue
      · cases h
    unfold value? at h
    split at h
    · obtain ⟨⟨pieces, _⟩, -, h⟩ := Option.map_eq_some_iff.mp h
      cases h
      exact stringValue_finite pieces
    · split at h
      · cases h
        exact nested_finite trivial
      · obtain ⟨⟨items, _⟩, hitems, h⟩ := Option.map_eq_some_iff.mp h
        cases h
        exact nested_finite (itemsFinite_iff.mpr (items?_finite fuel hitems))
    · split at h
      · cases h
        exact nested_finite trivial
      · obtain ⟨⟨members, _⟩, hmembers, h⟩ := Option.map_eq_some_iff.mp h
        cases h
        exact nested_finite (object_finite (members?_finite fuel hmembers))
    · exact hword h trivial
    · exact hword h trivial
    · exact hword h trivial
    · exact number?_finite h

theorem items?_finite {depth : Nat} {rest : List Char} {items : List Json} :
    ∀ (fuel : Nat) {cs : List Char}, items? depth fuel cs = some (items, rest) →
    ∀ item ∈ items, item.IsFinite
  | 0, _, h => by simp [items?] at h
  | fuel + 1, cs, h => by
    simp only [items?, Option.bind_eq_bind, Option.bind_eq_some_iff] at h
    obtain ⟨⟨item, rest'⟩, hitem, h⟩ := h
    have hfinite := value?_finite fuel hitem
    split at h
    · cases h
      exact List.forall_mem_singleton.mpr hfinite
    · obtain ⟨⟨items, _⟩, hitems, h⟩ := Option.bind_eq_some_iff.mp h
      cases h
      exact List.forall_mem_cons.mpr ⟨hfinite, items?_finite fuel hitems⟩
    · cases h

theorem members?_finite {depth : Nat} {rest : List Char} {members : List (Option String × Json)} :
    ∀ (fuel : Nat) {cs : List Char}, members? depth fuel cs = some (members, rest) →
    ∀ member ∈ members, member.2.IsFinite
  | 0, _, h => by simp [members?] at h
  | fuel + 1, cs, h => by
    unfold members? at h
    split at h
    · simp only [Option.bind_eq_bind, Option.bind_eq_some_iff] at h
      obtain ⟨⟨pieces, rest'⟩, -, h⟩ := h
      split at h
      · obtain ⟨⟨item, rest''⟩, hitem, h⟩ := Option.bind_eq_some_iff.mp h
        have hfinite := value?_finite fuel hitem
        split at h
        · cases h
          exact List.forall_mem_singleton.mpr hfinite
        · obtain ⟨⟨members, _⟩, hmembers, h⟩ := Option.bind_eq_some_iff.mp h
          cases h
          exact List.forall_mem_cons.mpr ⟨hfinite, members?_finite fuel hmembers⟩
        · cases h
      · cases h
    · cases h

end

end Reader

/-- All doubles that a text names are finite. -/
theorem parse?_finite {text : String} {j : Json} (h : parse? text = some j) : j.IsFinite := by
  simp only [parse?, Option.bind_eq_bind, Option.bind_eq_some_iff, Option.pure_def,
    Option.some.injEq] at h
  obtain ⟨⟨_, _⟩, hvalue, _, -, rfl⟩ := h
  exact Reader.value?_finite _ hvalue

end IntentPlane.Json
