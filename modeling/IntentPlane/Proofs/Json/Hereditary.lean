import IntentPlane.Proofs.Json.Members
import Mathlib.Data.Option.Basic

/-!
# Decoding values with a property

A property may pass from a value to its items and members (`Hereditary`). What is decoded then
depends on parts that have it too, and a record is a matter of its members: `Decodes` says what is
decoded from values with the property, and `Gives` what is read from members with it.
-/

namespace IntentPlane.Json

/-- A property that passes to the items and members of a value. -/
class Hereditary (H : Json → Prop) : Prop where
  item (items : List Json) : H (.arr items) → ∀ item ∈ items, H item
  member (members : List (String × Json)) : H (.obj members) → ∀ member ∈ members, H member.2

namespace Fields

variable {α β : Type} {H : Json → Prop} {name : String} {P : α → Prop} {Q : β → Prop}
  {decode : Dialect → Json → Option α} {reader : Reader α}

/-- All members have the property. -/
def All (H : Json → Prop) : Fields → Prop
  | .named members => ∀ member ∈ members, H member.2
  | .listed items => ∀ item ∈ items, H item

/-- What is decoded from a value with the property `H` has the property `P`. -/
def Decodes (H : Json → Prop) (decode : Dialect → Json → Option α) (P : α → Prop) : Prop :=
  ∀ d j a, H j → decode d j = some a → P a

/-- What is read from members with the property `H` has the property `P`, and members with `H` are
left. -/
def Gives (H : Json → Prop) (reader : Reader α) (P : α → Prop) : Prop :=
  ∀ d (fields rest : Fields) a, fields.All H → reader d fields = some (a, rest) →
    P a ∧ rest.All H

/-! ## Readers -/

theorem take_all {fields rest : Fields} {value? : Option Json} (h : fields.All H)
    (htake : take name fields = some (value?, rest)) : (∀ j ∈ value?, H j) ∧ rest.All H := by
  cases fields with
  | named members =>
    unfold take at htake
    simp only at htake
    split at htake
    · cases htake
      exact ⟨by simp, h⟩
    · rename_i value hlookup
      cases htake
      refine ⟨fun j hj => ?_, h⟩
      obtain rfl : value = j := by simpa using hj
      have hmem : value ∈ lookup name members := by simp [hlookup]
      obtain ⟨member, hmember, rfl⟩ := List.mem_map.mp hmem
      exact h member (List.mem_filter.mp hmember).1
    · cases htake
  | listed items =>
    cases items with
    | nil =>
      cases htake
      exact ⟨by simp, h⟩
    | cons item items =>
      cases htake
      obtain ⟨hitem, hitems⟩ := List.forall_mem_cons.mp h
      exact ⟨fun j hj => by cases hj; exact hitem, hitems⟩

theorem gives_pure {a : α} (h : P a) : Gives H (pure a) P := by
  intro d fields rest b hfields hread
  cases hread
  exact ⟨h, hfields⟩

theorem gives_bind {f : α → Reader β} (h : Gives H reader P) (hf : ∀ a, P a → Gives H (f a) Q) :
    Gives H (reader >>= f) Q := by
  intro d fields rest b hfields hread
  rw [bind_run, Option.bind_eq_some_iff] at hread
  obtain ⟨⟨a, rest'⟩, ha, hb⟩ := hread
  obtain ⟨hP, hrest⟩ := h d fields rest' a hfields ha
  exact hf a hP d rest' rest b hrest hb

theorem gives_map {f : α → β} (h : Gives H reader P) (hf : ∀ a, P a → Q (f a)) :
    Gives H (f <$> reader) Q := by
  intro d fields rest b hfields hread
  rw [map_run, Option.map_eq_some_iff] at hread
  obtain ⟨⟨a, rest'⟩, ha, hb⟩ := hread
  obtain ⟨hP, hrest⟩ := h d fields rest' a hfields ha
  cases hb
  exact ⟨hf a hP, hrest⟩

theorem gives_take : Gives H (liftM (take name)) fun value? => ∀ j ∈ value?, H j :=
  fun _ _ _ _ hfields htake => take_all hfields htake

theorem gives_required (h : Decodes H decode P) : Gives H (required name decode) P := by
  intro d fields rest a hfields hread
  rw [required_run, Option.bind_eq_some_iff] at hread
  obtain ⟨⟨value?, rest'⟩, htake, hvalue⟩ := hread
  obtain ⟨hpart, hrest⟩ := take_all hfields htake
  obtain ⟨b, hb, hab⟩ := Option.map_eq_some_iff.mp hvalue
  obtain ⟨j, hj, hdecode⟩ := Option.bind_eq_some_iff.mp hb
  cases hab
  exact ⟨h d j a (hpart j hj) hdecode, hrest⟩

theorem gives_defaulted {default : α} (h : Decodes H decode P) (hdefault : P default) :
    Gives H (defaulted name default decode) P := by
  intro d fields rest a hfields hread
  rw [defaulted_run, Option.bind_eq_some_iff] at hread
  obtain ⟨⟨value?, rest'⟩, htake, hvalue⟩ := hread
  obtain ⟨hpart, hrest⟩ := take_all hfields htake
  obtain ⟨b, hb, hab⟩ := Option.map_eq_some_iff.mp hvalue
  cases hab
  cases value? with
  | none =>
    cases hb
    exact ⟨hdefault, hrest⟩
  | some j => exact ⟨h d j a (hpart j rfl) hb, hrest⟩

theorem decodes_nullable (h : Decodes H decode P) :
    Decodes H (nullable decode) fun a? => ∀ a ∈ a?, P a := by
  intro d j a? hj hread
  unfold nullable at hread
  split at hread
  · cases hread
    simp
  · obtain ⟨a, ha, rfl⟩ := Option.map_eq_some_iff.mp hread
    simpa using h d j a hj ha

theorem gives_optional (h : Decodes H decode P) :
    Gives H (optional name decode) fun a? => ∀ a ∈ a?, P a := by
  intro d fields rest a? hfields hread
  cases fields with
  | named => exact gives_defaulted (decodes_nullable h) (by simp) d _ rest a? hfields hread
  | listed => exact gives_required (decodes_nullable h) d _ rest a? hfields hread

/-! ## Records and lists -/

theorem Gives.of_read {d : Dialect} {fields : Fields} {a : α} (h : Gives H reader P)
    (hfields : fields.All H) (hread : read reader d fields = some a) : P a := by
  simp only [read, Option.bind_eq_bind, Option.bind_eq_some_iff, Option.pure_def,
    Option.some.injEq] at hread
  obtain ⟨⟨_, rest⟩, ha, -, -, rfl⟩ := hread
  exact (h d fields rest _ hfields ha).1

section

variable [Hereditary H]

theorem fields_all {j : Json} {fields : Fields} (hj : H j) (h : j.fields? = some fields) :
    fields.All H := by
  cases j with
  | obj members =>
    cases h
    exact Hereditary.member members hj
  | arr items =>
    cases h
    exact Hereditary.item items hj
  | _ => cases h

theorem decodes_record (h : Gives H reader P) : Decodes H (record? reader) P := by
  intro d j a hj hread
  obtain ⟨fields, hfields, hread⟩ := Option.bind_eq_some_iff.mp hread
  exact h.of_read (fields_all hj hfields) hread

theorem decodes_tagged {tag : String} {reader : String → Reader α}
    (h : ∀ kind, Gives H (reader kind) P) : Decodes H (fun _ => tagged? tag reader) P := by
  intro d j a hj hread
  simp only [tagged?, Option.bind_eq_bind, Option.bind_eq_some_iff] at hread
  obtain ⟨-, -, fields, hfields, ⟨value?, rest⟩, htake, hread⟩ := hread
  obtain ⟨-, hrest⟩ := take_all (fields_all hj hfields) htake
  split at hread
  · exact (h _).of_read hrest hread
  · cases hread

theorem decodes_list {decode : Dialect → Json → Option α} (h : Decodes H decode P) :
    Decodes H (fun d => list? (decode d)) fun as => ∀ a ∈ as, P a := by
  intro d j as hj hread
  cases j with
  | arr items =>
    change items.mapM (decode d) = some as at hread
    replace hj := Hereditary.item items hj
    induction items generalizing as with
    | nil =>
      cases hread
      simp
    | cons item items ih =>
      simp only [List.mapM_cons, Option.bind_eq_bind, Option.bind_eq_some_iff, Option.pure_def,
        Option.some.injEq] at hread
      obtain ⟨a, ha, as, has, rfl⟩ := hread
      obtain ⟨hitem, hitems⟩ := List.forall_mem_cons.mp hj
      exact List.forall_mem_cons.mpr ⟨h d item a hitem ha, ih as has hitems⟩
  | _ => cases hread

end

/-! ## Members by their wire forms -/

variable [Wire α]

theorem gives_field (h : Decodes H (@Wire.ofJson? α _) P) : Gives H (field name) P :=
  gives_required h

theorem gives_fieldD {default : α} (h : Decodes H (@Wire.ofJson? α _) P) (hdefault : P default) :
    Gives H (fieldD name default) P := gives_defaulted h hdefault

theorem gives_field? (h : Decodes H (@Wire.ofJson? α _) P) :
    Gives H (field? name) fun a? => ∀ a ∈ a?, P a := gives_optional h

/-- Of members that do not matter there is nothing to say. -/
theorem gives_any : Gives H (field name : Reader α) fun _ => True :=
  gives_required fun _ _ _ _ _ => trivial

theorem gives_any? : Gives H (field? name : Reader (Option α)) fun _ => True := by
  have hany : Decodes H (@Wire.ofJson? α _) fun _ => True := fun _ _ _ _ _ => trivial
  exact fun d fields rest a hfields hread =>
    ⟨trivial, (gives_field? hany d fields rest a hfields hread).2⟩

theorem gives_anyD {default : α} : Gives H (fieldD name default) fun _ => True :=
  gives_defaulted (fun _ _ _ _ _ => trivial) trivial

end Fields

end IntentPlane.Json
