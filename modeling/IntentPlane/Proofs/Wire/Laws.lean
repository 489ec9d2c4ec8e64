import IntentPlane.Proofs.Json.Members
import IntentPlane.Proofs.Json.Text

/-!
# Lawful wire forms

A wire form is lawful if what it writes is read back, in whichever dialect. For a record that is a
matter of its members: each is written once under its name and read by it.
-/

namespace IntentPlane

open Json (Dialect Fields lookup)

/-- A wire form that reads back what it writes. Nothing unreadable is written. -/
class LawfulWire (α : Type) [Wire α] : Prop where
  ofJson?_toJson (d : Dialect) (a : α) : Wire.ofJson? d (toJson a) = some a
  isReadable_toJson (a : α) : (toJson a).isReadable = true

attribute [simp] LawfulWire.ofJson?_toJson LawfulWire.isReadable_toJson

/-! ## Records -/

/-- What is tagged is read as what the tag says. -/
theorem Json.tagged?_obj {α : Type} {tag kind : String} {reader : String → Fields.Reader α}
    {members : List (String × Json)} {a : α} (hreadable : membersReadable members = true)
    (htag : lookup tag members = [])
    (h : reader kind .deferred (.named ((tag, .str kind) :: members)) =
      some (a, .named ((tag, .str kind) :: members))) :
    tagged? tag reader (.obj ((tag, .str kind) :: members)) = some a := by
  have hread : (Json.obj ((tag, .str kind) :: members)).isReadable = true := hreadable
  have htake : Fields.take tag (.named ((tag, .str kind) :: members)) =
      some (some (.str kind), .named ((tag, .str kind) :: members)) := by
    have hlookup : lookup tag ((tag, .str kind) :: members) = [.str kind] := by
      simpa [lookup] using htag
    rw [Fields.take, hlookup]
  simp [tagged?, hread, fields?, htake, Fields.read_named h]

/-- A record is read back if its members are. -/
theorem LawfulWire.ofRecord {α : Type} [Wire α] {members : α → List (String × Json)}
    {reader : Fields.Reader α} (hwrite : ∀ a, toJson a = .obj (members a))
    (hread : ∀ d j, Wire.ofJson? d j = Json.record? reader d j)
    (hmembers : ∀ d a, reader d (.named (members a)) = some (a, .named (members a)) := by
      -- Steps by evaluation would have the decoders of integers count up to their bounds.
      intro _ _; simp -implicitDefEqProofs [Json.Fields.take, Json.lookup])
    (hreadable : ∀ a : α, Json.membersReadable (members a) = true := by
      intro _; simp [Json.membersReadable]) : LawfulWire α := by
  refine ⟨fun d a => ?_, fun a => ?_⟩
  · rw [hread, hwrite, Json.record?_obj]
    exact Json.Fields.read_named (hmembers d a)
  · rw [hwrite]
    exact hreadable a

/-! ## Plain values -/

instance : LawfulWire String := ⟨fun _ _ => rfl, fun _ => rfl⟩

instance : LawfulWire Bool := ⟨fun _ _ => rfl, fun _ => rfl⟩

instance : LawfulWire Float := ⟨fun _ _ => rfl, fun _ => rfl⟩

theorem Json.natBelow?_ofNat {n limit : Nat} (h : n < limit) :
    natBelow? limit (.ofNat n) = some n := by
  have hlt : (n : Int) < limit := by omega
  simp [natBelow?, ofNat, hlt]

instance : LawfulWire UInt16 where
  ofJson?_toJson _ n := by
    change (Json.natBelow? _ (.ofNat n.toNat)).map _ = _
    simp [Json.natBelow?_ofNat n.toNat_lt_size]
  isReadable_toJson _ := rfl

instance : LawfulWire UInt32 where
  ofJson?_toJson _ n := by
    change (Json.natBelow? _ (.ofNat n.toNat)).map _ = _
    simp [Json.natBelow?_ofNat n.toNat_lt_size]
  isReadable_toJson _ := rfl

instance : LawfulWire UInt64 where
  ofJson?_toJson _ n := by
    change (Json.natBelow? _ (.ofNat n.toNat)).map _ = _
    simp [Json.natBelow?_ofNat n.toNat_lt_size]
  isReadable_toJson _ := rfl

/-! ## Lists and options -/

namespace Json

variable {n : Nat} {items : List Json}

theorem itemsReadable_iff :
    itemsReadable items = true ↔ ∀ item ∈ items, item.isReadable = true := by
  induction items with
  | nil => simp [itemsReadable]
  | cons item items ih => simp [itemsReadable, ih]

theorem itemsFit_iff : ItemsFit n items ↔ ∀ item ∈ items, item.Fits n := by
  induction items with
  | nil => simp [ItemsFit]
  | cons item items ih => simp [ItemsFit, ih]

end Json

section

variable {α : Type} [Wire α] [LawfulWire α]

instance : LawfulWire (List α) where
  ofJson?_toJson d as := by
    change (as.map toJson).mapM (Wire.ofJson? d) = some as
    induction as with
    | nil => rfl
    | cons a as ih => simp only [List.map_cons, List.mapM_cons, ih]; simp
  isReadable_toJson as := by
    change Json.itemsReadable (as.map toJson) = true
    simp [Json.itemsReadable_iff]

/-- A value that is not written as null is read back where it is optional. -/
theorem LawfulWire.ofOption (hnull : ∀ a : α, toJson a ≠ .null) : LawfulWire (Option α) where
  ofJson?_toJson d a := by
    change Json.Fields.nullable _ d (Json.ofOption toJson a) = some a
    cases a with
    | none => rfl
    | some a =>
      have hread := LawfulWire.ofJson?_toJson d a
      rw [Json.ofOption, Json.Fields.nullable.eq_2 _ _ _ (hnull a), hread]
      rfl
  isReadable_toJson a := by
    change (Json.ofOption toJson a).isReadable = true
    cases a <;> simp [Json.ofOption, Json.isReadable]

end

/-! ## Room for a value -/

section

variable {α : Type} [Wire α] {n : Nat}

@[simp] theorem fits_string (s : String) : (toJson s).Fits n := trivial

@[simp] theorem fits_bool (b : Bool) : (toJson b).Fits n := trivial

theorem Json.fits_ofNat {m : Nat} (h : m < UInt64.size) : (Json.ofNat m).Fits n := by
  simp only [UInt64.size] at h
  refine ⟨?_, ?_⟩
  · simp only [wholeMin]
    omega
  · simp only [wholeMax]
    omega

@[simp] theorem fits_uint16 (m : UInt16) : (toJson m).Fits n :=
  Json.fits_ofNat (Nat.lt_trans m.toNat_lt (by decide))

@[simp] theorem fits_uint32 (m : UInt32) : (toJson m).Fits n :=
  Json.fits_ofNat (Nat.lt_trans m.toNat_lt (by decide))

@[simp] theorem fits_uint64 (m : UInt64) : (toJson m).Fits n := Json.fits_ofNat m.toNat_lt

@[simp] theorem fits_list {as : List α} :
    (toJson as).Fits (n + 1) ↔ ∀ a ∈ as, (toJson a).Fits n := by
  change 0 < n + 1 ∧ Json.ItemsFit n (as.map toJson) ↔ _
  simp [Json.itemsFit_iff]

@[simp] theorem fits_option {a : Option α} : (toJson a).Fits n ↔ ∀ b ∈ a, (toJson b).Fits n := by
  change (Json.ofOption toJson a).Fits n ↔ _
  cases a <;> simp [Json.ofOption, Json.Fits]

theorem fits_record {a : α} {members : List (String × Json)} (hwrite : toJson a = .obj members)
    (hmembers : Json.MembersFit n members) : (toJson a).Fits (n + 1) := by
  rw [hwrite]
  exact ⟨Nat.succ_pos n, hmembers⟩

end

end IntentPlane
