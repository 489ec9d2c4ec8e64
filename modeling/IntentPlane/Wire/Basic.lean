import IntentPlane.Json.Number
import IntentPlane.Json.Record

/-!
# Wire forms

A type has a wire form when its values are written as JSON values and read back from them. Reading
is partial and accepts more than writing produces.
-/

namespace IntentPlane

class Wire (α : Type) where
  toJson : α → Json
  ofJson? : Json.Dialect → Json → Option α

export Wire (toJson)

/-- The value that a JSON value is the wire form of. -/
def Json.as? (α : Type) [Wire α] : Json → Option α := Wire.ofJson? .direct

namespace Json

/-- Reads a member that must be given, by its wire form. -/
def field (name : String) [Wire α] : Fields.Reader α := Fields.required name Wire.ofJson?

/-- Reads a member that has a default, by its wire form. -/
def fieldD (name : String) (default : α) [Wire α] : Fields.Reader α :=
  Fields.defaulted name default Wire.ofJson?

/-- Reads a member that may be null, by its wire form. -/
def field? (name : String) [Wire α] : Fields.Reader (Option α) := Fields.optional name Wire.ofJson?

end Json

namespace Wire

instance : Wire String := ⟨.str, fun _ => Json.string?⟩

instance : Wire Bool := ⟨.bool, fun _ => Json.bool?⟩

instance : Wire UInt16 :=
  ⟨fun n => .ofNat n.toNat, fun _ j => (j.natBelow? UInt16.size).map .ofNat⟩

instance : Wire UInt32 :=
  ⟨fun n => .ofNat n.toNat, fun _ j => (j.natBelow? UInt32.size).map .ofNat⟩

instance : Wire UInt64 :=
  ⟨fun n => .ofNat n.toNat, fun _ j => (j.natBelow? UInt64.size).map .ofNat⟩

/-- Any number is a double; an integer is read as the nearest one. -/
def float? : Json → Option Float
  | .int n => some (Double.ofInt n)
  | .float x => some x
  | _ => none

instance : Wire Float := ⟨.float, fun _ => float?⟩

instance [Wire α] : Wire (List α) :=
  ⟨fun as => .arr (as.map toJson), fun d => Json.list? (ofJson? d)⟩

instance [Wire α] : Wire (Option α) := ⟨.ofOption toJson, Json.Fields.nullable ofJson?⟩

end Wire

end IntentPlane
