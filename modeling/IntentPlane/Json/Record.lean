import IntentPlane.Json.Basic

/-!
# Records in JSON

A record is written as an object. It is read from an object, whose members may stand in any order
beside unknown ones, or from an array of its members in declaration order. No member that the record
knows may be given twice.
-/

namespace IntentPlane.Json

/-- The small ways in which readings of one type differ. -/
structure Dialect where
  /-- Whether an array may hold more items than the record it stands for has members. -/
  longArrays : Bool
  /-- Whether a value may stand under the name in an object that stands for an enumerated value. -/
  underName : Json → Bool
  /-- Whether a kind that heads an array may be given by its number. -/
  numberedKinds : Bool

namespace Dialect

/-- A value is read where it stands. -/
def direct : Dialect where
  longArrays := false
  underName
    | .null => true
    | _ => false
  numberedKinds := false

/-- A value is read once the tag of the record around it is known. -/
def deferred : Dialect where
  longArrays := false
  underName
    | .null | .obj [] => true
    | _ => false
  numberedKinds := true

/-- The name of an enumerated value, alone or as the one member of an object. -/
def name? (d : Dialect) : Json → Option String
  | .str name => some name
  | .obj [(name, value)] => if d.underName value then some name else none
  | _ => none

end Dialect

/-- The members a record is read from. Reading a listed member takes it off the list. -/
inductive Fields where
  | named (members : List (String × Json))
  | listed (items : List Json)

namespace Fields

/-- A decoder of members, run in declaration order. -/
abbrev Reader := ReaderT Dialect (StateT Fields Option)

/-- The value of the next member, if it is given: the only one under its name, or the next item. -/
def take (name : String) : StateT Fields Option (Option Json)
  | .named members =>
    match lookup name members with
    | [] => some (none, .named members)
    | [value] => some (some value, .named members)
    | _ => none
  | .listed [] => some (none, .listed [])
  | .listed (value :: rest) => some (some value, .listed rest)

/-- Reads a member that must be given. -/
def required (name : String) (decode : Dialect → Json → Option α) : Reader α := fun d => do
  decode d (← (← take name))

/-- Reads a member that has a default. Null is no value and not the default. -/
def defaulted (name : String) (default : α) (decode : Dialect → Json → Option α) : Reader α :=
  fun d => do
    match ← take name with
    | none => return default
    | some value => decode d value

/-- A value or null. -/
def nullable (decode : Dialect → Json → Option α) (d : Dialect) : Json → Option (Option α)
  | .null => some none
  | value => (decode d value).map some

/-- Reads a member that may be null, or be left out of an object. -/
def optional (name : String) (decode : Dialect → Json → Option α) : Reader (Option α) :=
  fun d fields =>
    match fields with
    | .named _ => defaulted name none (nullable decode) d fields
    | .listed _ => required name (nullable decode) d fields

/-- Every item of a list must have been taken; an object may hold members nobody asked for. -/
def finished : Fields → Bool
  | .named _ => true
  | .listed items => items.isEmpty

/-- Runs a reader over all members. -/
def read (reader : Reader α) (d : Dialect) (fields : Fields) : Option α := do
  let (value, rest) ← reader d fields
  guard (d.longArrays || rest.finished)
  return value

end Fields

/-- The members of an object or of an array. -/
def fields? : Json → Option Fields
  | .obj members => some (.named members)
  | .arr items => some (.listed items)
  | _ => none

/-- Reads a record. -/
def record? (reader : Fields.Reader α) (d : Dialect) (value : Json) : Option α := do
  Fields.read reader d (← value.fields?)

/-- Reads a record whose kind is named by the member `tag`, or by the first item. Since the tag may
come last, the whole record is kept until it is known, members nobody asks for included; so all of
it must be readable. -/
def tagged? (tag : String) (reader : String → Fields.Reader α) (value : Json) : Option α := do
  guard value.isReadable
  let (kind, rest) ← Fields.take tag (← value.fields?)
  match kind with
  | some (.str kind) => Fields.read (reader kind) .deferred rest
  | _ => none

def string? : Json → Option String
  | .str s => some s
  | _ => none

def bool? : Json → Option Bool
  | .bool b => some b
  | _ => none

def list? (decode : Json → Option α) : Json → Option (List α)
  | .arr items => items.mapM decode
  | _ => none

/-- Reads an integer from zero up to below `limit`. -/
def natBelow? (limit : Nat) : Json → Option Nat
  | .int n => if 0 ≤ n ∧ n < limit then some n.toNat else none
  | _ => none

end IntentPlane.Json
