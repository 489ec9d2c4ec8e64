/-!
# JSON values

A value keeps what its text says about order: the members of an object stand in written order, and a
name may occur twice. Whether a repeated name is an error is for the decoder of a type to say. So it
is with a part of a text that has a form and no value: only a decoder that asks for it fails.
-/

namespace IntentPlane

/-- A JSON value. Whole numbers written without fraction or exponent are kept apart from the rest.
What can only be passed over is `unreadable`: a number beyond the doubles, a string with half a
surrogate pair, an object with such a string for a name, and a value that is nested too deeply. -/
inductive Json where
  | null
  | bool (b : Bool)
  | int (n : Int)
  | float (x : Float)
  | str (s : String)
  | arr (items : List Json)
  | obj (members : List (String × Json))
  | unreadable
  deriving Inhabited

namespace Json

/-- The least integer, `-2 ^ 63`. Whole numbers below it are floats. -/
def wholeMin : Int := -0x8000000000000000

/-- The greatest integer, `2 ^ 64 - 1`. Whole numbers above it are floats. -/
def wholeMax : Int := 0xFFFFFFFFFFFFFFFF

mutual

/-- Whether nothing in a value is unreadable. -/
def isReadable : Json → Bool
  | .unreadable => false
  | .arr items => itemsReadable items
  | .obj members => membersReadable members
  | _ => true

def itemsReadable : List Json → Bool
  | [] => true
  | item :: rest => item.isReadable && itemsReadable rest

def membersReadable : List (String × Json) → Bool
  | [] => true
  | (_, value) :: rest => value.isReadable && membersReadable rest

end

def ofNat (n : Nat) : Json := .int n

def ofOption (f : α → Json) : Option α → Json
  | none => .null
  | some a => f a

/-- The values that an object gives for a name, in written order. -/
def lookup (name : String) (members : List (String × Json)) : List Json :=
  (members.filter (·.1 = name)).map (·.2)

/-- The last value that an object gives for a name. -/
def member? (name : String) : Json → Option Json
  | .obj members => (lookup name members).getLast?
  | _ => none

end Json

end IntentPlane
