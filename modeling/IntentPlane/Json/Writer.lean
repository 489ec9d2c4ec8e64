import IntentPlane.Json.Number

/-!
# Writing JSON text

The compact form: no blanks, members in the order of the value. Null stands where there is nothing
to write.
-/

namespace IntentPlane.Json.Writer

/-- The two low hexadecimal digits of `n`, with the zeros before them. -/
def hex4 (n : Nat) : List Char :=
  [n / 4096, n / 256, n / 16, n].map fun d => (d % 16).digitChar

/-- How a character is written between quotes. -/
def escape (c : Char) : List Char :=
  if c = '"' then ['\\', '"']
  else if c = '\\' then ['\\', '\\']
  else if c = '\n' then ['\\', 'n']
  else if c = '\r' then ['\\', 'r']
  else if c = '\t' then ['\\', 't']
  else if c = '\x08' then ['\\', 'b']
  else if c = '\x0c' then ['\\', 'f']
  else if c.toNat < 0x20 then '\\' :: 'u' :: hex4 c.toNat
  else [c]

def string (s : String) : List Char := '"' :: s.toList.flatMap escape ++ ['"']

def integer (n : Int) : List Char :=
  if n < 0 then '-' :: Nat.toDigits 10 n.natAbs else Nat.toDigits 10 n.natAbs

/-- A double that is not finite has no number and is written as null. -/
def float (x : Float) : List Char :=
  if Double.isFinite x then Double.write x else ['n', 'u', 'l', 'l']

mutual

def value : Json → List Char
  | .null | .unreadable => ['n', 'u', 'l', 'l']
  | .bool true => ['t', 'r', 'u', 'e']
  | .bool false => ['f', 'a', 'l', 's', 'e']
  | .int n => integer n
  | .float x => float x
  | .str s => string s
  | .arr [] => ['[', ']']
  | .arr (item :: rest) => '[' :: value item ++ items rest
  | .obj [] => ['{', '}']
  | .obj ((name, item) :: rest) => '{' :: string name ++ ':' :: value item ++ members rest

/-- The items of an array after its first, and the bracket that ends it. -/
def items : List Json → List Char
  | [] => [']']
  | item :: rest => ',' :: value item ++ items rest

/-- The members of an object after its first, and the brace that ends it. -/
def members : List (String × Json) → List Char
  | [] => ['}']
  | (name, item) :: rest => ',' :: string name ++ ':' :: value item ++ members rest

end

end Writer

/-- The compact text of a value. -/
def render (value : Json) : String := .ofList (Writer.value value)

end IntentPlane.Json
