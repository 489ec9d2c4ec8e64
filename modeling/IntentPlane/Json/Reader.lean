import IntentPlane.Json.Number
import IntentPlane.Text.Number

/-!
# Reading JSON text

The strict grammar: one value with nothing but blanks around it. A reader takes the text that is
left and returns what it read with the rest. It fails where the grammar does; a part that has a form
and no value is read as unreadable.
-/

namespace IntentPlane.Json.Reader

/-- The four characters that may stand between tokens. -/
def isSpace (c : Char) : Bool := c = ' ' || c = '\n' || c = '\r' || c = '\t'

def skipSpace (cs : List Char) : List Char := cs.dropWhile isSpace

/-! ## Strings -/

/-- The character that a one-letter escape stands for. -/
def escaped? : Char → Option Char
  | '"' => some '"'
  | '\\' => some '\\'
  | '/' => some '/'
  | 'b' => some '\x08'
  | 'f' => some '\x0c'
  | 'n' => some '\n'
  | 'r' => some '\r'
  | 't' => some '\t'
  | _ => none

/-- A piece of a string: a character, or a unit of 16 bits given by its number. -/
inductive Piece where
  | char (c : Char)
  | unit (n : Nat)

/-- Reads the pieces of a string after its opening quote. -/
def string? : List Char → Option (List Piece × List Char)
  | '\\' :: 'u' :: a :: b :: c :: d :: rest => do
    let n ← Text.ofDigits? 16 [a, b, c, d]
    let (pieces, rest) ← string? rest
    return (.unit n :: pieces, rest)
  | '\\' :: c :: rest => do
    let c ← escaped? c
    let (pieces, rest) ← string? rest
    return (.char c :: pieces, rest)
  | c :: rest => do
    if c = '"' then return ([], rest)
    guard (0x20 ≤ c.toNat ∧ c ≠ '\\')
    let (pieces, rest) ← string? rest
    return (.char c :: pieces, rest)
  | [] => none

def isHighSurrogate (n : Nat) : Bool := 0xD800 ≤ n && n < 0xDC00

def isLowSurrogate (n : Nat) : Bool := 0xDC00 ≤ n && n < 0xE000

/-- The character that a surrogate pair encodes. -/
def ofSurrogates (high low : Nat) : Char :=
  .ofNat (0x10000 + (high - 0xD800) * 0x400 + (low - 0xDC00))

/-- The characters of a string. A surrogate has one only together with its partner. -/
def characters? : List Piece → Option (List Char)
  | [] => some []
  | .char c :: rest => (characters? rest).map (c :: ·)
  | .unit n :: rest =>
    if isHighSurrogate n then
      match rest with
      | .unit low :: rest =>
        if isLowSurrogate low then (characters? rest).map (ofSurrogates n low :: ·) else none
      | _ => none
    else if isLowSurrogate n then none
    else (characters? rest).map (.ofNat n :: ·)

def text? (pieces : List Piece) : Option String := (characters? pieces).map .ofList

def stringValue (pieces : List Piece) : Json := ((text? pieces).map .str).getD .unreadable

/-! ## Numbers -/

/-- Splits off a run of decimal digits. -/
def digits (cs : List Char) : List Char × List Char :=
  (cs.takeWhile Char.isDigit, cs.dropWhile Char.isDigit)

/-- Reads a run of one digit or more. -/
def digits1? (cs : List Char) : Option (List Char × List Char) :=
  let (run, rest) := digits cs
  if run.isEmpty then none else some (run, rest)

/-- Reads the digits of a whole part: a lone zero, or a run that does not begin with zero. -/
def whole? : List Char → Option (List Char × List Char)
  | '0' :: rest => if (rest.head?.any Char.isDigit) then none else some (['0'], rest)
  | cs => digits1? cs

/-- Reads the digits after a point, if there is one. -/
def fraction? : List Char → Option (Option (List Char) × List Char)
  | '.' :: rest => (digits1? rest).map fun (run, rest) => (some run, rest)
  | cs => some (none, cs)

/-- Reads an exponent, if there is one. -/
def exponent? : List Char → Option (Option Int × List Char)
  | c :: rest =>
    if c = 'e' ∨ c = 'E' then do
      let (negative, rest) := match rest with
        | '-' :: rest => (true, rest)
        | '+' :: rest => (false, rest)
        | _ => (false, rest)
      let (run, rest) ← digits1? rest
      let n : Int := Nat.ofDigitChars 10 run 0
      return (some (if negative then -n else n), rest)
    else some (none, c :: rest)
  | [] => some (none, [])

/-- The value of a number from its parts. A number without point and exponent is an integer if it is
in range, save for minus zero, which only a float can keep. -/
def numberValue (negative : Bool) (whole : List Char) (fraction : Option (List Char))
    (exponent : Option Int) : Json :=
  let places := fraction.getD []
  let mantissa := Nat.ofDigitChars 10 (whole ++ places) 0
  let n : Int := if negative then -(mantissa : Int) else mantissa
  if fraction.isNone ∧ exponent.isNone ∧ wholeMin ≤ n ∧ n ≤ wholeMax ∧
      ¬(negative ∧ mantissa = 0) then
    .int n
  else
    let x := Double.ofDecimal? negative mantissa (exponent.getD 0 - places.length)
    (x.map .float).getD .unreadable

def number? (cs : List Char) : Option (Json × List Char) := do
  let (negative, cs) := match cs with
    | '-' :: rest => (true, rest)
    | _ => (false, cs)
  let (whole, cs) ← whole? cs
  let (fraction, cs) ← fraction? cs
  let (exponent, cs) ← exponent? cs
  return (numberValue negative whole fraction exponent, cs)

/-! ## Values -/

/-- Takes a fixed word off the text. -/
def word? (word : List Char) (value : Json) (cs : List Char) : Option (Json × List Char) :=
  if word.isPrefixOf cs then some (value, cs.drop word.length) else none

/-- Arrays and objects are nested less deeply than this. -/
def depthLimit : Nat := 128

/-- An array or object at a depth; the outermost is at depth one. -/
def nested (depth : Nat) (container : Json) : Json :=
  if depth < depthLimit then container else .unreadable

/-- An object of members whose names may have no text. -/
def object (members : List (Option String × Json)) : Json :=
  let named := members.mapM fun (name?, item) => do return (← name?, item)
  (named.map .obj).getD .unreadable

mutual

/-- Reads a value whose first character comes next; an array or object there is at `depth`. The fuel
bounds the number of readers entered; every reader takes a character, so the length of the text is
enough. -/
def value? (depth : Nat) : (fuel : Nat) → List Char → Option (Json × List Char)
  | 0, _ => none
  | fuel + 1, cs =>
    match cs with
    | '"' :: rest => (string? rest).map fun (pieces, rest) => (stringValue pieces, rest)
    | '[' :: rest =>
      match skipSpace rest with
      | ']' :: rest => some (nested depth (.arr []), rest)
      | rest => (items? (depth + 1) fuel rest).map fun (items, rest) =>
        (nested depth (.arr items), rest)
    | '{' :: rest =>
      match skipSpace rest with
      | '}' :: rest => some (nested depth (.obj []), rest)
      | rest => (members? (depth + 1) fuel rest).map fun (members, rest) =>
        (nested depth (object members), rest)
    | 'n' :: _ => word? ['n', 'u', 'l', 'l'] .null cs
    | 't' :: _ => word? ['t', 'r', 'u', 'e'] (.bool true) cs
    | 'f' :: _ => word? ['f', 'a', 'l', 's', 'e'] (.bool false) cs
    | _ => number? cs

/-- Reads the items of an array up to its closing bracket. -/
def items? (depth : Nat) : (fuel : Nat) → List Char → Option (List Json × List Char)
  | 0, _ => none
  | fuel + 1, cs => do
    let (item, rest) ← value? depth fuel cs
    match skipSpace rest with
    | ']' :: rest => return ([item], rest)
    | ',' :: rest =>
      let (items, rest) ← items? depth fuel (skipSpace rest)
      return (item :: items, rest)
    | _ => none

/-- Reads the members of an object up to its closing brace. -/
def members? (depth : Nat) :
    (fuel : Nat) → List Char → Option (List (Option String × Json) × List Char)
  | 0, _ => none
  | fuel + 1, cs =>
    match cs with
    | '"' :: rest => do
      let (pieces, rest) ← string? rest
      match skipSpace rest with
      | ':' :: rest =>
        let (item, rest) ← value? depth fuel (skipSpace rest)
        match skipSpace rest with
        | '}' :: rest => return ([(text? pieces, item)], rest)
        | ',' :: rest =>
          let (members, rest) ← members? depth fuel (skipSpace rest)
          return ((text? pieces, item) :: members, rest)
        | _ => none
      | _ => none
    | _ => none

end

end Reader

/-- Reads a text that holds one value. -/
def parse? (text : String) : Option Json := do
  let cs := Reader.skipSpace text.toList
  let (value, rest) ← Reader.value? 1 (cs.length + 1) cs
  guard (Reader.skipSpace rest).isEmpty
  return value

end IntentPlane.Json
