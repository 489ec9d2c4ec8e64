import IntentPlane.Json.Number
import IntentPlane.Text.Number

/-!
# Numbers, dates and times in TOML
-/

namespace IntentPlane.Toml

/-! ## Numbers -/

/-- Splits off digits that go on from a digit; an underscore may stand between two of them. -/
def moreDigits (isDigit : Char → Bool) : List Char → List Char × List Char
  | '_' :: d :: rest =>
    if isDigit d then
      let (ds, rest) := moreDigits isDigit rest
      (d :: ds, rest)
    else ([], '_' :: d :: rest)
  | c :: rest =>
    if isDigit c then
      let (ds, rest) := moreDigits isDigit rest
      (c :: ds, rest)
    else ([], c :: rest)
  | [] => ([], [])

/-- Reads one digit or more. -/
def digits1? (isDigit : Char → Bool) : List Char → Option (List Char × List Char)
  | c :: rest =>
    if isDigit c then
      let (ds, rest) := moreDigits isDigit rest
      some (c :: ds, rest)
    else none
  | [] => none

def sign : List Char → Bool × List Char
  | '-' :: rest => (true, rest)
  | '+' :: rest => (false, rest)
  | cs => (false, cs)

/-- Reads decimal digits that do not begin with zero, or a lone zero. -/
def whole? : List Char → Option (List Char × List Char)
  | '0' :: rest => some (['0'], rest)
  | cs => digits1? Char.isDigit cs

/-- The integers are those of 64 bits with a sign. -/
def ofInteger? (n : Int) : Option Json :=
  if Json.wholeMin ≤ n ∧ n < -Json.wholeMin then some (.int n) else none

/-- Reads the digits of an integer in a base, after its mark. -/
def inBase? (base : Nat) (cs : List Char) : Option (Json × List Char) := do
  let (digits, rest) ← digits1? (fun c => (Text.digit? base c).isSome) cs
  let n ← Text.ofDigits? base digits
  return (← ofInteger? n, rest)

def integer? : List Char → Option (Json × List Char)
  | '0' :: 'x' :: rest => inBase? 16 rest
  | '0' :: 'o' :: rest => inBase? 8 rest
  | '0' :: 'b' :: rest => inBase? 2 rest
  | cs => do
    let (negative, rest) := sign cs
    let (digits, rest) ← whole? rest
    let n := Nat.ofDigitChars 10 digits 0
    return (← ofInteger? (if negative then -n else n), rest)

/-- Reads the digits after a point. -/
def fraction? : List Char → Option (List Char × List Char)
  | '.' :: rest => digits1? Char.isDigit rest
  | _ => none

def exponent? : List Char → Option (Int × List Char)
  | c :: rest =>
    if c = 'e' ∨ c = 'E' then do
      let (negative, rest) := sign rest
      let (digits, rest) ← digits1? Char.isDigit rest
      let n : Int := Nat.ofDigitChars 10 digits 0
      return (if negative then -n else n, rest)
    else none
  | [] => none

def infinity (negative : Bool) : Float :=
  .ofBits (if negative then 0xFFF0000000000000 else 0x7FF0000000000000)

def nan : Float := .ofBits 0x7FF8000000000000

/-- The value of a float. One that is too large is refused, but one too far below zero is minus
infinity. -/
def floatValue? (negative : Bool) (mantissa : Nat) (exponent : Int) : Option Json :=
  match Double.ofDecimal? negative mantissa exponent with
  | some x => some (.float x)
  | none => if negative then some (.float (infinity true)) else none

/-- Reads a float: a fraction, an exponent, or both must follow its whole part. -/
def float? (cs : List Char) : Option (Json × List Char) :=
  match sign cs with
  | (negative, 'i' :: 'n' :: 'f' :: rest) => some (.float (infinity negative), rest)
  | (_, 'n' :: 'a' :: 'n' :: rest) => some (.float nan, rest)
  | (negative, rest) => do
    let (whole, rest) ← whole? rest
    let (places, exponent, rest) ← match fraction? rest with
      | some (places, rest) =>
        match exponent? rest with
        | some (exponent, rest) => some (places, exponent, rest)
        | none => some (places, 0, rest)
      | none => (exponent? rest).map fun (exponent, rest) => ([], exponent, rest)
    let mantissa := Nat.ofDigitChars 10 (whole ++ places) 0
    return (← floatValue? negative mantissa (exponent - places.length), rest)

/-! ## Dates and times -/

/-- Reads a number of exactly two digits within bounds. -/
def twoDigits? (low high : Nat) : List Char → Option (List Char × List Char)
  | a :: b :: rest =>
    let n := Nat.ofDigitChars 10 [a, b] 0
    if a.isDigit ∧ b.isDigit ∧ low ≤ n ∧ n ≤ high then some ([a, b], rest) else none
  | _ => none

def char? (c : Char) : List Char → Option (List Char)
  | d :: rest => if c = d then some rest else none
  | [] => none

def daysIn (year month : Nat) : Nat :=
  if month = 2 then
    if year % 4 = 0 ∧ (year % 100 ≠ 0 ∨ year % 400 = 0) then 29 else 28
  else if month = 4 ∨ month = 6 ∨ month = 9 ∨ month = 11 then 30
  else 31

def date? (cs : List Char) : Option (List Char × List Char) := do
  let (century, rest) ← twoDigits? 0 99 cs
  let (year, rest) ← twoDigits? 0 99 rest
  let (month, rest) ← twoDigits? 1 12 (← char? '-' rest)
  let (day, rest) ← twoDigits? 1 31 (← char? '-' rest)
  let number (ds : List Char) := Nat.ofDigitChars 10 ds 0
  guard (number day ≤ daysIn (number (century ++ year)) (number month))
  return (century ++ year ++ '-' :: month ++ '-' :: day, rest)

/-- The nine digits of a fraction that count, without zeros at the end. -/
def secondFraction (digits : List Char) : List Char :=
  match ((digits.take 9).reverse.dropWhile (· = '0')).reverse with
  | [] => []
  | ds => '.' :: ds

/-- Reads a time of day, `HH:MM:SS` with a fraction. -/
def time? (cs : List Char) : Option (List Char × List Char) := do
  let (hour, rest) ← twoDigits? 0 23 cs
  let (minute, rest) ← twoDigits? 0 59 (← char? ':' rest)
  let (second, rest) ← twoDigits? 0 60 (← char? ':' rest)
  let time := hour ++ ':' :: minute ++ ':' :: second
  match rest with
  | '.' :: digits =>
    let run := digits.takeWhile Char.isDigit
    if run.isEmpty then return (time, rest)
    else return (time ++ secondFraction run, digits.dropWhile Char.isDigit)
  | _ => return (time, rest)

def offset? : List Char → Option (List Char × List Char)
  | c :: rest =>
    if c = 'Z' ∨ c = 'z' then some (['Z'], rest)
    else if c = '+' ∨ c = '-' then do
      let (hour, rest) ← twoDigits? 0 23 rest
      let (minute, rest) ← twoDigits? 0 59 (← char? ':' rest)
      let zero := hour = ['0', '0'] ∧ minute = ['0', '0']
      return ((if zero then '+' else c) :: hour ++ ':' :: minute, rest)
    else none
  | [] => none

/-- Reads a date, a time, or both with or without an offset, and gives its canonical text. -/
def dateTime? (cs : List Char) : Option (List Char × List Char) :=
  match date? cs with
  | none => time? cs
  | some (date, rest) =>
    let timed? := match rest with
      | c :: rest => if c = 'T' ∨ c = 't' ∨ c = ' ' then time? rest else none
      | [] => none
    match timed? with
    | none => some (date, rest)
    | some (time, rest) =>
      match offset? rest with
      | some (offset, rest) => some (date ++ 'T' :: time ++ offset, rest)
      | none => some (date ++ 'T' :: time, rest)

end IntentPlane.Toml
