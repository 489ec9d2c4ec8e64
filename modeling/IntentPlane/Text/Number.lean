/-!
# Whole numbers in text

Digits of a base, and the decimal texts of bounded unsigned fields.
-/

namespace IntentPlane.Text

/-- The value of a digit below `base`; letters of either case stand for ten and up. -/
def digit? (base : Nat) (c : Char) : Option Nat :=
  let n := c.toNat
  let value? :=
    if '0' ≤ c ∧ c ≤ '9' then some (n - '0'.toNat)
    else if 'a' ≤ c ∧ c ≤ 'z' then some (n - 'a'.toNat + 10)
    else if 'A' ≤ c ∧ c ≤ 'Z' then some (n - 'A'.toNat + 10)
    else none
  value?.filter (· < base)

/-- The number that a run of digits names; the empty run names zero. -/
def ofDigits? (base : Nat) (cs : List Char) : Option Nat :=
  cs.foldlM (fun n c => (digit? base c).map (base * n + ·)) 0

/-- Reads a decimal number below `limit`. A plus sign and leading zeros are allowed. -/
def unsigned? (limit : Nat) (cs : List Char) : Option Nat :=
  let digits := match cs with
    | '+' :: rest => rest
    | _ => cs
  if digits.isEmpty then none
  else (ofDigits? 10 digits).filter (· < limit)

def decimal (n : Nat) : List Char := Nat.toDigits 10 n

/-- Numbers in a base, with a separator between them. -/
def joinDigits (base : Nat) (separator : Char) : List Nat → List Char
  | [] => []
  | [n] => Nat.toDigits base n
  | n :: rest => Nat.toDigits base n ++ separator :: joinDigits base separator rest

end IntentPlane.Text
