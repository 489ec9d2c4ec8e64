import IntentPlane.Address.Basic
import IntentPlane.Text.Number

/-!
# Reading IP addresses

Dotted quads without leading zeros; IPv6 in groups of up to four hexadecimal digits, where `::`
stands once for one zero group or more, and the last two groups may be a dotted quad.
-/

namespace IntentPlane

namespace IPv4

/-- Reads an octet: up to three digits, and no zero before another digit. -/
def octet? (cs : List Char) : Option (UInt8 × List Char) := do
  let run := cs.takeWhile Char.isDigit
  guard (run.length ≤ 3 ∧ (run.head? = some '0' → run.length = 1))
  let n ← Text.unsigned? 256 run
  return (.ofNat n, cs.drop run.length)

/-- Reads `n` octets with points between them. -/
def octets? : Nat → List Char → Option (List UInt8 × List Char)
  | 0, cs => some ([], cs)
  | 1, cs => (octet? cs).map fun (o, rest) => ([o], rest)
  | n + 1, cs => do
    match ← octet? cs with
    | (o, '.' :: rest) =>
      let (os, rest) ← octets? n rest
      return (o :: os, rest)
    | _ => none

def read? (cs : List Char) : Option (IPv4 × List Char) := do
  let (os, rest) ← octets? 4 cs
  if h : os.length = 4 then some (⟨os, h⟩, rest) else none

end IPv4

namespace IPv6

/-- The two groups that hold the octets of a dotted quad. -/
def ofOctets : List UInt8 → List UInt16
  | hi :: lo :: rest => (hi.toUInt16 * 256 + lo.toUInt16) :: ofOctets rest
  | _ => []

/-- Reads a group of one to four hexadecimal digits. -/
def group? (cs : List Char) : Option (UInt16 × List Char) := do
  let run := cs.takeWhile fun c => (Text.digit? 16 c).isSome
  guard (1 ≤ run.length ∧ run.length ≤ 4)
  let n ← Text.ofDigits? 16 run
  return (.ofNat n, cs.drop run.length)

/-- What was read of a series of groups: the groups, whether a dotted quad ended them, and the rest
of the text. -/
structure Series where
  groups : List UInt16
  dotted : Bool
  rest : List Char

/-- Reads up to `limit` groups with colons between them, and before the first unless `first`. A
dotted quad counts as two groups and ends the series. -/
def series (limit : Nat) (first : Bool) (cs : List Char) : Series :=
  let stop : Series := ⟨[], false, cs⟩
  match limit with
  | 0 => stop
  | limit + 1 =>
    let body? := match first, cs with
      | true, cs => some cs
      | false, ':' :: cs => some cs
      | false, _ => none
    match body? with
    | none => stop
    | some body =>
      match if 1 ≤ limit then IPv4.octets? 4 body else none with
      | some (os, rest) => ⟨ofOctets os, true, rest⟩
      | none =>
        match group? body with
        | none => stop
        | some (g, rest) =>
          let tail := series limit false rest
          { tail with groups := g :: tail.groups }

/-- The address whose groups are `head` and `tail` with zeros between them. -/
def ofEnds? (head tail : List UInt16) : Option IPv6 :=
  let groups := head ++ List.replicate (8 - (head.length + tail.length)) 0 ++ tail
  if h : groups.length = 8 then some ⟨groups, h⟩ else none

def read? (cs : List Char) : Option (IPv6 × List Char) :=
  let head := series 8 true cs
  if head.groups.length = 8 then
    (ofEnds? head.groups []).map (·, head.rest)
  else if head.dotted then none
  else
    match head.rest with
    | ':' :: ':' :: rest =>
      let tail := series (7 - head.groups.length) true rest
      (ofEnds? head.groups tail.groups).map (·, tail.rest)
    | _ => none

end IPv6

def IpAddress.ofText? (cs : List Char) : Option IpAddress := do
  let (address, rest) ← match IPv4.read? cs with
    | some (a, rest) => some (.v4 a, rest)
    | none => (IPv6.read? cs).map fun (a, rest) => (.v6 a, rest)
  if rest.isEmpty then some address else none

end IntentPlane
