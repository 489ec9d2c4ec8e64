import IntentPlane.Address.Basic
import IntentPlane.Text.Number

/-!
# Writing IP addresses

IPv6 is written in lower case without leading zeros. The first longest run of two zero groups or
more is written `::`. Addresses that map IPv4 end in a dotted quad, and no others do.
-/

namespace IntentPlane

namespace IPv4

def write (octets : List UInt8) : List Char := Text.joinDigits 10 '.' (octets.map UInt8.toNat)

end IPv4

namespace IPv6

def zeros (groups : List UInt16) : Nat := (groups.takeWhile (· = 0)).length

/-- Where the first longest run of zero groups starts, and its length. -/
def longestZeros : List UInt16 → Nat × Nat
  | [] => (0, 0)
  | g :: rest =>
    let (start, length) := longestZeros rest
    if length ≤ zeros (g :: rest) then (0, zeros (g :: rest)) else (start + 1, length)

/-- The octets of groups, the more significant first. -/
def toOctets (groups : List UInt16) : List UInt8 :=
  groups.flatMap fun g => [(g / 256).toUInt8, g.toUInt8]

def writeGroups (groups : List UInt16) : List Char :=
  Text.joinDigits 16 ':' (groups.map UInt16.toNat)

def write (groups : List UInt16) : List Char :=
  if groups.take 6 = [0, 0, 0, 0, 0, 0xffff] then
    [':', ':', 'f', 'f', 'f', 'f', ':'] ++ IPv4.write (toOctets (groups.drop 6))
  else
    let (start, length) := longestZeros groups
    if 1 < length then
      writeGroups (groups.take start) ++ ':' :: ':' :: writeGroups (groups.drop (start + length))
    else writeGroups groups

end IPv6

def IpAddress.write : IpAddress → List Char
  | .v4 a => IPv4.write a.octets
  | .v6 a => IPv6.write a.groups

end IntentPlane
