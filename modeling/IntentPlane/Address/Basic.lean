/-!
# IP addresses
-/

namespace IntentPlane

/-- Four octets, the most significant first. -/
structure IPv4 where
  octets : List UInt8
  length_octets : octets.length = 4
  deriving DecidableEq

/-- Eight groups of sixteen bits, the most significant first. -/
structure IPv6 where
  groups : List UInt16
  length_groups : groups.length = 8
  deriving DecidableEq

inductive IpAddress where
  | v4 (address : IPv4)
  | v6 (address : IPv6)
  deriving DecidableEq

namespace IpAddress

/-- The number of bits of an address, which bounds the length of a prefix. -/
def width : IpAddress → Nat
  | .v4 _ => 32
  | .v6 _ => 128

/-- Addresses are ordered by family, and then by value. -/
def sortKey : IpAddress → List Nat
  | .v4 a => 4 :: a.octets.map UInt8.toNat
  | .v6 a => 6 :: a.groups.map UInt16.toNat

end IpAddress

end IntentPlane
