import IntentPlane.Address.Reader
import IntentPlane.Address.Writer
import IntentPlane.Text.Blank
import IntentPlane.Wire.Basic

/-!
# IP prefixes

An address with the number of its leading bits that count, written `address/length`.
-/

namespace IntentPlane

structure IpPrefix where
  address : IpAddress
  length : Nat
  length_le : length ≤ address.width
  deriving DecidableEq

/-- Why there is no such prefix. -/
inductive PrefixError where
  | malformed (text : String)
  | tooLong (address : IpAddress) (length : Nat)

namespace IpPrefix

def format (address : IpAddress) (length : Nat) : List Char :=
  address.write ++ '/' :: Text.decimal length

end IpPrefix

/-- A prefix that is too long is named by its written form, a malformed one by the text given. -/
def PrefixError.message : PrefixError → String
  | .malformed text => "invalid IP prefix: " ++ text
  | .tooLong address length => "invalid IP prefix: " ++ .ofList (IpPrefix.format address length)

namespace IpPrefix

/-- The prefix of an address, if the length fits its family. -/
def ofAddress (address : IpAddress) (length : Nat) : Except PrefixError IpPrefix :=
  if h : length ≤ address.width then .ok ⟨address, length, h⟩ else .error (.tooLong address length)

/-- Reads an address, alone or with a length after the first slash. An address alone stands for all
its bits. Blanks around either part do not count. -/
def parse (text : String) : Except PrefixError IpPrefix :=
  let cs := text.toList
  let address? := IpAddress.ofText? (Text.trim (cs.takeWhile (· ≠ '/')))
  let length? (address : IpAddress) := match cs.dropWhile (· ≠ '/') with
    | _slash :: digits => Text.unsigned? 256 (Text.trim digits)
    | [] => some address.width
  match address?.bind fun address => (length? address).map (address, ·) with
  | some (address, length) => ofAddress address length
  | none => .error (.malformed text)

def write (p : IpPrefix) : List Char := format p.address p.length

def text (p : IpPrefix) : String := .ofList p.write

/-- Prefixes are ordered by address, and then by length. -/
def sortKey (p : IpPrefix) : List Nat := p.address.sortKey ++ [p.length]

def le (p q : IpPrefix) : Bool := !q.sortKey.lex p.sortKey

instance : Wire IpPrefix where
  toJson p := .str p.text
  ofJson? _ j := j.string?.bind fun text => (parse text).toOption

end IpPrefix

end IntentPlane
