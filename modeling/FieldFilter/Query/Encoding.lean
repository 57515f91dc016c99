import FieldFilter.Query
import Mathlib.Data.List.Forall2

/-!
# Writing a query

The form encoding leaves some freedom.  An octet of a name or value may always be written as a
percent sign with two hexadecimal digits, in upper or lower case; a blank may be written as a plus
sign, and an octet that is an unreserved character as that character.

Main definitions:

* `Query.Encodes` — the ways to write octets;
* `Query.EncodesPairs` — the ways to write pairs of names and values;
* `Query.Carries` — the URIs whose query is written so;
* `Query.encode` — the shortest way, with digits in upper case.
-/

namespace FieldFilter.Query

/-- The characters that may stand for themselves in a name or value. -/
def isUnreserved (c : Char) : Bool :=
  c.isAlphanum || c == '-' || c == '.' || c == '_' || c == '~' || c == '*'

def upperDigits : List Char :=
  ['0', '1', '2', '3', '4', '5', '6', '7', '8', '9', 'A', 'B', 'C', 'D', 'E', 'F']

def lowerDigits : List Char :=
  ['0', '1', '2', '3', '4', '5', '6', '7', '8', '9', 'a', 'b', 'c', 'd', 'e', 'f']

/-- Whether a character is the hexadecimal digit of a number. -/
def IsHexDigit (value : Nat) (c : Char) : Prop :=
  upperDigits[value]? = some c ∨ lowerDigits[value]? = some c

/-- The ways to write octets in a name or value. -/
inductive Encodes : List UInt8 → List Char → Prop where
  | nil : Encodes [] []
  | blank {octets : List UInt8} {written : List Char} (h : Encodes octets written) :
    Encodes (0x20 :: octets) ('+' :: written)
  | unreserved {c : Char} {octets : List UInt8} {written : List Char} (hc : isUnreserved c = true)
    (h : Encodes octets written) : Encodes (UInt8.ofNat c.toNat :: octets) (c :: written)
  | percent {octet : UInt8} {high low : Char} {octets : List UInt8} {written : List Char}
    (hhigh : IsHexDigit (octet.toNat / 16) high) (hlow : IsHexDigit (octet.toNat % 16) low)
    (h : Encodes octets written) : Encodes (octet :: octets) ('%' :: high :: low :: written)

/-- The ways to write a text in a name or value. -/
def EncodesText (text : String) (written : List Char) : Prop :=
  Encodes (Utf8.encode text.toList) written

/-- The ways to write a name and a value. -/
def EncodesPair (pair : String × String) (piece : List Char) : Prop :=
  ∃ name value, EncodesText pair.1 name ∧ EncodesText pair.2 value
    ∧ piece = name ++ '=' :: value

/-- The ways to write names and values. -/
def EncodesPairs (pairs : List (String × String)) (query : List Char) : Prop :=
  ∃ pieces, List.Forall₂ EncodesPair pairs pieces ∧ query = ['&'].intercalate pieces

/-- A URI has names and values in its query.  The query comes after the first question mark, and at
most a fragment follows it. -/
def Carries (uri : String) (pairs : List (String × String)) : Prop :=
  ∃ before query after, uri.toList = before ++ '?' :: query ++ after
    ∧ '?' ∉ before ∧ '#' ∉ before ∧ EncodesPairs pairs query ∧ ∀ c ∈ after.head?, c = '#'

/-! ## The shortest way -/

def upperDigit (value : Nat) : Char :=
  upperDigits[value]?.getD '0'

def encodeOctet (octet : UInt8) : List Char :=
  if octet.toNat < 0x80 && isUnreserved (Char.ofNat octet.toNat) then [Char.ofNat octet.toNat]
  else if octet = 0x20 then ['+']
  else ['%', upperDigit (octet.toNat / 16), upperDigit (octet.toNat % 16)]

def encodeText (text : String) : List Char :=
  (Utf8.encode text.toList).flatMap encodeOctet

/-- Pairs of names and values as a query. -/
def encode (pairs : List (String × String)) : List Char :=
  ['&'].intercalate (pairs.map fun pair => encodeText pair.1 ++ '=' :: encodeText pair.2)

end FieldFilter.Query
