import FieldFilter.Text.Pieces
import FieldFilter.Text.Utf8

/-!
# The query of a request

The query of a URI is what follows its first question mark, up to the fragment.  It holds pairs
of names and values in the form encoding: pairs are separated by `&`, a name from its value by
the first `=`, a plus sign is a blank, and a percent sign with two hexadecimal digits is an
octet.

Main definitions:

* `Query.ofUri?` — the query of a URI;
* `Query.decodeComponent` — the text of an encoded name or value;
* `Query.pairs` — the names and values of a query;
* `Query.first?` — the first value of a name.
-/

namespace FieldFilter.Query

/-- The query of a URI, or none if it has no question mark. -/
def ofUri? (uri : List Char) : Option (List Char) :=
  ((Text.cut? '?' (uri.takeWhile (· != '#'))).map Prod.snd)

def hexDigit? (octet : UInt8) : Option Nat :=
  let code := octet.toNat
  if 0x30 ≤ code ∧ code ≤ 0x39 then some (code - 0x30)
  else if 0x41 ≤ code ∧ code ≤ 0x46 then some (code - 0x41 + 10)
  else if 0x61 ≤ code ∧ code ≤ 0x66 then some (code - 0x61 + 10)
  else none

/-- Octets with each percent sign and two hexadecimal digits made one octet.  A percent sign
without two such digits stands for itself. -/
def percentDecode : List UInt8 → List UInt8
  | [] => []
  | first :: rest =>
    match rest with
    | high :: low :: after =>
      if first = 0x25 then
        match hexDigit? high, hexDigit? low with
        | some h, some l => UInt8.ofNat (h * 16 + l) :: percentDecode after
        | _, _ => first :: percentDecode (high :: low :: after)
      else first :: percentDecode (high :: low :: after)
    | rest => first :: percentDecode rest

/-- The text of an encoded name or value. -/
def decodeComponent (text : List Char) : String :=
  String.ofList (Utf8.decode (percentDecode
    (Utf8.encode (text.map fun c => if c = '+' then ' ' else c))))

/-- The name and the value of an encoded pair; without an equals sign the value is empty. -/
def decodePair (piece : List Char) : String × String :=
  match Text.cut? '=' piece with
  | some (name, value) => (decodeComponent name, decodeComponent value)
  | none => (decodeComponent piece, "")

/-- The names and values of a query, in order; empty pieces are none. -/
def pairs (query : List Char) : List (String × String) :=
  ((Text.pieces '&' query).filter fun piece => !piece.isEmpty).map decodePair

/-- The first value of a name in the query of a URI. -/
def first? (uri : String) (name : String) : Option String :=
  match ofUri? uri.toList with
  | none => none
  | some query => (pairs query).lookup name

end FieldFilter.Query
