/-!
# Tokens of a JSON text

A JSON text is cut into tokens from left to right.  Of a number only that it is one is kept.  A
string may hold an escape for half of a character outside the basic plane; such a string is
well-formed as a token but stands for no text.  What is not the start of any token ends the list,
and that is a token too: it is refused where it is reached and not before.

Main definitions:

* `JsonToken` — the tokens;
* `JsonToken.scan` — the tokens of a text.
-/

namespace FieldFilter

inductive JsonToken where
  | openBrace
  | closeBrace
  | openBracket
  | closeBracket
  | comma
  | colon
  | null
  | bool (value : Bool)
  | number
  /-- A string, with the text it stands for if it does. -/
  | string (text : Option String)
  | junk
  deriving DecidableEq, Repr

namespace JsonToken

def isBlank (c : Char) : Bool :=
  c == ' ' || c == '\n' || c == '\t' || c == '\r'

/-! ## Strings -/

def hexDigit? (c : Char) : Option Nat :=
  if '0' ≤ c ∧ c ≤ '9' then some (c.toNat - '0'.toNat)
  else if 'a' ≤ c ∧ c ≤ 'f' then some (c.toNat - 'a'.toNat + 10)
  else if 'A' ≤ c ∧ c ≤ 'F' then some (c.toNat - 'A'.toNat + 10)
  else none

def hexUnit? (a b c d : Char) : Option Nat :=
  match hexDigit? a, hexDigit? b, hexDigit? c, hexDigit? d with
  | some a, some b, some c, some d => some (((a * 16 + b) * 16 + c) * 16 + d)
  | _, _, _, _ => none

/-- The code of the character that an escape of one letter stands for. -/
def escape? (c : Char) : Option Nat :=
  match c with
  | '\x22' => some 0x22
  | '\\' => some 0x5C
  | '/' => some 0x2F
  | 'b' => some 0x08
  | 'f' => some 0x0C
  | 'n' => some 0x0A
  | 'r' => some 0x0D
  | 't' => some 0x09
  | _ => none

/-- The codes up to the closing quote and what follows it, or none if the string is malformed.
An escape of four digits gives one code even if it is half of a character. -/
def unquote : List Char → Option (List Nat × List Char)
  | [] => none
  | c :: rest =>
    if c = '\x22' then some ([], rest)
    else if c = '\\' then
      match rest with
      | 'u' :: h1 :: h2 :: h3 :: h4 :: after =>
        match hexUnit? h1 h2 h3 h4 with
        | none => none
        | some code => (unquote after).map fun (codes, left) => (code :: codes, left)
      | e :: after =>
        match escape? e with
        | none => none
        | some code => (unquote after).map fun (codes, left) => (code :: codes, left)
      | [] => none
    else if c.toNat < 0x20 then none
    else (unquote rest).map fun (codes, left) => (c.toNat :: codes, left)

/-- Whether a code is the first half of a character outside the basic plane. -/
def isHighHalf (code : Nat) : Bool :=
  0xD800 ≤ code && code < 0xDC00

/-- Whether a code is the second half of such a character. -/
def isLowHalf (code : Nat) : Bool :=
  0xDC00 ≤ code && code < 0xE000

/-- The text that codes stand for: two halves make one character, and a half by itself makes the
whole no text. -/
def textOfCodes : List Nat → Option (List Char)
  | [] => some []
  | code :: rest =>
    if isHighHalf code then
      match rest with
      | second :: after =>
        if isLowHalf second then
          (textOfCodes after).map
            (Char.ofNat (0x10000 + (code - 0xD800) * 0x400 + (second - 0xDC00)) :: ·)
        else none
      | [] => none
    else if isLowHalf code then none
    else (textOfCodes rest).map (Char.ofNat code :: ·)

/-! ## Numbers -/

def digits? : List Char → Option (List Char)
  | [] => none
  | c :: rest => if c.isDigit then some (rest.dropWhile Char.isDigit) else none

/-- What follows the exponent of a number, if it has one. -/
def exponent? : List Char → Option (List Char)
  | 'e' :: '+' :: rest | 'e' :: '-' :: rest | 'E' :: '+' :: rest | 'E' :: '-' :: rest =>
    digits? rest
  | 'e' :: rest | 'E' :: rest => digits? rest
  | rest => some rest

/-- What follows the fraction and the exponent of a number, if it has them. -/
def fraction? : List Char → Option (List Char)
  | '.' :: rest =>
    match digits? rest with
    | none => none
    | some rest => exponent? rest
  | rest => exponent? rest

/-- What follows a number that starts at a digit.  A zero in front of further digits is refused. -/
def number? : List Char → Option (List Char)
  | '0' :: rest =>
    match rest with
    | [] => some []
    | c :: after => if c.isDigit then none else fraction? (c :: after)
  | text =>
    match digits? text with
    | none => none
    | some rest => fraction? rest

/-! ## The scan -/

/-- The mark that a character stands for, if it does. -/
def ofMark? (c : Char) : Option JsonToken :=
  match c with
  | '\x7b' => some .openBrace
  | '\x7d' => some .closeBrace
  | '[' => some .openBracket
  | ']' => some .closeBracket
  | ',' => some .comma
  | ':' => some .colon
  | _ => none

/-- The token that starts with the character `c`, which is not blank, and what follows it.
Nothing follows what is no token. -/
def next (c : Char) (rest : List Char) : JsonToken × List Char :=
  match ofMark? c with
  | some mark => (mark, rest)
  | none =>
    match c, rest with
    | 'n', 'u' :: 'l' :: 'l' :: after => (.null, after)
    | 't', 'r' :: 'u' :: 'e' :: after => (.bool true, after)
    | 'f', 'a' :: 'l' :: 's' :: 'e' :: after => (.bool false, after)
    | '\x22', rest =>
      match unquote rest with
      | none => (.junk, [])
      | some (codes, after) => (.string ((textOfCodes codes).map String.ofList), after)
    | '-', rest =>
      match number? rest with
      | none => (.junk, [])
      | some after => (.number, after)
    | c, rest =>
      if c.isDigit then
        match number? (c :: rest) with
        | none => (.junk, [])
        | some after => (.number, after)
      else (.junk, [])

/-- The tokens of a text, given a bound on its length. -/
def scanWithin : Nat → List Char → List JsonToken
  | 0, _ => []
  | _ + 1, [] => []
  | bound + 1, c :: rest =>
    if isBlank c then scanWithin bound rest
    else (next c rest).1 :: scanWithin bound (next c rest).2

/-- The tokens of a text.  Every token takes at least one character, so there are no more of them
than characters. -/
def scan (text : List Char) : List JsonToken :=
  scanWithin text.length text

end JsonToken

end FieldFilter
