import FieldFilter.Defect
import FieldFilter.Text.Alphanumeric
import FieldFilter.Text.Blank

/-!
# From text to tokens

A text is cut into tokens from left to right.  Blanks separate tokens and are dropped.  A bare
word runs as far as its characters allow, so a minus sign inside or at the end of a word belongs
to it, while one that starts a token is a mark.  Inside quotes a backslash stands for nothing but
makes the next character part of the name, whatever it is.

Main definitions:

* `Token.startsWord`, `Token.continuesWord` — the characters of a bare word;
* `Token.unquote` — the text up to a closing quote;
* `Token.next` — one token from a text that does not start with a blank;
* `Token.scan` — all tokens of a text, with their offsets;
* `Token.scanText` — all tokens of a text and its end.
-/

namespace FieldFilter.Token

/-- The characters a bare word can start with: letters, digits, three marks and the wildcard. -/
def startsWord (c : Char) : Bool :=
  Text.isAlphanumeric c || c == '_' || c == '$' || c == '@' || c == '*'

/-- The characters a bare word can go on with; a minus sign is one of them. -/
def continuesWord (c : Char) : Bool :=
  startsWord c || c == '-'

/-- The mark that a character stands for, if it does. -/
def ofMark? (c : Char) : Option Token :=
  match c with
  | ',' => some .comma
  | '|' => some .pipe
  | '.' => some .dot
  | '-' => some .minus
  | '\x7b' => some .openBrace
  | '\x7d' => some .closeBrace
  | '(' => some .openParen
  | ')' => some .closeParen
  | _ => none

def isQuote (c : Char) : Bool :=
  c == '\x27' || c == '\x22'

structure Scanned where
  token : Token
  /-- The number of characters of the token after its first one. -/
  taken : Nat
  /-- The text that follows the token. -/
  after : List Char

/-- The text up to the closing quote, the number of characters up to and with that quote, and what
follows it, or none if it is never closed.  A backslash makes the character after it part of the
text and is itself dropped. -/
def unquote (quote : Char) : List Char → Option (List Char × Nat × List Char)
  | [] => none
  | '\\' :: c :: rest =>
    (unquote quote rest).map fun (body, taken, after) => (c :: body, taken + 2, after)
  | c :: rest =>
    if c = quote then some ([], 1, rest)
    else (unquote quote rest).map fun (body, taken, after) => (c :: body, taken + 1, after)

/-- The token that starts with the character `c`, which is not blank, before the text `rest`. -/
def next (c : Char) (rest : List Char) : Except Flaw Scanned :=
  match ofMark? c with
  | some mark => .ok ⟨mark, 0, rest⟩
  | none =>
    if isQuote c then
      match unquote c rest with
      | some (body, taken, after) => .ok ⟨.quoted (String.ofList body), taken, after⟩
      | none => .error .unterminatedQuote
    else if startsWord c then
      let more := rest.takeWhile continuesWord
      .ok ⟨.word (String.ofList (c :: more)), more.length, rest.dropWhile continuesWord⟩
    else .error (.unexpectedCharacter c)

/-- The characters up to the closing quote and those after it are all there are. -/
theorem length_of_unquote {quote : Char} {text body after : List Char} {taken : Nat}
    (h : unquote quote text = some (body, taken, after)) : taken + after.length = text.length := by
  fun_induction unquote quote text generalizing body taken with
  | case1 => simp at h
  | case2 c rest ih =>
    obtain ⟨⟨body', taken', after'⟩, hr, hp⟩ := Option.map_eq_some_iff.1 h
    cases hp
    have := ih hr
    simp only [List.length_cons]
    omega
  | case3 rest =>
    cases h
    simp only [List.length_cons]
    omega
  | case4 c rest _ _ ih =>
    obtain ⟨⟨body', taken', after'⟩, hr, hp⟩ := Option.map_eq_some_iff.1 h
    cases hp
    have := ih hr
    simp only [List.length_cons]
    omega

/-- The characters of a token and those after it are all there are. -/
theorem length_of_next {c : Char} {rest : List Char} {scanned : Scanned}
    (h : next c rest = .ok scanned) : scanned.taken + scanned.after.length = rest.length := by
  unfold next at h
  split at h
  · cases h
    simp
  · split at h
    · split at h
      · next hq =>
        cases h
        exact length_of_unquote hq
      · cases h
    · split at h
      · cases h
        rw [← List.length_append, List.takeWhile_append_dropWhile]
      · cases h

/-- The tokens of a text that has `offset` characters before it. -/
def scan (offset : Nat) (text : List Char) : Except Defect (List Lexeme) :=
  match text with
  | [] => .ok []
  | c :: rest =>
    if Text.isBlank c then scan (offset + 1) rest
    else
      match h : next c rest with
      | .error flaw => .error ⟨flaw, offset⟩
      | .ok scanned =>
        (scan (offset + 1 + scanned.taken) scanned.after).map (⟨scanned.token, offset⟩ :: ·)
termination_by text.length
decreasing_by
  · simp
  · have := length_of_next h
    simp only [List.length_cons]
    omega

/-- Tokens with their offsets, and after them the end of a text with the number of its
characters. -/
def withEnd (lexemes : List Lexeme) (length : Nat) : List (Option Token × Nat) :=
  lexemes.map (fun lexeme => (some lexeme.token, lexeme.offset)) ++ [(none, length)]

/-- The tokens of a text and its end. -/
def scanText (source : String) : Except Defect (List (Option Token × Nat)) :=
  (scan 0 source.toList).map (withEnd · source.length)

end FieldFilter.Token
