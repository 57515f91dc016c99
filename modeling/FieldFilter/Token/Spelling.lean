import FieldFilter.Token.Scan

/-!
# How tokens are written

Tokens are written one after another, with blanks between them as one likes.  A blank has to stand
after a word if a word or a minus sign follows, as either would go on with the word; everywhere
else tokens can stand side by side.

There are two sides to this.  Writing makes a choice for each token: the blanks in front of it, and
the quotes if it is quoted.  Inside quotes it puts a backslash before the quote and before a
backslash and nowhere else.  A text counts as a spelling of tokens more freely, with a backslash
before any character at all.

Main definitions:

* `Token.write` — a token as it is written;
* `Written`, `Written.text`, `Written.lexemes` — tokens with the choices made for them, the text
  they become, and where in it they stand;
* `Written.Legible` — blanks stand where they have to;
* `Token.Spells` — the ways to write a token;
* `Spelling` — the ways to write a list of tokens.
-/

namespace FieldFilter

namespace Token

/-- A text as it stands between quotes. -/
def escape (quote : Char) (body : List Char) : List Char :=
  body.flatMap fun c => if c = quote ∨ c = '\\' then ['\\', c] else [c]

/-- A token as it is written.  The quotes only matter for a quoted one. -/
def write (quote : Char) : Token → List Char
  | .word text => text.toList
  | .quoted text => quote :: escape quote text.toList ++ [quote]
  | .comma => [',']
  | .pipe => ['|']
  | .dot => ['.']
  | .minus => ['-']
  | .openBrace => ['\x7b']
  | .closeBrace => ['\x7d']
  | .openParen => ['(']
  | .closeParen => [')']

/-- Whether a text can stand as a bare word. -/
def IsWord (text : List Char) : Prop :=
  ∃ c rest, text = c :: rest ∧ startsWord c = true ∧ ∀ d ∈ rest, continuesWord d = true

instance (text : List Char) : Decidable (IsWord text) :=
  match text with
  | [] => .isFalse (by simp [IsWord])
  | c :: rest =>
    decidable_of_iff (startsWord c = true ∧ rest.all continuesWord = true)
      ⟨fun h => ⟨c, rest, rfl, h.1, List.all_eq_true.1 h.2⟩, fun ⟨_, _, htext, hstarts, hrest⟩ => by
        obtain ⟨rfl, rfl⟩ := List.cons.inj htext
        exact ⟨hstarts, List.all_eq_true.2 hrest⟩⟩

/-- Whether a token can be written at all: every one can, apart from words with other characters
than those of a word. -/
def IsWritable : Token → Prop
  | .word text => IsWord text.toList
  | _ => True

instance (token : Token) : Decidable token.IsWritable :=
  match token with
  | .word text => inferInstanceAs (Decidable (IsWord text.toList))
  | .quoted _ | .comma | .pipe | .dot | .minus | .openBrace | .closeBrace | .openParen
  | .closeParen => .isTrue trivial

/-- Whether a token would go on with the token before it. -/
def sticks : Token → Token → Bool
  | .word _, .word _ | .word _, .minus => true
  | _, _ => false

end Token

/-! ## Writing -/

/-- A token with the blanks in front of it, and the quotes to write it with. -/
structure Written where
  gap : List Char
  quote : Char
  token : Token

namespace Written

/-- The text of tokens that are written one after another, with blanks at the end. -/
def text (ending : List Char) : List Written → List Char
  | [] => ending
  | first :: rest => first.gap ++ first.token.write first.quote ++ text ending rest

/-- The tokens with the offsets at which they are written, after `offset` other characters. -/
def lexemes (offset : Nat) : List Written → List Lexeme
  | [] => []
  | first :: rest =>
    ⟨first.token, offset + first.gap.length⟩ ::
      lexemes (offset + first.gap.length + (first.token.write first.quote).length) rest

/-- The tokens can be told apart where they are written after the token `before`, if there is
one. -/
def Legible : Option Token → List Written → Prop
  | _, [] => True
  | before, first :: rest =>
    Text.isAllBlank first.gap = true ∧ Token.isQuote first.quote = true ∧ first.token.IsWritable
      ∧ (before.any (·.sticks first.token) = true → first.gap ≠ [])
      ∧ Legible (some first.token) rest

instance decidableLegible : (before : Option Token) → (pieces : List Written) →
    Decidable (Legible before pieces)
  | _, [] => .isTrue trivial
  | before, first :: rest =>
    have := decidableLegible (some first.token) rest
    inferInstanceAs (Decidable (Text.isAllBlank first.gap = true
      ∧ Token.isQuote first.quote = true ∧ first.token.IsWritable
      ∧ (before.any (·.sticks first.token) = true → first.gap ≠ [])
      ∧ Legible (some first.token) rest))

end Written

/-! ## Spelling -/

/-- A text between quotes stands for another one: a backslash is dropped and makes the character
after it part of the text, and no quote stands without one. -/
inductive Token.Unescapes (quote : Char) : List Char → List Char → Prop where
  | nil : Unescapes quote [] []
  | plain {c : Char} {written body : List Char} (hquote : c ≠ quote) (hbackslash : c ≠ '\\')
    (h : Unescapes quote written body) : Unescapes quote (c :: written) (c :: body)
  | escaped {c : Char} {written body : List Char} (h : Unescapes quote written body) :
    Unescapes quote ('\\' :: c :: written) (c :: body)

/-- The ways to write a token. -/
inductive Token.Spells : Token → List Char → Prop where
  | word {text : List Char} (h : IsWord text) : Spells (.word (String.ofList text)) text
  | quoted {quote : Char} {written body : List Char} (hquote : isQuote quote = true)
    (h : Unescapes quote written body) :
    Spells (.quoted (String.ofList body)) (quote :: written ++ [quote])
  | mark {c : Char} {token : Token} (h : ofMark? c = some token) : Spells token [c]

/-- A text spells tokens at their offsets.  It comes after `offset` characters of which the last
are the token `before`, if there is one. -/
inductive Spelling : Option Token → Nat → List Char → List Lexeme → Prop where
  | blank {before : Option Token} {offset : Nat} {gap : List Char}
    (hgap : Text.isAllBlank gap = true) : Spelling before offset gap []
  | token {before : Option Token} {offset : Nat} {gap written text : List Char} {token : Token}
    {lexemes : List Lexeme} (hgap : Text.isAllBlank gap = true)
    (hapart : before.any (·.sticks token) = true → gap ≠ []) (hwritten : token.Spells written)
    (h : Spelling (some token) (offset + gap.length + written.length) text lexemes) :
    Spelling before offset (gap ++ written ++ text) (⟨token, offset + gap.length⟩ :: lexemes)

end FieldFilter
