import FieldFilter.Token

/-!
# Defects of a filter expression

Reading a filter expression is all or nothing: a defect means that no part of it is used.  This
file says what can be wrong with one, where, and how the error message words it.

Main definitions:

* `Flaw` — the kinds of defect, each with what its message mentions;
* `Defect` — a flaw and the character offset it is reported at;
* `SyntaxFault` — a defect together with the whole text, as it is reported to a caller.
-/

namespace FieldFilter

inductive Flaw where
  | unexpectedCharacter (c : Char)
  | unterminatedQuote
  | emptyQuotedName
  /-- A word whose pattern does not compile. -/
  | invalidPattern (reason : String)
  /-- Something else where a segment of a selector has to stand. -/
  | emptySelector (found : Option Token)
  /-- A segment too many levels below the top. -/
  | tooDeep
  /-- Something else where a term has to end. -/
  | expectedComma (found : Token)
  | unclosedParen
  | unclosedBrace
  | strayBrace
  deriving DecidableEq, Repr

def Flaw.describe : Flaw → String
  | .unexpectedCharacter c => "unexpected character '" ++ c.toString ++ "'"
  | .unterminatedQuote => "unterminated quoted name"
  | .emptyQuotedName => "empty quoted name"
  | .invalidPattern reason => "invalid pattern: " ++ reason
  | .emptySelector found => "empty selector before " ++ Token.describe? found
  | .tooDeep => "nesting too deep"
  | .expectedComma found => "expected ',' but found " ++ found.describe
  | .unclosedParen => "unbalanced '('"
  | .unclosedBrace => "unbalanced '\x7b'"
  | .strayBrace => "unbalanced '\x7d'"

/-- A flaw and the number of characters before the place it is reported at. -/
structure Defect where
  flaw : Flaw
  offset : Nat
  deriving DecidableEq, Repr

/-- The rejection of a filter expression: the whole text and what is wrong with it. -/
structure SyntaxFault where
  source : String
  defect : Defect
  deriving DecidableEq, Repr

def SyntaxFault.message (fault : SyntaxFault) : String :=
  "Invalid filter expression '" ++ fault.source ++ "': " ++ fault.defect.flaw.describe
    ++ " at offset " ++ toString fault.defect.offset

end FieldFilter
