/-!
# Tokens of a filter expression

A filter expression is written with names, bare or quoted, and eight marks.  This file holds the
tokens themselves, how an error message calls them, and where in a text each was found.

Main definitions:

* `Token` — a word, a quoted text or a mark;
* `Token.describe`, `Token.describe?` — the wording for a token, or for the end of the input;
* `Token.opensSelector` — whether a selector can start with the token;
* `Lexeme` — a token and the number of characters before it.
-/

namespace FieldFilter

inductive Token where
  /-- A name written bare; wildcards are part of it. -/
  | word (text : String)
  /-- A name between quotes, its escapes already undone. -/
  | quoted (text : String)
  | comma
  | pipe
  | dot
  | minus
  | openBrace
  | closeBrace
  | openParen
  | closeParen
  deriving DecidableEq, Repr

namespace Token

/-- What an error message calls a token. -/
def describe : Token → String
  | .word text => "identifier '" ++ text ++ "'"
  | .quoted text => "quoted name '" ++ text ++ "'"
  | .comma => "','"
  | .pipe => "'|'"
  | .dot => "'.'"
  | .minus => "'-'"
  | .openBrace => "'\x7b'"
  | .closeBrace => "'\x7d'"
  | .openParen => "'('"
  | .closeParen => "')'"

/-- What an error message calls the next token, or the end of the input where there is none. -/
def describe? : Option Token → String
  | some token => token.describe
  | none => "end of input"

/-- Whether a selector can start with the token: names can, marks cannot. -/
def opensSelector : Token → Bool
  | .word _ | .quoted _ => true
  | _ => false

end Token

/-- A token together with the number of characters before it in the text it was read from. -/
structure Lexeme where
  token : Token
  offset : Nat
  deriving DecidableEq, Repr

end FieldFilter
