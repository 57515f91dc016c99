import FieldFilter.Glob

/-!
# Names in a filter expression

Every node of an expression carries a name: what it asks for at its level.  This file says which
fields a name matches and how well, so that of several matching nodes the most specific decides.

**The order of strengths.**  An exact name counts its characters and two more, a wildcard pattern
the characters that stand for themselves and one more, and the two bare wildcards count nothing.
So an exact name is stronger than any pattern that matches the same field, and any pattern is
stronger than a bare wildcard.

Main definitions:

* `Name` — the kinds of name;
* `Name.ofWord` — the kind a bare word stands for;
* `Name.refusal?` — why there is no such name, if its pattern does not compile;
* `Name.label` — how a name is written;
* `Name.strength` — how well a name matches a field, if it does;
* `Name.mayBeView` — whether a name can be read as the label of a view.
-/

namespace FieldFilter

inductive Name where
  /-- One field name, or the label of a view. -/
  | exact (text : String)
  | glob (pattern : String)
  | shallow
  /-- Everything at this level and below. -/
  | deep
  /-- The label of a view and never a field name; no text is read as one. -/
  | view (label : String)
  deriving DecidableEq, Repr

namespace Name

/-- The view that stands in for what was not asked for in detail. -/
def baseView : String := "base"

/-- The view every field belongs to. -/
def fullView : String := "full"

/-- What a bare word stands for: the two bare wildcards, a pattern if it holds a star, and else
itself. -/
def ofWord (word : String) : Name :=
  if word = "**" then .deep
  else if word = "*" then .shallow
  else if word.toList.contains '*' then .glob word
  else .exact word

/-- Why a name cannot be had, if it is a pattern that is refused. -/
def refusal? [Glob.Engine] : Name → Option String
  | .glob pattern => Glob.Engine.refusal? pattern
  | _ => none

def label : Name → String
  | .exact text => text
  | .glob pattern => pattern
  | .shallow => "*"
  | .deep => "**"
  | .view label => label

/-- How well a name matches a field, or none if it does not. -/
def strength (name : Name) (field : String) : Option Nat :=
  match name with
  | .exact text => if text = field then some (text.toList.length + 2) else none
  | .glob pattern =>
    if Glob.accepts pattern.toList field.toList then
      some (Glob.literalLength pattern.toList + 1)
    else none
  | .shallow | .deep => some 0
  | .view _ => none

/-- Whether a name can be read as the label of a view. -/
def mayBeView : Name → Bool
  | .exact _ | .view _ => true
  | _ => false

def isView : Name → Bool
  | .view _ => true
  | _ => false

end Name

end FieldFilter
