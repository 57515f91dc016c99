import FieldFilter.Node
import FieldFilter.Text.Blank

/-!
# Filter expressions

A filter expression is what a filter text means: the text itself, which names the expression in
caches and messages, and the normal form of its top level.

Main definitions:

* `Expression` — the text and the nodes;
* `Expression.render` — the nodes written out;
* `Expression.isEverything` — whether the text asks for everything.
-/

namespace FieldFilter

/-- A filter text together with the nodes it stands for. -/
structure Expression where
  source : String
  nodes : List Node
  deriving DecidableEq, Repr

namespace Expression

/-- The filter text that asks for everything. -/
def everything : String := "**"

def render (expression : Expression) : String :=
  Node.renderAll expression.nodes

/-- Whether an expression asks for everything; blanks around the wildcard do not matter. -/
def isEverything (expression : Expression) : Bool :=
  Text.trim expression.source.toList == everything.toList

end Expression

end FieldFilter
