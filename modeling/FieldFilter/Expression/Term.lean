import FieldFilter.Node
import FieldFilter.Token

/-!
# Terms: what is written

Between the tokens of a filter expression and its nodes stand terms, which keep what was written:
a sign, a group of dotted selectors, and the block that follows the group.  Terms are sugar.  A
dotted selector stands for nested nodes, a group for one node per selector, and the sign and the
block belong to the last segment of each selector.

Main definitions:

* `Selector` — the segments of a dotted name;
* `Term` — a sign, a group and a block;
* `Selector.node` — the nested nodes a selector stands for;
* `Term.nodes`, `Term.level` — the nodes of a term, and the level that a list of terms stands for.
-/

namespace FieldFilter

/-- A dotted selector: the segments on the way, and the segment it selects. -/
structure Selector where
  parents : List Name
  target : Name
  deriving DecidableEq, Repr

def Selector.depth (selector : Selector) : Nat :=
  selector.parents.length + 1

/-- The number of levels the longest selector of a group reaches down. -/
def Selector.groupDepth (group : List Selector) : Nat :=
  (group.map Selector.depth).foldr max 0

/-- The nodes a selector stands for: one inside the other, with `target` in the middle. -/
def Selector.node (parents : List Name) (target : Node) : Node :=
  parents.foldr (fun name inner => ⟨name, false, true, false, Node.level [inner]⟩) target

/-- A term of a filter expression: its sign, its group and its block, if it has one. -/
structure Term where
  negated : Bool
  group : List Selector
  block : Option (List Term)

namespace Term

def isEmptyBlock : Option (List Term) → Bool
  | some [] => true
  | _ => false

mutual

/-- The nodes of a term: one for each selector of the group, all with the same block. -/
def nodes : Term → List Node
  | ⟨negated, group, block⟩ =>
    let children := blockLevel block
    group.map fun selector =>
      Selector.node selector.parents
        ⟨selector.target, negated, block.isSome, isEmptyBlock block, children⟩

/-- The level a block stands for; there is none without a block. -/
def blockLevel : Option (List Term) → List Node
  | none => []
  | some terms => Node.level (nodesAll terms)

/-- The nodes of the terms of one level, as they were written. -/
def nodesAll : List Term → List Node
  | [] => []
  | term :: rest => nodes term ++ nodesAll rest

end

def level (terms : List Term) : List Node :=
  Node.level (nodesAll terms)

end Term

end FieldFilter
