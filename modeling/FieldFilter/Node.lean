import FieldFilter.Name

/-!
# Nodes of a filter expression

A filter expression is a forest: every node asks for a name at its level, and its children say
what is wanted below.  This file holds the nodes, how they are written, and how the nodes of one
level are brought into normal form.

**Normal form of a level.**  Siblings that ask for the same name become one node, at the place of
the first, and their children are merged in turn; a negated node is never merged.  A level that
only takes away starts from everything: a deep wildcard is put in front of it.

Main definitions:

* `Node` — a name, three flags and the children;
* `Node.render`, `Node.renderAll` — the text of a node and of a level;
* `Node.insert`, `Node.insertAll` — a level with further nodes merged in;
* `Node.complete` — a level that only takes away, with the deep wildcard in front;
* `Node.level` — the normal form of a list of nodes.
-/

namespace FieldFilter

structure Node where
  name : Name
  /-- The node takes away what it matches. -/
  negated : Bool
  /-- The node has a block, written in braces or opened by a dot. -/
  braced : Bool
  /-- The block was written with nothing in it. -/
  emptyBlock : Bool
  children : List Node
  deriving Repr

namespace Node

/-- A node that asks for a name and says nothing about what is below. -/
def leaf (name : Name) : Node :=
  ⟨name, false, false, false, []⟩

/-- The node for everything, which a level that only takes away starts from. -/
def everything : Node :=
  leaf .deep

/-- The node for the base view; it leaves open what is below the members of the view. -/
def ofBaseView : Node :=
  ⟨.view Name.baseView, false, true, false, []⟩

mutual

/-- The text of a node: the name after a minus sign if it is negated, and its children in braces
if it has a block. -/
def render : Node → String
  | ⟨name, negated, braced, _, children⟩ =>
    (if negated then "-" else "") ++ name.label
      ++ if braced && !name.isView then "\x7b" ++ renderAll children ++ "\x7d" else ""

/-- The text of a level: its nodes with commas between them. -/
def renderAll : List Node → String
  | [] => ""
  | node :: rest => render node ++ renderRest rest

/-- The text of the nodes after the first of a level, each with a comma before it. -/
def renderRest : List Node → String
  | [] => ""
  | node :: rest => "," ++ render node ++ renderRest rest

end

/-! ## Equality of nodes is decidable -/

mutual

/-- Nodes are equal if their names, their flags and their children are. -/
def decEq : (a b : Node) → Decidable (a = b)
  | ⟨name, negated, braced, emptyBlock, children⟩,
    ⟨name', negated', braced', emptyBlock', children'⟩ =>
    if h : name = name' ∧ negated = negated' ∧ braced = braced' ∧ emptyBlock = emptyBlock' then
      match decEqAll children children' with
      | .isTrue hc => .isTrue (by obtain ⟨rfl, rfl, rfl, rfl⟩ := h; rw [hc])
      | .isFalse hc => .isFalse (by simp [hc])
    else
      .isFalse fun he => by
        cases he
        exact h ⟨rfl, rfl, rfl, rfl⟩

/-- Levels are equal if their nodes are, one by one. -/
def decEqAll : (a b : List Node) → Decidable (a = b)
  | [], [] => .isTrue rfl
  | [], _ :: _ => .isFalse (by simp)
  | _ :: _, [] => .isFalse (by simp)
  | node :: rest, node' :: rest' =>
    match decEq node node', decEqAll rest rest' with
    | .isTrue h, .isTrue hr => .isTrue (by rw [h, hr])
    | .isFalse h, _ => .isFalse (by simp [h])
    | _, .isFalse hr => .isFalse (by simp [hr])

end

instance : DecidableEq Node := decEq

/-! ## The normal form of a level -/

/-- Whether a node of a level takes in further nodes that ask for a name. -/
def takesIn (name : Name) (node : Node) : Bool :=
  !node.negated && node.name == name

/-- A level that only takes away, with the deep wildcard in front; any other level as it is. -/
def complete (level : List Node) : List Node :=
  if !level.isEmpty && level.all (·.negated) then everything :: level else level

mutual

/-- A level with one more node.  The node is merged into the first sibling that takes it in:
their children are merged, the block is empty only if both were written empty, and there is a
block if either had one.  Without such a sibling the node goes to the end. -/
def insert : Node → List Node → List Node
  | ⟨name, negated, braced, emptyBlock, children⟩, level =>
    match if negated then none else level.findIdx? (takesIn name) with
    | none => level ++ [⟨name, negated, braced, emptyBlock, children⟩]
    | some i =>
      level.modify i fun target =>
        { target with
          children := complete (insertAll children target.children)
          emptyBlock := target.emptyBlock && emptyBlock
          braced := target.braced || braced }

/-- A level with further nodes, the first of them first. -/
def insertAll : List Node → List Node → List Node
  | [], level => level
  | node :: rest, level => insertAll rest (insert node level)

end

/-- Merging in nodes in two parts is merging them in at once. -/
theorem insertAll_append (first second level : List Node) :
    insertAll (first ++ second) level = insertAll second (insertAll first level) := by
  induction first generalizing level with
  | nil => simp [insertAll]
  | cons node rest ih => simp [insertAll, ih]

/-- A negated node goes to the end of a level. -/
theorem insert_of_negated {node : Node} (h : node.negated = true) (level : List Node) :
    insert node level = level ++ [node] := by
  obtain ⟨name, negated, braced, emptyBlock, children⟩ := node
  subst h
  simp [insert]

/-- The normal form of the nodes that were written at one level. -/
def level (nodes : List Node) : List Node :=
  complete (insertAll nodes [])

end Node

end FieldFilter
