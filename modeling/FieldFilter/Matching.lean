import FieldFilter.Expression
import FieldFilter.Path

/-!
# Whether a filter includes a path

A path is followed from the root while the expression is followed from its top level.  At every
field the candidates are the nodes of the level reached.  The strongest node that matches the
field by name decides; without one, the first node whose label is a view that holds the field;
without one, the field is passed over if it is unwrapped, and excluded otherwise.  A node that
decides goes on to its children.

**Below a node without a block.**  A name that says nothing about what is below stands for the
base view of whatever is below.  A view, or the shallow wildcard, settles everything below it by
the views alone.

**What is asked.**  The types along the path are known through a `TypeLookup`, which may fail.
Nothing is asked that the decision does not need, and the questions come in the order of the
path; the first failure is the answer.

Main definitions:

* `TypeLookup` — the questions about types;
* `Matching.strongest` — the node that matches a field by name;
* `Matching.step`, `Matching.follow` — one field, and a whole path;
* `Expression.includes` — whether an expression includes a path.
-/

namespace FieldFilter

/-- The questions that matching asks about the types along a path.  The answers come in the monad
`m`, which carries what asking does besides: it may fail, or be counted. -/
structure TypeLookup (m : Type → Type) where
  members : Owner → String → m (List String)
  isUnwrapped : Owner → String → m Bool

structure ViewPolicy where
  /-- A matched view also settles what is below its blocks. -/
  propagateViews : Bool
  /-- What was not asked for in detail stands for its base view. -/
  implicitBase : Bool
  deriving DecidableEq, Repr

namespace Matching

/-! ## The node that decides -/

/-- Whether a node takes the place of the strongest so far: it is stronger, or as strong and
negated, or as strong and the other is not negated either. -/
def displaces (field : String) (best : Option Node) (node : Node) : Bool :=
  match best, node.name.strength field with
  | _, none => false
  | none, some _ => true
  | some current, some new =>
    match current.name.strength field with
    | none => true
    | some old => decide (old < new) || (old == new && (node.negated || !current.negated))

/-- The strongest node that matches a field by name, if any does. -/
def strongest (field : String) (nodes : List Node) : Option Node :=
  nodes.foldl (fun best node => if displaces field best node then some node else best) none

variable {m : Type → Type} [Monad m]

/-- The first of the nodes whose label is a view of the type that holds the field. -/
def firstView (lookup : TypeLookup m) (owner : Owner) (field : String) :
    List Node → m (Option Node)
  | [] => pure none
  | node :: rest => do
    let names ← lookup.members owner node.name.label
    if names.contains field then pure (some node) else firstView lookup owner field rest

/-- The node that takes in a field as a member of its view.  The entries of a map belong to its
base view, and to no other. -/
def viewNode (lookup : TypeLookup m) (element : Element) (nodes : List Node) :
    m (Option Node) :=
  let candidates := nodes.filter (·.name.mayBeView)
  match element.owner with
  | none => pure none
  | some (.map _) => pure (candidates.find? (·.name.label == Name.baseView))
  | some (.described type) => firstView lookup (.described type) element.name candidates

/-- Whether the value of a field is unwrapped into the value around it. -/
def passesOver (lookup : TypeLookup m) (element : Element) : m Bool :=
  match element.owner with
  | some (.described type) => lookup.isUnwrapped (.described type) element.name
  | _ => pure false

/-! ## What the views say -/

/-- Whether one of the views holds a field of a type.  A view that names nothing in the type
stands for the base view, if the policy says so. -/
def inSomeView (lookup : TypeLookup m) (policy : ViewPolicy) (owner : Owner)
    (field : String) : List String → m Bool
  | [] => pure false
  | label :: rest => do
    let named ← lookup.members owner label
    let names ←
      if named.isEmpty && policy.implicitBase then lookup.members owner Name.baseView
      else pure named
    if names.contains field then pure true
    else inSomeView lookup policy owner field rest

/-- Whether the views matched so far hold a field; the base view does where there are none. -/
def inViews (lookup : TypeLookup m) (policy : ViewPolicy) (labels : List String)
    (owner : Owner) (field : String) : m Bool :=
  match labels with
  | [] => do
    let names ← lookup.members owner Name.baseView
    pure (names.contains field)
  | labels => inSomeView lookup policy owner field labels

/-! ## Following a path -/

/-- Where in an expression a path has led to. -/
structure Cursor where
  candidates : List Node
  /-- The views alone decide from here on. -/
  settled : Bool
  /-- The labels of the views matched on the way, if views are propagated. -/
  labels : List String

inductive Outcome where
  /-- The rest of the path does not matter. -/
  | decided (included : Bool)
  /-- The path goes on from here. -/
  | moved (cursor : Cursor)

/-- The level below a node, for the next field of a path if there is one.  A node without
children stands for the base view, unless its block was written empty. -/
def levelBelow (policy : ViewPolicy) (isLast : Bool) (node : Node) : List Node :=
  if !isLast && node.children.isEmpty && !node.emptyBlock && policy.implicitBase then
    [Node.ofBaseView]
  else node.children

/-- The decision of a node, once it has been found.  A negated node takes the field away, a deep
wildcard includes everything below, and a view or a shallow wildcard without a block settles what
is below. -/
def enter (policy : ViewPolicy) (isLast asView : Bool) (labels : List String) (node : Node) :
    Outcome :=
  if node.negated then .decided false
  else if node.name = .deep then .decided true
  else
    .moved {
      candidates := levelBelow policy isLast node
      settled := (asView || node.name == .shallow) && !node.braced
      labels := labels }

/-- The labels with one more, if views are propagated and it is not yet among them. -/
def pushLabel (policy : ViewPolicy) (labels : List String) (label : String) : List String :=
  if policy.propagateViews && !labels.contains label then labels ++ [label] else labels

def step (lookup : TypeLookup m) (policy : ViewPolicy) (isLast : Bool) (cursor : Cursor)
    (element : Element) : m Outcome :=
  if cursor.settled then
    match element.owner with
    | some (.described type) => do
      let held ← inViews lookup policy cursor.labels (.described type) element.name
      pure (if held then .moved cursor else .decided false)
    | _ => pure (.moved cursor)
  else
    match strongest element.name cursor.candidates with
    | some node => pure (enter policy isLast false cursor.labels node)
    | none => do
      match ← viewNode lookup element cursor.candidates with
      | some node =>
        pure (enter policy isLast true
          (pushLabel policy cursor.labels node.name.label) node)
      | none =>
        let passed ← passesOver lookup element
        pure (if passed then .moved cursor else .decided false)

def follow (lookup : TypeLookup m) (policy : ViewPolicy) (cursor : Cursor) : Path → m Bool
  | [] => pure true
  | element :: rest => do
    match ← step lookup policy rest.isEmpty cursor element with
    | .decided included => pure included
    | .moved next => follow lookup policy next rest

end Matching

/-- Whether an expression includes the last field of a path. -/
def Expression.includes {m : Type → Type} [Monad m] (expression : Expression)
    (lookup : TypeLookup m) (policy : ViewPolicy) (path : Path) : m Bool :=
  Matching.follow lookup policy ⟨expression.nodes, false, []⟩ path

end FieldFilter
