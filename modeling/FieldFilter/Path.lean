/-!
# Paths of fields

A field of a nested value is reached by a path: the names on the way, each with the type of the
value that encloses it.  Decisions about a path are remembered under a key that keeps the names
joined by dots, the type that encloses the last field, and the filter; the keys are ordered.

Main definitions:

* `Owner` — the type of an enclosing value: described field by field, or a map;
* `Element`, `Path` — a named field in its owner, and a list of them from the root;
* `Path.isCacheable` — whether decisions about the path may be remembered;
* `PathIdentity`, `DecisionKey` — what a decision is remembered under, and its order.
-/

namespace FieldFilter

/-- The type of a value that encloses a field. -/
inductive Owner where
  | described (type : String)
  /-- A map, whose keys are not declared. -/
  | map (type : String)
  deriving DecidableEq, Repr

namespace Owner

def type : Owner → String
  | .described type => type
  | .map type => type

def isMap : Owner → Bool
  | .described _ => false
  | .map _ => true

/-- Owners are ordered by name, and of one name the type with declared fields comes first. -/
def compare (a b : Owner) : Ordering :=
  (Ord.compare a.type b.type).then (Ord.compare a.isMap.toNat b.isMap.toNat)

end Owner

/-- A field: its name, and the type of the value it stands in where that is known. -/
structure Element where
  name : String
  owner : Option Owner
  deriving DecidableEq, Repr

/-- The type with declared fields that encloses an element, if there is one. -/
def Element.described? (element : Element) : Option String :=
  match element.owner with
  | some (.described type) => some type
  | _ => none

/-- The way from the root of a value to one of its fields. -/
abbrev Path := List Element

/-- What a path is known by: its names joined by dots, and the owner of its last field. -/
structure PathIdentity where
  id : String
  owner : Option Owner
  deriving DecidableEq, Repr

/-- What a decision is known by: the path and the filter. -/
structure DecisionKey where
  path : PathIdentity
  filter : String
  deriving DecidableEq, Repr

namespace Path

def id (path : Path) : String :=
  ".".intercalate (path.map (·.name))

def terminalOwner (path : Path) : Option Owner :=
  path.getLast?.bind (·.owner)

def child (path : Path) (name : String) (owner : Option Owner) : Path :=
  path ++ [⟨name, owner⟩]

def key (path : Path) : PathIdentity :=
  ⟨path.id, path.terminalOwner⟩

/-- Whether decisions about a path may be remembered: the owner of its last field has declared
fields.  The keys of a map are no fixed set, so decisions about them are not kept. -/
def isCacheable (path : Path) : Bool :=
  match path.terminalOwner with
  | some (.described _) => true
  | _ => false

end Path

/-! ## The order of the keys -/

/-- An absent owner comes before any other. -/
def Owner.compare? : Option Owner → Option Owner → Ordering
  | none, none => .eq
  | none, some _ => .lt
  | some _, none => .gt
  | some a, some b => a.compare b

/-- Keys of paths are ordered by the joined names, then by the owner. -/
def PathIdentity.compare (a b : PathIdentity) : Ordering :=
  (Ord.compare a.id b.id).then (Owner.compare? a.owner b.owner)

/-- Keys of decisions are ordered by the path, then by the filter. -/
def DecisionKey.compare (a b : DecisionKey) : Ordering :=
  (a.path.compare b.path).then (Ord.compare a.filter b.filter)

instance : Ord DecisionKey := ⟨DecisionKey.compare⟩

end FieldFilter
