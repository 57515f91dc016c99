import FieldFilter.AssocList
import FieldFilter.Name
import FieldFilter.NameSet

/-!
# Described types

A type is described by its fields in the order of their declaration.  A field may carry view
labels, may be hidden, and may be unwrapped, in which case the members of its value stand among
its siblings.  From the declarations a view table is computed once, which every later decision
reads.

**Views.**  Every visible field is in the view `full`.  A visible field with labels is in the
views they name; one without labels is in the view `base`, if the schema says so.

Main definitions:

* `FieldType`, `FieldDecl`, `TypeDecl` — what is declared;
* `ViewTable` — the members of each view;
* `TypeInfo`, `TypeDecl.info` — a described type with its view table;
* `Schema` — the described types by name.
-/

namespace FieldFilter

inductive FieldType where
  /-- Nothing is declared about the value. -/
  | untyped
  /-- The value is of a described type, or an array of such values. -/
  | described (type : String)
  /-- The value is a map, with entries of a described type where one is given. -/
  | map (entry : Option String)
  deriving DecidableEq, Repr

def FieldType.isDescribed : FieldType → Bool
  | .described _ => true
  | _ => false

structure FieldDecl where
  name : String
  views : List String
  /-- The field is never written, whatever is asked for. -/
  hidden : Bool
  /-- The members of the value stand among the siblings of the field. -/
  unwrapped : Bool
  type : FieldType
  deriving DecidableEq, Repr

/-- The declaration of a type: its name and its fields in order. -/
structure TypeDecl where
  name : String
  fields : List FieldDecl
  deriving DecidableEq, Repr

/-! ## The view table -/

/-- The members of each view that has any, by label. -/
abbrev ViewTable := List (String × NameSet)

namespace ViewTable

/-- The members of a view; a view that is not listed has none. -/
def members (table : ViewTable) (label : String) : NameSet :=
  (table.lookup label).getD []

def add (label name : String) : ViewTable → ViewTable
  | [] => [(label, NameSet.insert name [])]
  | (head, names) :: tail =>
    if head = label then (head, NameSet.insert name names) :: tail
    else (head, names) :: add label name tail

/-- A field added to a view is a member of that view, and the other views stay as they are. -/
theorem members_add (label name other : String) (table : ViewTable) :
    (table.add label name).members other
      = if other = label then NameSet.insert name (table.members label)
        else table.members other := by
  induction table with
  | nil => by_cases h : other = label <;> simp [add, members, AssocList.lookup_cons_ite, h]
  | cons head tail ih =>
    obtain ⟨key, names⟩ := head
    unfold add
    by_cases hk : key = label
    · subst hk
      by_cases h : other = key <;> simp [members, AssocList.lookup_cons_ite, h]
    · by_cases h : other = key
      · subst h
        simp [members, hk]
      · simpa [members, AssocList.lookup_cons_ite, hk, h, Ne.symm hk] using ih

/-- A table with a field added to the views it belongs to. -/
def addField (unlabelledInBase : Bool) (table : ViewTable) (field : FieldDecl) : ViewTable :=
  let table := table.add Name.fullView field.name
  let table :=
    if field.views.isEmpty && unlabelledInBase then table.add Name.baseView field.name else table
  field.views.foldl (fun table label => table.add label field.name) table

def ofFields (unlabelledInBase : Bool) (fields : List FieldDecl) : ViewTable :=
  fields.foldl (addField unlabelledInBase) []

def labels (table : ViewTable) : NameSet :=
  table.foldl (fun names entry => NameSet.insert entry.1 names) []

end ViewTable

/-- A described type: its declaration, and what is computed from it. -/
structure TypeInfo where
  decl : TypeDecl
  views : ViewTable
  unwrapped : NameSet
  deriving Repr

namespace TypeDecl

def visible (decl : TypeDecl) : List FieldDecl :=
  decl.fields.filter (!·.hidden)

def field? (decl : TypeDecl) (name : String) : Option FieldDecl :=
  decl.visible.find? (·.name == name)

/-- Whether a name is declared at all; hidden fields count. -/
def declares (decl : TypeDecl) (name : String) : Bool :=
  decl.fields.any (·.name == name)

/-- The names of the visible fields that are unwrapped.  Only the members of a described type can
stand among siblings, so the flag means nothing on a field of another type. -/
def unwrappedNames (decl : TypeDecl) : NameSet :=
  (decl.visible.filter fun field => field.unwrapped && field.type.isDescribed).foldl
    (fun names field => NameSet.insert field.name names) []

def info (unlabelledInBase : Bool) (decl : TypeDecl) : TypeInfo :=
  ⟨decl, ViewTable.ofFields unlabelledInBase decl.visible, decl.unwrappedNames⟩

end TypeDecl

/-! ## The described types by name -/

/-- The described types, and whether fields without labels belong to the base view. -/
structure Schema where
  unlabelledInBase : Bool
  types : List TypeInfo
  deriving Repr

namespace Schema

def empty (unlabelledInBase : Bool) : Schema :=
  ⟨unlabelledInBase, []⟩

def find? (schema : Schema) (type : String) : Option TypeInfo :=
  schema.types.find? (·.decl.name == type)

/-- A schema with a type described anew; an earlier description of that name is dropped. -/
def register (schema : Schema) (decl : TypeDecl) : Schema :=
  let others := schema.types.filter (·.decl.name != decl.name)
  { schema with types := others ++ [decl.info schema.unlabelledInBase] }

def registerAll (schema : Schema) (decls : List TypeDecl) : Schema :=
  decls.foldl register schema

end Schema

end FieldFilter
