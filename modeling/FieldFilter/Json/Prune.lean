import FieldFilter.Json
import FieldFilter.Path
import FieldFilter.Schema

/-!
# Pruning a JSON value

A value is copied without the fields that are excluded.  The walk follows the value and the
declared types at once and asks about every member it meets, under the path of names from the
root; arrays add nothing to a path.  What is below an excluded member is not looked at.

**Objects of a described type.**  First come the visible declared fields that the object has, in
the order of their declaration.  The members of an unwrapped object are written among those of
the object around it, without asking about the unwrapped field itself.  Then come the members that
are not declared, as values nothing is known about.  Hidden fields are never written.

**Maps and untyped objects.**  Every member is asked about as an entry of a map.

The walk is put together from the inside out: a value becomes a `Visit`, which says how to prune
the value once its declared type and its path are known.

Main definitions:

* `Guide` — the questions a walk asks, and what stands for an excluded field;
* `Visit` — how to prune a value at a place;
* `Guide.writeField`, `Guide.writeDescribed`, `Guide.writeMap` — members, one by one;
* `Json.visit`, `Json.prune` — the walk.
-/

namespace FieldFilter

/-- What a walk asks about, and what it writes for an excluded field. -/
structure Guide (m : Type → Type) where
  describe : String → m TypeInfo
  includes : Path → m Bool
  /-- What stands in place of an excluded field; nothing does if there is none. -/
  placeholder : Option Json

/-- How to prune a value, given its declared type and its path. -/
structure Visit (m : Type → Type) where
  write : FieldType → Path → m Json
  /-- For an object, how to write its members among others, as those of a described type. -/
  splice? : Option (String → Path → Json.Members → m Json.Members)

namespace Guide

variable {m : Type → Type} [Monad m]

/-- Writes one member: pruned if it is included, and else as its placeholder or not at all. -/
def writeField (guide : Guide m) (name : String) (value : m Json) (path : Path)
    (out : Json.Members) : m Json.Members := do
  if ← guide.includes path then
    let pruned ← value
    pure (Json.insert name pruned out)
  else
    match guide.placeholder with
    | some placeholder => pure (Json.insert name placeholder out)
    | none => pure out

/-- Writes the members of an object that are among the given fields, in the order of the
fields. -/
def writeDeclared (guide : Guide m) (members : List (String × Visit m)) (type : String)
    (parent : Path) : List FieldDecl → Json.Members → m Json.Members
  | [], out => pure out
  | field :: rest, out => do
    match members.lookup field.name with
    | none => writeDeclared guide members type parent rest out
    | some member =>
      let path := parent.child field.name (some (.described type))
      let out ←
        match field.unwrapped, field.type, member.splice? with
        | true, .described inner, some splice => splice inner path out
        | _, _, _ => guide.writeField field.name (member.write field.type path) path out
      writeDeclared guide members type parent rest out

/-- Writes members that nothing is declared about. -/
def writeUndeclared (guide : Guide m) (type : String) (parent : Path) :
    List (String × Visit m) → Json.Members → m Json.Members
  | [], out => pure out
  | (name, member) :: rest, out => do
    let path := parent.child name (some (.described type))
    let out ← guide.writeField name (member.write .untyped path) path out
    writeUndeclared guide type parent rest out

/-- Writes the members of an object of a described type among others. -/
def writeDescribed (guide : Guide m) (members : List (String × Visit m)) (type : String)
    (parent : Path) (out : Json.Members) : m Json.Members := do
  let info ← guide.describe type
  let out ← guide.writeDeclared members type parent info.decl.visible out
  guide.writeUndeclared type parent (members.filter fun entry => !info.decl.declares entry.1) out

/-- The type of the map that entries of maps and untyped objects are asked about in. -/
def mapType : String := "Map"

/-- Writes the entries of a map, all of one declared type. -/
def writeMap (guide : Guide m) (entry : FieldType) (parent : Path) :
    List (String × Visit m) → Json.Members → m Json.Members
  | [], out => pure out
  | (name, member) :: rest, out => do
    let path := parent.child name (some (.map mapType))
    let out ← guide.writeField name (member.write entry path) path out
    writeMap guide entry parent rest out

/-- Writes the items of an array, all of one declared type and at one path. -/
def writeItems (type : FieldType) (parent : Path) : List (Visit m) → m (List Json)
  | [] => pure []
  | item :: rest => do
    let pruned ← item.write type parent
    let others ← writeItems type parent rest
    pure (pruned :: others)

/-- Writes an object as its declared type has it. -/
def writeObject (guide : Guide m) (members : List (String × Visit m)) (type : FieldType)
    (parent : Path) : m Json.Members :=
  match type with
  | .described type => guide.writeDescribed members type parent []
  | .map (some entry) => guide.writeMap (.described entry) parent members []
  | .map none | .untyped => guide.writeMap .untyped parent members []

end Guide

namespace Json

variable {m : Type → Type} [Monad m]

mutual

/-- How to prune a value. -/
def visit (guide : Guide m) : Json → Visit m
  | .null => ⟨fun _ _ => pure .null, none⟩
  | .bool value => ⟨fun _ _ => pure (.bool value), none⟩
  | .number mantissa places => ⟨fun _ _ => pure (.number mantissa places), none⟩
  | .string value => ⟨fun _ _ => pure (.string value), none⟩
  | .array items =>
    let items := visitAll guide items
    ⟨fun type parent => do
      let pruned ← Guide.writeItems type parent items
      pure (.array pruned), none⟩
  | .object members =>
    let members := visitMembers guide members
    ⟨fun type parent => do
      let pruned ← guide.writeObject members type parent
      pure (.object pruned), some (guide.writeDescribed members)⟩

/-- How to prune each item of an array. -/
def visitAll (guide : Guide m) : List Json → List (Visit m)
  | [] => []
  | item :: rest => visit guide item :: visitAll guide rest

/-- How to prune each member of an object. -/
def visitMembers (guide : Guide m) : List (String × Json) → List (String × Visit m)
  | [] => []
  | (name, value) :: rest => (name, visit guide value) :: visitMembers guide rest

end

/-- The declared type of a value that a walk starts from. -/
def rootType : Owner → FieldType
  | .described type => .described type
  | .map _ => .map none

/-- A value of the type `root` without what is excluded. -/
def prune (guide : Guide m) (root : Owner) (value : Json) : m Json :=
  (visit guide value).write (rootType root) []

end Json

end FieldFilter
