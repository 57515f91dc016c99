import FieldFilter.Fault
import FieldFilter.Matching
import FieldFilter.Schema

/-!
# The registry of types

A registry answers the questions about types from a schema.  Every look-up of a type is counted,
and so is every one that finds nothing; questions about a map need no look-up.

Main definitions:

* `Schema.describe` — the description of a type, or why there is none;
* `Schema.lookup` — the questions of matching, answered by a schema;
* `Registry` — a schema with its counts;
* `Registry.describe`, `Registry.lookup` — the same answers, counted.
-/

namespace FieldFilter

/-! ## Answers of a schema -/

namespace Schema

def describe (schema : Schema) (type : String) : Except LookupFault TypeInfo :=
  match schema.find? type with
  | some info => .ok info
  | none => .error (.unknownType type)

end Schema

/-- The questions of matching, answered by descriptions of types.  A map has no declared fields,
so no view of it has members and none of its fields is unwrapped. -/
def TypeLookup.ofDescriptions {m : Type → Type} [Monad m] (describe : String → m TypeInfo) :
    TypeLookup m where
  members
    | .map _, _ => pure []
    | .described type, label => do
      let info ← describe type
      pure (info.views.members label)
  isUnwrapped
    | .map _, _ => pure false
    | .described type, field => do
      let info ← describe type
      pure (info.unwrapped.contains field)

/-- The questions of matching, answered by a schema. -/
def Schema.lookup (schema : Schema) : TypeLookup (Except LookupFault) :=
  .ofDescriptions schema.describe

/-- A collaborator that fails at every question, always for the same reason. -/
def TypeLookup.broken (reason : String) : TypeLookup (Except LookupFault) where
  members owner _ := .error (.failed owner.type reason)
  isUnwrapped owner _ := .error (.failed owner.type reason)

/-! ## The counted look-up -/

/-- A schema together with the number of look-ups and of those that found nothing. -/
structure Registry where
  schema : Schema
  lookups : Nat
  unknown : Nat
  deriving Repr

namespace Registry

/-- A registry of a schema that was not asked yet. -/
def ofSchema (schema : Schema) : Registry :=
  ⟨schema, 0, 0⟩

def register (registry : Registry) (decl : TypeDecl) : Registry :=
  { registry with schema := registry.schema.register decl }

def size (registry : Registry) : Nat :=
  registry.schema.types.length

/-- The description of a type, and the registry after the look-up. -/
def describe (registry : Registry) (type : String) : Except LookupFault TypeInfo × Registry :=
  let answer := registry.schema.describe type
  (answer,
    { registry with
      lookups := registry.lookups + 1
      unknown := registry.unknown + if answer.isOk then 0 else 1 })

end Registry

end FieldFilter
