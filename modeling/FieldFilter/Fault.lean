import FieldFilter.Defect

/-!
# What can fail while a value is filtered

Filtering fails for one of two reasons: the filter text does not parse, or a type along the way
could not be looked up.

Main definitions:

* `LookupFault` — the reasons why a type could not be looked up;
* `Fault` — either reason;
* `Fault.message` — the wording.
-/

namespace FieldFilter

/-- Why a type could not be looked up. -/
inductive LookupFault where
  | unknownType (type : String)
  /-- Whoever describes the types gave a reason of its own. -/
  | failed (type reason : String)
  deriving DecidableEq, Repr

def LookupFault.message : LookupFault → String
  | .unknownType type => "Unknown type: " ++ type
  | .failed type reason => "Introspection of " ++ type ++ " failed: " ++ reason

/-- Why a value could not be filtered. -/
inductive Fault where
  | malformed (fault : SyntaxFault)
  | lookup (fault : LookupFault)
  deriving DecidableEq, Repr

def Fault.message : Fault → String
  | .malformed fault => fault.message
  | .lookup fault => fault.message

end FieldFilter
