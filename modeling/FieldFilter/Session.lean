import FieldFilter.Cache
import FieldFilter.Expression.Read
import FieldFilter.Registry
import FieldFilter.Settings

/-!
# Sessions: decisions with memory

A session remembers parsed expressions and decisions about paths.  Both are kept in caches with
limits, so the same question may be answered from memory or anew.  Expressions are remembered by
their text, and only if the text parses; decisions by the path and the filter, and only for paths
whose last field belongs to a type with declared fields.

Time in a session is a counter that goes on with every use of a cache.

Main definitions:

* `Session` — the registry, the two caches, the view policy and the time;
* `BoundFilter` — a filter for one pass over a value, parsed at most once;
* `Filtering` — a computation that decides under a bound filter and may fail;
* `Filtering.includes` — whether a path is included.
-/

namespace FieldFilter

/-- What decisions draw on and what they leave behind. -/
structure Session where
  clock : Nat
  registry : Registry
  policy : ViewPolicy
  expressions : Cache String Expression
  decisions : Cache DecisionKey Bool
  deriving Repr

/-- A filter text for one pass over a value, the type the value started from, and the outcome of
parsing the text once it was needed. -/
structure BoundFilter where
  filter : String
  root : Option Owner
  parsed : Option (Except SyntaxFault Expression)

namespace BoundFilter

def ofFilter (filter : String) (root : Option Owner) : BoundFilter :=
  ⟨filter, root, none⟩

def isEverything (bound : BoundFilter) : Bool :=
  bound.filter == Expression.everything

end BoundFilter

namespace Session

/-- A session with empty caches, for the types of a schema. -/
def ofSettings (settings : Settings) (types : List TypeDecl) : Session where
  clock := 0
  registry := .ofSchema ((Schema.empty settings.unlabelledInBase).registerAll types)
  policy := settings.policy
  expressions := .empty settings.expressionCache
  decisions := .empty settings.decisionCache

/-- The expression of a filter text, from memory if it is there. -/
def parse [Glob.Engine] (session : Session) (filter : String) :
    Except SyntaxFault Expression × Session :=
  let (answer, expressions) :=
    session.expressions.getOrInsert session.clock (session.clock + 1) filter
      (Expression.parse filter)
  (answer, { session with expressions, clock := session.clock + 2 })

/-- What a decision about a path is remembered under, or none if it may not be remembered. -/
def decisionKey? (path : Path) (filter : String) : Option DecisionKey :=
  if path.isCacheable then some ⟨path.key, filter⟩ else none

def remembered (session : Session) (path : Path) (filter : String) : Option Bool × Session :=
  match decisionKey? path filter with
  | none => (none, session)
  | some key =>
    let (answer, decisions) := session.decisions.get session.clock key
    (answer, { session with decisions, clock := session.clock + 1 })

def remember (session : Session) (path : Path) (filter : String) (included : Bool) : Session :=
  match decisionKey? path filter with
  | none => session
  | some key =>
    { session with
      decisions := session.decisions.insert session.clock key included
      clock := session.clock + 1 }

end Session

/-- The expression of a bound filter.  The outcome of the first time is kept, a defect too. -/
def BoundFilter.expression [Glob.Engine] (bound : BoundFilter) (session : Session) :
    Except SyntaxFault Expression × BoundFilter × Session :=
  match bound.parsed with
  | some outcome => (outcome, bound, session)
  | none =>
    let (outcome, session) := session.parse bound.filter
    (outcome, { bound with parsed := some outcome }, session)

/-! ## Decisions under a bound filter -/

structure Filtering.State where
  bound : BoundFilter
  session : Session

/-- A computation that decides under a bound filter.  What it has done to the session stays done
when it fails. -/
abbrev Filtering := ExceptT Fault (StateM Filtering.State)

namespace Filtering

/-- The description of a type, counted as a look-up. -/
def describe (type : String) : Filtering TypeInfo := fun state =>
  let (answer, registry) := state.session.registry.describe type
  (answer.mapError .lookup, { state with session := { state.session with registry } })

def expression [Glob.Engine] : Filtering Expression := fun state =>
  let (outcome, bound, session) := state.bound.expression state.session
  (outcome.mapError .malformed, ⟨bound, session⟩)

def remembered (path : Path) : Filtering (Option Bool) := fun state =>
  let (answer, session) := state.session.remembered path state.bound.filter
  (.ok answer, { state with session })

def remember (path : Path) (included : Bool) : Filtering Unit := fun state =>
  (.ok (), { state with session := state.session.remember path state.bound.filter included })

/-- The decision about a path, worked out from the expression. -/
def decide [Glob.Engine] (path : Path) : Filtering Bool := do
  let expression ← expression
  let policy := (← get).session.policy
  expression.includes (.ofDescriptions describe) policy path

/-- Whether the last field of a path is included.  The empty path is, and so is every path under
the filter that asks for everything; else the decision comes from memory, or is worked out and
remembered. -/
def includes [Glob.Engine] (path : Path) : Filtering Bool := do
  if path.isEmpty || (← get).bound.isEverything then pure true
  else
    match ← remembered path with
    | some included => pure included
    | none =>
      let included ← decide path
      remember path included
      pure included

end Filtering

end FieldFilter
