import FieldFilter.Ambient
import FieldFilter.Json.Prune
import FieldFilter.Session

/-!
# Where a filter comes from

The filter of a pass is handed over by a source: a fixed text, the ambient filter, or whatever
else can name one for the type a value starts from.  A source also says whether there is anything
to filter at all; if not, every field is included and every value is copied.  A source that is
asked for a filter and has none stands for the filter that includes everything.

Main definitions:

* `FilterSource` — a source with a state of its own;
* `FilterSource.fixed`, `FilterSource.ambient` — two sources;
* `Session.includes`, `Session.prune` — deciding and pruning under a bound filter;
* `Session.includesFrom`, `Session.pruneFrom` — the same under the filter of a source.
-/

namespace FieldFilter

/-- A source of filters whose answers may depend on a state and change it. -/
structure FilterSource (σ : Type) where
  isEnabled : σ → Bool
  /-- The filter for values of a type, if there is one. -/
  filterFor : Option Owner → σ → Option String × σ

namespace FilterSource

/-- Whether a filter takes anything away: it is there and does not ask for everything. -/
def isActive : Option String → Bool
  | none => false
  | some filter => filter != Expression.everything

def fixed (filter : Option String) : FilterSource Unit where
  isEnabled _ := isActive filter
  filterFor _ _ := (filter, ())

def ambient : FilterSource Ambient where
  isEnabled ambient := isActive ambient.current
  filterFor _ ambient := (ambient.current, ambient)

/-- A filter bound for a pass over a value of a type. -/
def bind {σ : Type} (source : FilterSource σ) (root : Option Owner) (state : σ) :
    BoundFilter × σ :=
  let (filter, state) := source.filterFor root state
  (.ofFilter (filter.getD Expression.everything) root, state)

end FilterSource

namespace Session

variable [Glob.Engine]

def run {α : Type} (session : Session) (bound : BoundFilter) (computation : Filtering α) :
    Except Fault α × BoundFilter × Session :=
  let (answer, state) := computation.run.run ⟨bound, session⟩
  (answer, state.bound, state.session)

def includes (session : Session) (bound : BoundFilter) (path : Path) :
    Except Fault Bool × BoundFilter × Session :=
  session.run bound (Filtering.includes path)

/-- What a walk asks about under the bound filter. -/
def guide (placeholder : Option Json) : Guide Filtering :=
  ⟨Filtering.describe, Filtering.includes, placeholder⟩

/-- A value without what a bound filter excludes. -/
def prune (session : Session) (bound : BoundFilter) (placeholder : Option Json) (root : Owner)
    (value : Json) : Except Fault Json × BoundFilter × Session :=
  session.run bound (value.prune (guide placeholder) root)

/-! ## Under the filter of a source -/

variable {σ : Type}

/-- Whether a path is included under the filter of a source, which is asked for the type the path
starts from. -/
def includesFrom (session : Session) (source : FilterSource σ) (state : σ) (path : Path) :
    Except Fault Bool × σ × Session :=
  if source.isEnabled state then
    match path with
    | [] => (.ok true, state, session)
    | first :: rest =>
      let (bound, state) := source.bind first.owner state
      let (answer, _, session) := session.includes bound (first :: rest)
      (answer, state, session)
  else (.ok true, state, session)

/-- A value without what the filter of a source excludes. -/
def pruneFrom (session : Session) (source : FilterSource σ) (state : σ)
    (placeholder : Option Json) (root : Owner) (value : Json) :
    Except Fault Json × σ × Session :=
  if source.isEnabled state then
    let (bound, state) := source.bind (some root) state
    let (answer, _, session) := session.prune bound placeholder root value
    (answer, state, session)
  else (.ok value, state, session)

end Session

end FieldFilter
