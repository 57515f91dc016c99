import FieldFilter.Source

/-!
# Using a source of filters

Whoever works under a source asks it for filters, binds them, decides about paths and prunes values,
in any order and in any sessions.  Some of these uses make the source name a filter for a type, and
the others leave it alone: deciding and pruning do where nothing is filtered, and so does deciding
about the empty path.

Main definitions:

* `FilterSource.Use`, `FilterSource.Reply` — what a source is used for, and what comes back;
* `FilterSource.perform`, `FilterSource.performAll` — one use, and one use after the other;
* `FilterSource.Use.root?` — the type for which a use needs the filter;
* `FilterSource.table` — the source whose filters are given type by type.
-/

namespace FieldFilter.FilterSource

inductive Use where
  /-- Asks for the filter for values of a type. -/
  | filterFor (root : Option Owner)
  /-- Binds the filter for a pass over a value of a type. -/
  | bind (root : Option Owner)
  | includes (session : Session) (path : Path)
  | prune (session : Session) (placeholder : Option Json) (root : Owner) (value : Json)

/-- What comes back from a use, with the session as it is afterwards. -/
inductive Reply where
  | filter (filter : Option String)
  | bound (bound : BoundFilter)
  | decided (answer : Except Fault Bool) (session : Session)
  | pruned (answer : Except Fault Json) (session : Session)

namespace Use

/-- Whether a use decides or prunes, and so looks first whether there is anything to filter. -/
def isPass : Use → Bool
  | filterFor _ | bind _ => false
  | includes _ _ | prune _ _ _ _ => true

/-- The type for which a use needs the filter, if it needs any.  A pass needs none where nothing is
filtered, and neither does a decision about the empty path. -/
def root? (enabled : Bool) : Use → Option (Option Owner)
  | filterFor root | bind root => some root
  | includes _ path => if enabled then path.head?.map (·.owner) else none
  | prune _ _ root _ => if enabled then some (some root) else none

end Use

/-- The source whose filters are given type by type. -/
def table (enabled : Bool) (filters : Option Owner → Option String) : FilterSource Unit where
  isEnabled _ := enabled
  filterFor root _ := (filters root, ())

variable [Glob.Engine] {σ : Type}

/-- What comes back from a use of a source, and its state afterwards. -/
def perform (source : FilterSource σ) (state : σ) : Use → Reply × σ
  | .filterFor root =>
    let (filter, state) := source.filterFor root state
    (.filter filter, state)
  | .bind root =>
    let (bound, state) := source.bind root state
    (.bound bound, state)
  | .includes session path =>
    let (answer, state, session) := session.includesFrom source state path
    (.decided answer session, state)
  | .prune session placeholder root value =>
    let (answer, state, session) := session.pruneFrom source state placeholder root value
    (.pruned answer session, state)

/-- What comes back from uses of a source, one after the other, and its state after the last. -/
def performAll (source : FilterSource σ) (state : σ) : List Use → List Reply × σ
  | [] => ([], state)
  | use :: rest =>
    let (reply, next) := source.perform state use
    let (replies, last) := source.performAll next rest
    (reply :: replies, last)

/-- **A use goes by the one filter that it needs**, and changes the source as asking for it does. -/
theorem perform_eq (source : FilterSource σ) (state : σ) (use : Use)
    (filters : Option Owner → Option String)
    (h : ∀ root ∈ use.root? (source.isEnabled state),
      filters root = (source.filterFor root state).1) :
    source.perform state use
      = (((table (source.isEnabled state) filters).perform () use).1,
          ((use.root? (source.isEnabled state)).map fun root =>
            (source.filterFor root state).2).getD state) := by
  cases use with
  | filterFor root =>
    have hfilter := h root rfl
    simp [perform, table, Use.root?, hfilter]
  | bind root =>
    have hfilter := h root rfl
    simp [perform, bind, table, Use.root?, hfilter]
  | includes session path =>
    cases henabled : source.isEnabled state with
    | false => simp [perform, Session.includesFrom, table, Use.root?, henabled]
    | true =>
      rw [henabled] at h
      cases path with
      | nil => simp [perform, Session.includesFrom, table, Use.root?, henabled]
      | cons first rest =>
        have hfilter := h first.owner rfl
        simp [perform, Session.includesFrom, bind, table, Use.root?, henabled, hfilter]
  | prune session placeholder root value =>
    cases henabled : source.isEnabled state with
    | false => simp [perform, Session.pruneFrom, table, Use.root?, henabled]
    | true =>
      rw [henabled] at h
      have hfilter := h (some root) rfl
      simp [perform, Session.pruneFrom, bind, table, Use.root?, henabled, hfilter]

end FieldFilter.FilterSource
