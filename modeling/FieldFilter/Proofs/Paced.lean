import FieldFilter.Proofs.Steady

/-!
# Walks that take their time

A walk puts its questions one after the other.  Before each of them time may pass, in which what
the caches keep grows old.  Here a walk is slowed down and watched: a pace says how long it waits
before a question, and the paths it asks about are noted in order.  The notes change nothing, so a
walk that never waits is the pass of the session.

* `Paced` — computations that wait before they ask, and note what they ask about.
* `Session.walk` — a pass over a value at a pace.
* **`Session.walk_unhurried`** — without waiting it is the pass of the session.
-/

namespace FieldFilter

/-- How long a walk waits before a question, given the paths it has asked about so far. -/
abbrev Pace := List Path → Nat

/-- A bound filter, a session, and the paths that were asked about. -/
structure Paced.State where
  filtering : Filtering.State
  asked : List Path

/-- A computation that decides under a bound filter at a pace. -/
abbrev Paced := ExceptT Fault (StateM Paced.State)

/-- A session some time later. -/
def Session.wait (session : Session) (pause : Nat) : Session :=
  { session with clock := session.clock + pause }

/-- The state of a computation some time later. -/
def Filtering.State.wait (state : Filtering.State) (pause : Nat) : Filtering.State :=
  { state with session := state.session.wait pause }

namespace Paced

def describe (type : String) : Paced TypeInfo := fun state =>
  let (answer, filtering) := Filtering.perform (Filtering.describe type) state.filtering
  (answer, { state with filtering })

/-- Waits, and then asks about a path. -/
def includes [Glob.Engine] (pace : Pace) (path : Path) : Paced Bool := fun state =>
  let (answer, filtering) :=
    Filtering.perform (Filtering.includes path) (state.filtering.wait (pace state.asked))
  (answer, ⟨filtering, state.asked ++ [path]⟩)

def guide [Glob.Engine] (pace : Pace) (placeholder : Option Json) : Guide Paced :=
  ⟨describe, includes pace, placeholder⟩

end Paced

namespace Session

/-- A value without what a bound filter excludes, pruned at a pace. -/
def walk [Glob.Engine] (session : Session) (bound : BoundFilter) (pace : Pace)
    (placeholder : Option Json) (root : Owner) (value : Json) : Except Fault Json × Paced.State :=
  Filtering.perform (value.prune (Paced.guide pace placeholder) root) ⟨⟨bound, session⟩, []⟩

/-- A walk that never waits does to the session what the session does by itself. -/
theorem guides_unhurried [Glob.Engine] {schema : Schema} (placeholder : Option Json) :
    (Filtering.following Paced.State.filtering schema).Guides (.ofRegion (.all schema))
      (Paced.guide (fun _ => 0) placeholder) (guide placeholder) where
  describe _ _ _ _ _ _ _ h := Filtering.follows_describe_bind (fun _ => rfl) h
  includes _ path _ _ _ := fun state hschema =>
    ⟨rfl, (Filtering.follows_includes path state.filtering hschema).2⟩
  placeholder := rfl

/-- **A walk that never waits is the pass of the session.** -/
theorem walk_unhurried [Glob.Engine] (session : Session) (bound : BoundFilter)
    (placeholder : Option Json) (root : Owner) (value : Json) :
    let walked := session.walk bound (fun _ => 0) placeholder root value
    session.prune bound placeholder root value
      = (walked.1, walked.2.filtering.bound, walked.2.filtering.session) := by
  have hpair : (Schema.Pairing.ofRegion (.all session.registry.schema)).Rel (Json.rootType root) []
      value value := ⟨rfl, True.intro⟩
  have hsame := (Simulation.prune (guides_unhurried placeholder) hpair
    ⟨⟨bound, session⟩, []⟩ rfl).1
  exact congrArg (fun run => (run.1, run.2.bound, run.2.session)) hsame.symm

end Session

end FieldFilter
