/-!
# The ambient filter

A filter can be installed for everything that runs while it is.  Installed filters form a stack.
Installing one gives a guard, and releasing the guard removes that filter and all that were
installed after it.  A task can have a filter of its own, which hides the stack.

Main definitions:

* `Ambient` — the stack and the filter of the task;
* `Ambient.current` — the filter in force;
* `Ambient.enter`, `Ambient.release` — installing a filter, and releasing a guard;
* `Ambient.within`, `Ambient.withinTask` — running something under a filter.
-/

namespace FieldFilter

/-- The installed filters, the oldest first, and the filter of the running task. -/
structure Ambient where
  installed : List String
  task : Option String
  deriving DecidableEq, Repr

/-- What releases an installed filter: the number of filters installed before it. -/
structure Guard where
  depth : Nat
  deriving DecidableEq, Repr

namespace Ambient

def none : Ambient :=
  ⟨[], Option.none⟩

/-- The filter in force: that of the task, or else the one installed last. -/
def current (ambient : Ambient) : Option String :=
  ambient.task <|> ambient.installed.getLast?

def enter (filter : String) (ambient : Ambient) : Guard × Ambient :=
  (⟨ambient.installed.length⟩, { ambient with installed := ambient.installed ++ [filter] })

/-- Releases a guard: the filters that were installed before its own stay. -/
def release (guard : Guard) (ambient : Ambient) : Ambient :=
  { ambient with installed := ambient.installed.take guard.depth }

/-- Runs something with a filter installed, and releases the filter afterwards. -/
def within {σ α : Type} (view : σ → Ambient) (update : σ → Ambient → σ) (filter : String)
    (body : StateM σ α) : StateM σ α := fun state =>
  let (guard, entered) := (view state).enter filter
  let (answer, after) := body (update state entered)
  (answer, update after ((view after).release guard))

/-- Runs something as a task with a filter of its own; afterwards the task has the filter it had
before. -/
def withinTask {σ α : Type} (view : σ → Ambient) (update : σ → Ambient → σ) (filter : String)
    (body : StateM σ α) : StateM σ α := fun state =>
  let before := (view state).task
  let (answer, after) := body (update state { view state with task := some filter })
  (answer, update after { view after with task := before })

end Ambient

end FieldFilter
