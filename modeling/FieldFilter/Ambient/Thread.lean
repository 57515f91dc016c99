import FieldFilter.Ambient

/-!
# Threads and their filters

A thread installs filters and releases guards in any order, runs parts of its work under a filter of
their own, and asks which filter is in force.  The guards it gets are numbered in the order in which
it gets them.  The guard of a scope is not among them, as only the scope itself releases it.

Main definitions:

* `Thread` — the ambient filter and the guards that a thread got;
* `Move`, `Thread.perform`, `Thread.performAll` — installing a filter and releasing a guard, and one
  move after the other;
* `Ledger` — a thread with the numbers of the filters that are installed;
* `Script`, `Script.run` — what a thread runs, and the reports on it;
* `Script.Tidy` — no scope releases a guard from outside of it.
-/

namespace FieldFilter

/-- The ambient filter of a thread and the guards that it got, the first one first. -/
structure Thread where
  ambient : Ambient
  guards : List Guard
  deriving DecidableEq, Repr

inductive Move where
  | enter (filter : String)
  /-- Releases the guard with a number, if there is one. -/
  | release (number : Nat)
  deriving DecidableEq, Repr

namespace Thread

/-- A thread that has done nothing so far. -/
def fresh : Thread :=
  ⟨.none, []⟩

def withAmbient (thread : Thread) (ambient : Ambient) : Thread :=
  { thread with ambient }

def perform (thread : Thread) : Move → Thread
  | .enter filter =>
    let (guard, ambient) := thread.ambient.enter filter
    ⟨ambient, thread.guards ++ [guard]⟩
  | .release number =>
    match thread.guards[number]? with
    | none => thread
    | some guard => thread.withAmbient (thread.ambient.release guard)

/-- A thread after some moves, one after the other. -/
def performAll (thread : Thread) (moves : List Move) : Thread :=
  moves.foldl perform thread

end Thread

/-! ## Which filters are installed -/

/-- An installed filter and the number of its guard. -/
structure Installed where
  number : Nat
  filter : String
  deriving DecidableEq, Repr

/-- A thread, and the filters that are installed there with the numbers of their guards.  Filters
may be equal, and a guard only tells how many there were before its own. -/
structure Ledger where
  thread : Thread
  entries : List Installed
  deriving DecidableEq, Repr

namespace Ledger

/-- A ledger is kept as the filters are: what is installed goes to the end, and what is released is
cut off there. -/
def perform (ledger : Ledger) (move : Move) : Ledger where
  thread := ledger.thread.perform move
  entries :=
    match move with
    | .enter filter => ledger.entries ++ [⟨ledger.thread.guards.length, filter⟩]
    | .release number =>
      match ledger.thread.guards[number]? with
      | none => ledger.entries
      | some guard => ledger.entries.take guard.depth

def performAll (ledger : Ledger) (moves : List Move) : Ledger :=
  moves.foldl perform ledger

/-- The ledger of a thread that did some moves and nothing else. -/
def after (moves : List Move) : Ledger :=
  performAll ⟨.fresh, []⟩ moves

/-- The installed filters that were entered before the guard with a number was got. -/
def older (ledger : Ledger) (number : Nat) : List Installed :=
  ledger.entries.filter fun entry => entry.number < number

/-- The installed filters that were entered since then, that of the guard included. -/
def newer (ledger : Ledger) (number : Nat) : List Installed :=
  ledger.entries.filter fun entry => number ≤ entry.number

end Ledger

/-! ## What a thread runs -/

inductive Script where
  | skip
  | step (move : Move)
  /-- Asks for the filter in force. -/
  | current
  /-- Runs the body with a filter installed. -/
  | scope (filter : String) (body : Script)
  /-- Runs the body as a task with a filter of its own. -/
  | task (filter : String) (body : Script)
  | seq (first second : Script)
  deriving DecidableEq, Repr

/-- What is told about a run: an answer, with the filters of the tasks around the question, the
innermost first, and the filters that are installed then; and the ambient filter before and after a
scope or a task. -/
inductive Report where
  | current (tasks installed : List String) (answer : Option String)
  | scope (before after : Ambient)
  | task (before after : Ambient)
  deriving DecidableEq, Repr

namespace Script

/-- Runs a script inside of tasks with the given filters, the innermost first. -/
def run (tasks : List String) : Script → StateM Thread (List Report)
  | .skip => fun thread => ([], thread)
  | .step move => fun thread => ([], thread.perform move)
  | .current => fun thread =>
    ([.current tasks thread.ambient.installed thread.ambient.current], thread)
  | .scope filter body => fun thread =>
    let (reports, after) :=
      Ambient.within Thread.ambient Thread.withAmbient filter (body.run tasks) thread
    (reports ++ [.scope thread.ambient after.ambient], after)
  | .task filter body => fun thread =>
    let (reports, after) :=
      Ambient.withinTask Thread.ambient Thread.withAmbient filter (body.run (filter :: tasks))
        thread
    (reports ++ [.task thread.ambient after.ambient], after)
  | .seq first second => fun thread =>
    let (reports, between) := first.run tasks thread
    let (more, after) := second.run tasks between
    (reports ++ more, after)

/-- How many guards a thread gets from a script. -/
def enterings : Script → Nat
  | .step (.enter _) => 1
  | .scope _ body | .task _ body => body.enterings
  | .seq first second => first.enterings + second.enterings
  | _ => 0

/-- The numbers of the guards that are released somewhere in a script. -/
def releases : Script → List Nat
  | .step (.release number) => [number]
  | .scope _ body | .task _ body => body.releases
  | .seq first second => first.releases ++ second.releases
  | _ => []

/-- Every scope releases only guards that were got inside of it.  They come after those that the
thread got before, of which there are `known`. -/
def Tidy (known : Nat) : Script → Prop
  | .scope _ body => (∀ number ∈ body.releases, known ≤ number) ∧ body.Tidy known
  | .task _ body => body.Tidy known
  | .seq first second => first.Tidy known ∧ second.Tidy (known + first.enterings)
  | _ => True

end Script

end FieldFilter
