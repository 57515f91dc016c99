import FieldFilter.Cache

/-!
# Using a cache for a while

A cache, and anything else that keeps values by key, is asked for one operation after the other,
and each is told the times at which it happens.  The times may be any.  Where a clock goes on, a
step is an operation together with the time that passes: before it, while a missing value is
computed, and while room is made for it.  Then every time that an operation is told lies after those
of the steps before.

Main definitions:

* `Store` — what can be asked of something that keeps values by key;
* `Operation`, `Timed`, `Answer` — what is asked, when, and what comes back;
* `Store.performAt`, `Store.after` — one operation, and one after the other;
* `Step`, `Store.perform`, `Store.run` — the same while a clock goes on;
* `Cache.store` — a cache as a store.
-/

namespace FieldFilter

/-- What can be asked of something that keeps values by key.  Its state is of the type `σ`; the
times come in the order in which a cache is told them. -/
structure Store (σ κ ν ε : Type) where
  get : σ → Nat → κ → Option ν × σ
  insert : σ → Nat → κ → ν → Nat → σ
  getOrInsert : σ → Nat → Nat → κ → Except ε ν → Nat → Except ε ν × σ
  remove : σ → κ → Option ν × σ
  clear : σ → σ
  cleanUp : σ → Nat → σ

namespace Store

inductive Operation (κ ν ε : Type) where
  | get (key : κ)
  | insert (key : κ) (value : ν)
  /-- A look-up, and if it finds nothing a computation whose value is inserted. -/
  | getOrInsert (key : κ) (compute : Except ε ν)
  | remove (key : κ)
  | clear
  | cleanUp

/-- An operation with the times that it is told: those at which it looks something up, makes room
for a value, and writes it. -/
structure Timed (κ ν ε : Type) where
  operation : Operation κ ν ε
  start : Nat
  insertion : Nat
  finish : Nat

/-- An operation with the time that passes. -/
structure Step (κ ν ε : Type) where
  operation : Operation κ ν ε
  /-- The time before the step. -/
  pause : Nat
  /-- The time from a look-up to the insertion after it. -/
  computing : Nat
  /-- The time from making room to writing. -/
  clearing : Nat

namespace Step

variable {κ ν ε : Type}

/-- The time at which a step starts, if the step before it ended at the time `clock`. -/
def start (step : Step κ ν ε) (clock : Nat) : Nat :=
  clock + step.pause + 1

/-- The time at which a step makes room for a value. -/
def insertion (step : Step κ ν ε) (clock : Nat) : Nat :=
  step.start clock + step.computing + 1

/-- The time at which a step writes a value, and at which it ends. -/
def finish (step : Step κ ν ε) (clock : Nat) : Nat :=
  step.insertion clock + step.clearing

/-- A step as an operation with its times, if the step before it ended at the time `clock`. -/
def timed (step : Step κ ν ε) (clock : Nat) : Timed κ ν ε :=
  ⟨step.operation, step.start clock, step.insertion clock, step.finish clock⟩

theorem lt_start (step : Step κ ν ε) (clock : Nat) : clock < step.start clock := by
  simp only [start]
  omega

theorem start_lt_insertion (step : Step κ ν ε) (clock : Nat) :
    step.start clock < step.insertion clock := by
  simp only [insertion]
  omega

theorem insertion_le_finish (step : Step κ ν ε) (clock : Nat) :
    step.insertion clock ≤ step.finish clock :=
  Nat.le_add_right _ _

end Step

inductive Answer (ν ε : Type) where
  | done
  | found (value : Option ν)
  | computed (outcome : Except ε ν)

variable {σ κ ν ε : Type}

/-- The answer to an operation, and the state after it. -/
def performAt (store : Store σ κ ν ε) (state : σ) (timed : Timed κ ν ε) : Answer ν ε × σ :=
  match timed.operation with
  | .get key =>
    let (value, state) := store.get state timed.start key
    (.found value, state)
  | .insert key value => (.done, store.insert state timed.insertion key value timed.finish)
  | .getOrInsert key compute =>
    let (outcome, state) := store.getOrInsert state timed.start timed.insertion key compute
      timed.finish
    (.computed outcome, state)
  | .remove key =>
    let (value, state) := store.remove state key
    (.found value, state)
  | .clear => (.done, store.clear state)
  | .cleanUp => (.done, store.cleanUp state timed.start)

/-- The state after operations that are taken one after the other. -/
def after (store : Store σ κ ν ε) (state : σ) (run : List (Timed κ ν ε)) : σ :=
  run.foldl (fun state timed => (store.performAt state timed).2) state

/-- The answer to a step, and the state after it. -/
def perform (store : Store σ κ ν ε) (state : σ) (clock : Nat) (step : Step κ ν ε) :
    Answer ν ε × σ :=
  store.performAt state (step.timed clock)

/-- The answers to steps that are taken one after the other, and the state after them. -/
def run (store : Store σ κ ν ε) (state : σ) (clock : Nat) :
    List (Step κ ν ε) → List (Answer ν ε) × σ
  | [] => ([], state)
  | step :: rest =>
    let (answer, next) := store.perform state clock step
    let (answers, last) := store.run next (step.finish clock) rest
    (answer :: answers, last)

end Store

def Cache.store {κ ν ε : Type} [DecidableEq κ] : Store (Cache κ ν) κ ν ε where
  get := Cache.get
  insert cache now key value written := cache.insert now key value written
  getOrInsert cache now later key compute written :=
    cache.getOrInsert now later key compute written
  remove := Cache.remove
  clear := Cache.clear
  cleanUp := Cache.cleanUp

end FieldFilter
