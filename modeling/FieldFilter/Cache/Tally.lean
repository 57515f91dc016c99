import FieldFilter.Cache.Run

/-!
# What a cache was used for

A cache counts its hits, its misses and its evictions.  Here its uses are counted from the outside:
how often something was looked up, stored under a new key, removed or cleared away.  The times that
the operations are told need not go on from one operation to the next.

Main definitions:

* `Cache.recipient?` — the cache that an insertion writes into, at the moment it does;
* `Tally` — what a cache was used for;
* `Cache.tally`, `Cache.tallyAll` — what is counted for one operation and for a run.
-/

namespace FieldFilter

namespace Store

/-- Whether an operation looks something up. -/
def Timed.looksUp {κ ν ε : Type} (timed : Timed κ ν ε) : Bool :=
  match timed.operation with
  | .get _ | .getOrInsert _ _ => true
  | _ => false

end Store

structure Tally where
  /-- Look-ups, those before a computation among them. -/
  lookups : Nat
  /-- Values that were stored under a key that was not there at that moment. -/
  added : Nat
  /-- Removals that took a value away. -/
  removed : Nat
  /-- Entries that were there when everything was cleared. -/
  cleared : Nat
  deriving DecidableEq, Repr

namespace Tally

def none : Tally :=
  ⟨0, 0, 0, 0⟩

def add (tally more : Tally) : Tally :=
  ⟨tally.lookups + more.lookups, tally.added + more.added, tally.removed + more.removed,
    tally.cleared + more.cleared⟩

end Tally

namespace Cache

variable {κ ν ε : Type} [DecidableEq κ]

/-- The cache that an insertion writes into, at the moment it does; there is none if it writes
nothing. -/
def recipient? (cache : Cache κ ν) (now : Nat) (key : κ) : Option (Cache κ ν) :=
  match cache.limits.maximumSize with
  | none => some cache
  | some 0 => none
  | some size => some (cache.makeRoom now key size)

theorem insert_eq (cache : Cache κ ν) (now : Nat) (key : κ) (value : ν) (written : Nat) :
    cache.insert now key value written
      = ((cache.recipient? now key).map fun ready => ready.write written key value).getD cache := by
  rw [insert, recipient?]
  cases cache.limits.maximumSize with
  | none => rfl
  | some size => cases size <;> rfl

/-- How many keys an insertion adds to those that are there when it writes. -/
def additions (cache : Cache κ ν) (now : Nat) (key : κ) : Nat :=
  match cache.recipient? now key with
  | none => 0
  | some ready => if ready.contains key then 0 else 1

/-- What is counted for a look-up with a computation: if nothing is found and a value is computed, it
is inserted. -/
def tallyComputing (cache : Cache κ ν) (now later : Nat) (key : κ) (compute : Except ε ν) : Tally :=
  match cache.get now key, compute with
  | (none, missed), .ok _ => ⟨1, missed.additions later key, 0, 0⟩
  | _, _ => { Tally.none with lookups := 1 }

/-- What is counted for an operation. -/
def tally (cache : Cache κ ν) (timed : Store.Timed κ ν ε) : Tally :=
  match timed.operation with
  | .get _ => { Tally.none with lookups := 1 }
  | .insert key _ => { Tally.none with added := cache.additions timed.insertion key }
  | .getOrInsert key compute => cache.tallyComputing timed.start timed.insertion key compute
  | .remove key => { Tally.none with removed := if (cache.remove key).1.isSome then 1 else 0 }
  | .clear => { Tally.none with cleared := cache.entries.length }
  | .cleanUp => Tally.none

/-- What is counted for operations that are taken one after the other. -/
def tallyAll (cache : Cache κ ν) : List (Store.Timed κ ν ε) → Tally
  | [] => Tally.none
  | timed :: rest => (cache.tally timed).add (tallyAll (store.performAt cache timed).2 rest)

end Cache

end FieldFilter
