import FieldFilter.Cache.Run

/-!
# Maps in the order of use

The plainest map with limits keeps its entries in the order in which they were last read or
written.  The one that was not used for the longest time stands first and is the one to go when
there is no room; an entry that is used goes to the end.

An entry also has its deadlines, one so long after it was written and one so long after it was last
used.  When one of them has come it is over with the entry, which goes as soon as it is looked at.

Main definitions:

* `Recency` — the limits, the entries in the order of use, and the counts;
* `Recency.deadlines`, `Recency.isOver` — until when an entry is good;
* `Recency.get`, `Recency.insert`, `Recency.getOrInsert`, `Recency.remove`, `Recency.clear`,
  `Recency.cleanUp` — the operations;
* `Recency.store` — the map as a store.
-/

namespace FieldFilter

/-- A map with limits.  No two entries have one key. -/
structure Recency (κ ν : Type) where
  limits : Limits
  /-- The entries in the order in which they were last read or written. -/
  entries : List (Cache.Entry κ ν)
  hits : Nat
  misses : Nat
  evictions : Nat

namespace Recency

variable {κ ν ε : Type}

def empty (limits : Limits) : Recency κ ν :=
  ⟨limits, [], 0, 0, 0⟩

/-- Whether there is no room for another key. -/
def isFull (map : Recency κ ν) : Bool :=
  match map.limits.maximumSize with
  | none => false
  | some size => size ≤ map.entries.length

/-- The instants from which on an entry is too old: one counts from the time it was written, the
other from the time it was last read or written. -/
def deadlines (limits : Limits) (entry : Cache.Entry κ ν) : List Nat :=
  (limits.expireAfterWrite.map (entry.written + · * Cache.millisecond)).toList
    ++ (limits.expireAfterAccess.map (entry.touched + · * Cache.millisecond)).toList

/-- Whether a deadline of an entry has come. -/
def isOver (limits : Limits) (now : Nat) (entry : Cache.Entry κ ν) : Bool :=
  (deadlines limits entry).any (· ≤ now)

/-- A map without the entries that are too old; each is an eviction. -/
def cleanUp (map : Recency κ ν) (now : Nat) : Recency κ ν :=
  { map with
    entries := map.entries.filter fun entry => !isOver map.limits now entry
    evictions := map.evictions + map.entries.countP (isOver map.limits now) }

/-- A map without the entry that was not used for the longest time. -/
def dropFirst (map : Recency κ ν) : Recency κ ν :=
  { map with
    entries := map.entries.tail
    evictions := map.evictions + 1 }

def clear (map : Recency κ ν) : Recency κ ν :=
  { map with entries := [] }

variable [DecidableEq κ]

def find? (map : Recency κ ν) (key : κ) : Option (Cache.Entry κ ν) :=
  map.entries.find? fun entry => entry.key = key

/-- The value of a key, and the map after the look-up.  An entry that is read goes to the end, and
one that is too old is dropped. -/
def get (map : Recency κ ν) (now : Nat) (key : κ) : Option ν × Recency κ ν :=
  match map.find? key with
  | none => (none, { map with misses := map.misses + 1 })
  | some entry =>
    if isOver map.limits now entry then
      (none, { map with
        entries := Cache.without map.entries key
        misses := map.misses + 1
        evictions := map.evictions + 1 })
    else
      (some entry.value, { map with
        entries := Cache.without map.entries key ++ [{ entry with touched := now }]
        hits := map.hits + 1 })

/-- A map with room for a key: one that is full and does not hold the key drops what is too old,
and only if it is still full the entry that was not used for the longest time. -/
def makeRoom (map : Recency κ ν) (now : Nat) (key : κ) : Recency κ ν :=
  if map.isFull && !(map.find? key).isSome then
    if (map.cleanUp now).isFull then (map.cleanUp now).dropFirst else map.cleanUp now
  else map

/-- A map with a value for a key, which is used last.  Nothing is kept in a map of size zero. -/
def insert (map : Recency κ ν) (now : Nat) (key : κ) (value : ν) (written : Nat) :
    Recency κ ν :=
  if map.limits.isDisabled then map
  else
    { map.makeRoom now key with
      entries := Cache.without (map.makeRoom now key).entries key
        ++ [⟨key, value, written, written⟩] }

/-- The value of a key, computed and kept if there is none; a failed computation leaves nothing. -/
def getOrInsert (map : Recency κ ν) (now later : Nat) (key : κ) (compute : Except ε ν)
    (written : Nat) : Except ε ν × Recency κ ν :=
  match map.get now key with
  | (some value, map) => (.ok value, map)
  | (none, map) =>
    match compute with
    | .error fault => (.error fault, map)
    | .ok value => (.ok value, map.insert later key value written)

/-- The value of a key, be it too old, and the map without it. -/
def remove (map : Recency κ ν) (key : κ) : Option ν × Recency κ ν :=
  ((map.find? key).map (·.value), { map with entries := Cache.without map.entries key })

def store : Store (Recency κ ν) κ ν ε where
  get := get
  insert := insert
  getOrInsert := getOrInsert
  remove := remove
  clear := clear
  cleanUp := cleanUp

end Recency

end FieldFilter
