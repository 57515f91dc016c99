import FieldFilter.Cache.Limits

/-!
# Caches with limits

A cache keeps values by key until it is full or they are too old.  Time is told by the caller, in
nanoseconds; every operation that reads or writes an entry is given the time it happens at.  An
insertion makes room at one time and writes at another, the same unless told otherwise.

**Expiry.**  An entry is expired once its age since it was written, or since it was last read,
has reached the limit.  It stays where it is until someone looks at it: a look-up drops it, and
so does a clean-up.

**Room.**  A new key in a full cache first has all expired entries dropped and then, if the
cache is still full, the entries that were not read for the longest time, until there is room.  A
quarter of the entries is dropped at most, and one at least.

**Counts.**  A look-up is a hit or a miss.  Every entry that is dropped for its age or for room
is an eviction; one that is removed, cleared or overwritten is not.  The counts have no bound.  With
sixty-four bits for each nothing would change: an operation looks up or puts in one key at most, and
an entry is dropped once, so even with an operation in every nanosecond the bound is centuries away.

Main definitions:

* `Cache`, `Cache.Entry` — the entries with their times, and the counts;
* `Cache.get`, `Cache.insert`, `Cache.getOrInsert`, `Cache.remove`, `Cache.clear`,
  `Cache.cleanUp` — the operations;
* `Cache.Stats`, `Cache.stats` — what a cache tells about itself.
-/

namespace FieldFilter

/-- A kept value, the time it was written and the time it was last read or written. -/
structure Cache.Entry (κ ν : Type) where
  key : κ
  value : ν
  written : Nat
  touched : Nat
  deriving Repr

/-- A cache: its limits, its entries, and what happened so far.  No two entries have one key. -/
structure Cache (κ ν : Type) where
  limits : Limits
  entries : List (Cache.Entry κ ν)
  hits : Nat
  misses : Nat
  evictions : Nat
  deriving Repr

namespace Cache

variable {κ ν ε : Type}

def empty (limits : Limits) : Cache κ ν :=
  ⟨limits, [], 0, 0, 0⟩

def millisecond : Nat := 1000000

/-- Whether the time since an instant has reached a limit, if there is one. -/
def hasElapsed (limit : Option Nat) (since now : Nat) : Bool :=
  match limit with
  | none => false
  | some limit => limit * millisecond ≤ now - since

def isExpired (limits : Limits) (now : Nat) (entry : Entry κ ν) : Bool :=
  hasElapsed limits.expireAfterWrite entry.written now
    || hasElapsed limits.expireAfterAccess entry.touched now

/-- Entries in the order in which they were last read, the one that was not for the longest time
first. -/
def byRecency (entries : List (Entry κ ν)) : List (Entry κ ν) :=
  entries.mergeSort fun a b => a.touched ≤ b.touched

/-- A cache without the entries that are too old; each is an eviction. -/
def cleanUp (cache : Cache κ ν) (now : Nat) : Cache κ ν :=
  let live := cache.entries.filter fun entry => !isExpired cache.limits now entry
  { cache with
    entries := live
    evictions := cache.evictions + (cache.entries.length - live.length) }

/-- A cache without entries; the counts stay. -/
def clear (cache : Cache κ ν) : Cache κ ν :=
  { cache with entries := [] }

variable [DecidableEq κ]

def find? (cache : Cache κ ν) (key : κ) : Option (Entry κ ν) :=
  cache.entries.find? fun entry => entry.key = key

/-- Whether a key has an entry, be it too old. -/
def contains (cache : Cache κ ν) (key : κ) : Bool :=
  (cache.find? key).isSome

def without (entries : List (Entry κ ν)) (key : κ) : List (Entry κ ν) :=
  entries.filter fun entry => entry.key ≠ key

/-- The value of a key, and the cache after the look-up.  A hit makes the entry the one that was
read last. -/
def get (cache : Cache κ ν) (now : Nat) (key : κ) : Option ν × Cache κ ν :=
  if cache.limits.isDisabled then (none, { cache with misses := cache.misses + 1 })
  else
    match cache.find? key with
    | none => (none, { cache with misses := cache.misses + 1 })
    | some entry =>
      if isExpired cache.limits now entry then
        (none, { cache with
          entries := without cache.entries key
          misses := cache.misses + 1
          evictions := cache.evictions + 1 })
      else
        (some entry.value, { cache with
          entries := cache.entries.map fun e => if e.key = key then { e with touched := now } else e
          hits := cache.hits + 1 })

/-- A cache from which entries are dropped one after the other, until fewer than `size` are left or
there is none to drop; each is an eviction. -/
def dropUntil (size : Nat) : List (Entry κ ν) → Cache κ ν → Cache κ ν
  | [], cache => cache
  | candidate :: rest, cache =>
    if cache.contains candidate.key then
      let dropped : Cache κ ν := { cache with
        entries := without cache.entries candidate.key
        evictions := cache.evictions + 1 }
      if dropped.entries.length < size then dropped else dropUntil size rest dropped
    else dropUntil size rest cache

/-- A cache from which those entries are dropped that were not read for the longest time, until
fewer than `size` are left.  At most a quarter of the entries is dropped, and at least one. -/
def evict (cache : Cache κ ν) (size : Nat) : Cache κ ν :=
  dropUntil size ((byRecency cache.entries).take (max 1 (cache.entries.length / 4))) cache

/-- A cache with room for a key: one that is full and does not hold the key drops what is too
old, and if that is not enough what was not read for the longest time. -/
def makeRoom (cache : Cache κ ν) (now : Nat) (key : κ) (size : Nat) : Cache κ ν :=
  if size ≤ cache.entries.length && !cache.contains key then
    let cleaned := cache.cleanUp now
    if size ≤ cleaned.entries.length then cleaned.evict size else cleaned
  else cache

/-- A cache with an entry written now; an earlier entry of the key is overwritten. -/
def write (cache : Cache κ ν) (now : Nat) (key : κ) (value : ν) : Cache κ ν :=
  { cache with entries := without cache.entries key ++ [⟨key, value, now, now⟩] }

/-- A cache with a value for a key.  Nothing is kept in a cache of size zero.  Room is made at the
time `now` and the value is written at the time `written`. -/
def insert (cache : Cache κ ν) (now : Nat) (key : κ) (value : ν) (written : Nat := now) :
    Cache κ ν :=
  match cache.limits.maximumSize with
  | none => cache.write written key value
  | some 0 => cache
  | some size => (cache.makeRoom now key size).write written key value

/-- The value of a key, computed and kept if there is none; a failed computation leaves nothing.
The look-up happens at the time `now`, and room is made and the value written at the times `later`
and `written`. -/
def getOrInsert (cache : Cache κ ν) (now later : Nat) (key : κ) (compute : Except ε ν)
    (written : Nat := later) : Except ε ν × Cache κ ν :=
  match cache.get now key with
  | (some value, cache) => (.ok value, cache)
  | (none, cache) =>
    match compute with
    | .error fault => (.error fault, cache)
    | .ok value => (.ok value, cache.insert later key value written)

/-- The value of a key, be it too old, and the cache without it. -/
def remove (cache : Cache κ ν) (key : κ) : Option ν × Cache κ ν :=
  ((cache.find? key).map (·.value), { cache with entries := without cache.entries key })

/-! ## What a cache tells about itself -/

structure Stats where
  hits : Nat
  misses : Nat
  evictions : Nat
  entries : Nat
  deriving DecidableEq, Repr

omit [DecidableEq κ] in
def stats (cache : Cache κ ν) : Stats :=
  ⟨cache.hits, cache.misses, cache.evictions, cache.entries.length⟩

end Cache

end FieldFilter
