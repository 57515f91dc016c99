import FieldFilter.Cache.Tally
import FieldFilter.Proofs.CacheContents
import Mathlib.Data.List.Nodup

/-!
# The counts of a cache balance

No entry of a cache is lost or counted twice.  Evictions are counted in three places: an entry that
a look-up finds too old, the entries that a clean-up finds too old, and the entries that are dropped
for room, of which the latter two happen in the midst of an insertion.  What is common to them is
said once, by the relation `Cache.Balances` between a cache and what it becomes: the entries and
evictions of the one, with the keys that were added, are the entries and evictions of the other, with
what was removed and cleared.  It holds of every operation, and it composes.

For this the keys have to be distinct, which is part of the relation; then the entry of a key is one
entry.  The times of the operations do not matter.

* `Cache.Distinct` — no two entries have one key.
* `Cache.Balances`, `Cache.Balances.trans` — the relation, and one after another.
* `Cache.balances_get`, `Cache.balances_insert`, … — each operation.
* **`Cache.hits_add_misses_after`** — the counts after any run from an empty cache.
-/

namespace FieldFilter.Cache

variable {κ ν ε : Type}

/-- No two entries have one key. -/
def Distinct (cache : Cache κ ν) : Prop :=
  (cache.entries.map (·.key)).Nodup

/-- What was counted accounts for what a cache has become. -/
structure Balances (tally : Tally) (cache next : Cache κ ν) : Prop where
  distinct : next.Distinct
  lookups : next.hits + next.misses = cache.hits + cache.misses + tally.lookups
  entries : cache.entries.length + cache.evictions + tally.added
    = next.entries.length + next.evictions + tally.removed + tally.cleared

namespace Balances

variable {tally more : Tally} {cache next last : Cache κ ν}

theorem refl (h : cache.Distinct) : Balances .none cache cache :=
  ⟨h, rfl, rfl⟩

theorem trans (h : Balances tally cache next) (hmore : Balances more next last) :
    Balances (tally.add more) cache last where
  distinct := hmore.distinct
  lookups := by
    have hfirst := h.lookups
    have hsecond := hmore.lookups
    simp only [Tally.add]
    omega
  entries := by
    have hfirst := h.entries
    have hsecond := hmore.entries
    simp only [Tally.add]
    omega

end Balances

/-! ## Dropping entries -/

variable {cache : Cache κ ν}

theorem Distinct.filter (h : cache.Distinct) (keep : Entry κ ν → Bool) :
    ((cache.entries.filter keep).map (·.key)).Nodup :=
  h.sublist (List.filter_sublist.map _)

/-- Every entry that a clean-up drops is an eviction. -/
theorem balances_cleanUp (h : cache.Distinct) (now : Nat) :
    Balances .none cache (cache.cleanUp now) where
  distinct := h.filter _
  lookups := rfl
  entries := by
    have hfewer := List.length_filter_le (fun entry => !isExpired cache.limits now entry)
      cache.entries
    simp only [cleanUp, Tally.none]
    omega

variable [DecidableEq κ]

/-- Where keys are distinct, the entry of a key is one entry. -/
theorem Distinct.length_without (h : cache.Distinct) (key : κ) :
    (without cache.entries key).length + (if cache.contains key then 1 else 0)
      = cache.entries.length := by
  have hcontains : (cache.contains key = true) ↔ key ∈ cache.entries.map (·.key) := by
    simp [contains, find?]
  have hcount : cache.entries.countP (fun entry => decide (¬ decide (entry.key ≠ key) = true))
      = if cache.contains key then 1 else 0 := by
    simp only [hcontains]
    rw [← List.Nodup.count h, List.count, List.countP_map]
    refine List.countP_congr fun entry _ => ?_
    simp
  rw [without, ← List.countP_eq_length_filter, ← hcount]
  exact (List.length_eq_countP_add_countP fun entry : Entry κ ν => decide (entry.key ≠ key)).symm

/-- Dropping the entry of a key that is there is one eviction. -/
theorem balances_drop (h : cache.Distinct) {key : κ} (hcontains : cache.contains key = true) :
    Balances .none cache
      { cache with
        entries := without cache.entries key
        evictions := cache.evictions + 1 } where
  distinct := h.filter _
  lookups := rfl
  entries := by
    have hlength := h.length_without key
    rw [if_pos hcontains] at hlength
    simp only [Tally.none]
    omega

theorem balances_dropUntil (h : cache.Distinct) (size : Nat) (candidates : List (Entry κ ν)) :
    Balances .none cache (dropUntil size candidates cache) := by
  induction candidates generalizing cache with
  | nil => exact .refl h
  | cons candidate rest ih =>
    rw [dropUntil]
    split
    · next hcontains =>
      have hdropped := balances_drop h hcontains
      dsimp only
      split
      · exact hdropped
      · exact hdropped.trans (ih hdropped.distinct)
    · exact ih h

theorem balances_makeRoom (h : cache.Distinct) (now : Nat) (key : κ) (size : Nat) :
    Balances .none cache (cache.makeRoom now key size) := by
  have hcleaned := balances_cleanUp h now
  rw [makeRoom]
  split
  · dsimp only
    split
    · exact hcleaned.trans (balances_dropUntil hcleaned.distinct size _)
    · exact hcleaned
  · exact .refl h

/-! ## The operations -/

/-- **A look-up** is a hit or a miss, and an entry that is too old is an eviction. -/
theorem balances_get (h : cache.Distinct) (now : Nat) (key : κ) :
    Balances { Tally.none with lookups := 1 } cache (cache.get now key).2 := by
  have hmiss : Balances { Tally.none with lookups := 1 } cache
      { cache with misses := cache.misses + 1 } := ⟨h, rfl, rfl⟩
  rw [get]
  split
  · exact hmiss
  · split
    · exact hmiss
    · next entry hfound =>
      split
      · have hdropped := balances_drop h (congrArg Option.isSome hfound)
        exact ⟨hdropped.distinct, rfl, hdropped.entries⟩
      · -- touching an entry leaves its key
        have hkeys : ∀ e : Entry κ ν,
            (if e.key = key then { e with touched := now } else e).key = e.key := by
          intro e
          split <;> rfl
        refine ⟨?_, Nat.add_right_comm .., by simp [Tally.none]⟩
        simpa only [Distinct, List.map_map, Function.comp_def, hkeys] using h

/-- A value that is written adds a key, unless it is there. -/
theorem balances_write (h : cache.Distinct) (now : Nat) (key : κ) (value : ν) :
    Balances { Tally.none with added := if cache.contains key then 0 else 1 } cache
      (cache.write now key value) where
  distinct := by
    have hothers : key ∉ (without cache.entries key).map (·.key) := by
      simp [without]
    have hnodup : ((without cache.entries key).map (·.key)).Nodup := h.filter _
    simp only [Distinct, write, List.map_append, List.map_singleton]
    exact List.nodup_append'.2 ⟨hnodup, List.nodup_singleton _, by simpa using hothers⟩
  lookups := rfl
  entries := by
    have hlength := h.length_without key
    simp only [write, Tally.none, List.length_append, List.length_singleton]
    by_cases hcontains : cache.contains key = true
    · rw [if_pos hcontains] at hlength ⊢
      omega
    · rw [if_neg hcontains] at hlength ⊢
      omega

/-- **An insertion** makes room and writes, if it does anything. -/
theorem balances_insert (h : cache.Distinct) (now : Nat) (key : κ) (value : ν) (written : Nat) :
    Balances { Tally.none with added := cache.additions now key } cache
      (cache.insert now key value written) := by
  have hready : ∀ ready ∈ cache.recipient? now key, Balances .none cache ready := by
    intro ready hready
    rw [recipient?] at hready
    split at hready
    · cases hready
      exact .refl h
    · cases hready
    · cases hready
      exact balances_makeRoom h now key _
  rw [insert_eq, additions]
  cases hrecipient : cache.recipient? now key with
  | none => exact .refl h
  | some ready =>
    have hmade := hready ready hrecipient
    have hboth := hmade.trans (balances_write hmade.distinct written key value)
    simpa [Tally.add, Tally.none] using hboth

/-- **Looking up or computing** is one look-up, and an insertion if a value is computed. -/
theorem balances_getOrInsert (h : cache.Distinct) (now later : Nat) (key : κ)
    (compute : Except ε ν) (written : Nat) :
    Balances (cache.tallyComputing now later key compute) cache
      (cache.getOrInsert now later key compute written).2 := by
  have hget := balances_get h now key
  rw [getOrInsert_eq]
  unfold tallyComputing
  rcases hlook : cache.get now key with ⟨found, looked⟩
  rw [hlook] at hget
  cases found with
  | some value => cases compute <;> exact hget
  | none =>
    cases compute with
    | error fault => exact hget
    | ok value =>
      have hboth := hget.trans (balances_insert hget.distinct later key value written)
      simpa [Tally.add, Tally.none] using hboth

/-- **A removal** takes the entry of a key away if there is one. -/
theorem balances_remove (h : cache.Distinct) (key : κ) :
    Balances { Tally.none with removed := if (cache.remove key).1.isSome then 1 else 0 } cache
      (cache.remove key).2 where
  distinct := h.filter _
  lookups := rfl
  entries := by
    have hlength := h.length_without key
    have hanswer : (cache.remove key).1.isSome = cache.contains key := by
      simp [remove, contains]
    rw [hanswer]
    simp only [remove, Tally.none]
    omega

omit [DecidableEq κ] in
theorem balances_clear (cache : Cache κ ν) :
    Balances { Tally.none with cleared := cache.entries.length } cache cache.clear where
  distinct := List.nodup_nil
  lookups := rfl
  entries := by
    simp only [clear, Tally.none, List.length_nil]
    omega

/-- **An operation** changes a cache as it is counted. -/
theorem balances_performAt (h : cache.Distinct) (timed : Store.Timed κ ν ε) :
    Balances (cache.tally timed) cache (store.performAt cache timed).2 := by
  rcases timed with ⟨operation, start, insertion, finish⟩
  cases operation with
  | get key => exact balances_get h start key
  | insert key value => exact balances_insert h insertion key value finish
  | getOrInsert key compute => exact balances_getOrInsert h start insertion key compute finish
  | remove key => exact balances_remove h key
  | clear => exact balances_clear cache
  | cleanUp => exact balances_cleanUp h start

/-- **A run** changes a cache as it is counted. -/
theorem balances_after (h : cache.Distinct) (run : List (Store.Timed κ ν ε)) :
    Balances (cache.tallyAll run) cache (store.after cache run) := by
  induction run generalizing cache with
  | nil => exact .refl h
  | cons timed rest ih =>
    have hstep := balances_performAt h timed
    exact hstep.trans (ih hstep.distinct)

/-- A look-up is one operation, whatever comes of it. -/
theorem lookups_tally (cache : Cache κ ν) (timed : Store.Timed κ ν ε) :
    (cache.tally timed).lookups = if timed.looksUp then 1 else 0 := by
  rcases timed with ⟨operation, start, insertion, finish⟩
  cases operation with
  | getOrInsert key compute =>
    simp only [tally, tallyComputing, Store.Timed.looksUp]
    split <;> rfl
  | _ => rfl

theorem lookups_tallyAll (cache : Cache κ ν) (run : List (Store.Timed κ ν ε)) :
    (cache.tallyAll run).lookups = run.countP (·.looksUp) := by
  induction run generalizing cache with
  | nil => rfl
  | cons timed rest ih =>
    rw [tallyAll, Tally.add, lookups_tally, ih, List.countP_cons, Nat.add_comm]

/-- **The counts of a cache balance.**  After any run from an empty cache, every look-up was a hit or
a miss; and every key that was added is still there, or its entry was evicted, removed or cleared,
each of them once. -/
theorem hits_add_misses_after (limits : Limits) (run : List (Store.Timed κ ν ε)) :
    let cache := store.after (Cache.empty limits) run
    let tally := tallyAll (Cache.empty limits) run
    cache.hits + cache.misses = run.countP (·.looksUp)
      ∧ tally.added
        = cache.entries.length + cache.evictions + tally.removed + tally.cleared := by
  intro cache tally
  have hempty : (Cache.empty limits : Cache κ ν).Distinct := List.nodup_nil
  have hbalances := balances_after hempty run
  have hlookups : cache.hits + cache.misses = 0 + tally.lookups := hbalances.lookups
  have hentries : 0 + tally.added
      = cache.entries.length + cache.evictions + tally.removed + tally.cleared := hbalances.entries
  have hcount : tally.lookups = run.countP (·.looksUp) := lookups_tallyAll _ run
  rw [Nat.zero_add] at hlookups hentries
  exact ⟨hlookups.trans hcount, hentries⟩

end FieldFilter.Cache
