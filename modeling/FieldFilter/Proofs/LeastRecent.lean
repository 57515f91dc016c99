import FieldFilter.Cache.Recency
import FieldFilter.Proofs.CacheContents
import Mathlib.Data.List.Nodup

/-!
# A cache forgets what was not used for the longest time

A cache does not keep its entries in the order of their use.  Every entry carries the time at which
it was last read or written, and a cache without room sorts its entries by these times and drops
the first of them until there is room again.  A map in the order of use has no need of that: its
first entry goes.  This file shows that the two cannot be told apart.

The two also say in different ways when an entry is too old.  A cache looks at the age of the entry,
a map at its deadlines.  This comes to the same only after the entry was written and used, so it
takes a clock that goes on.

* `Cache.byRecency_eq` — sorting by the times gives the order of use.
* `Cache.isExpired_eq_isOver` — the age and the deadlines of an entry.
* **`Cache.evict_eq`** — in a cache that is just full, one entry is dropped and the loop ends.
* `Cache.Follows` — the cache has the entries of the map, whose order is that of the times, and the
  same counts.
* `Cache.Follows.get`, `Cache.Follows.insert`, … — one operation.
* **`Cache.run_eq_recency`** — any run from an empty cache.
-/

namespace FieldFilter.Cache

variable {κ ν ε : Type}

/-! ## The order of use -/

/-- **Sorting by the times gives the order of use**, if no two entries were used at once. -/
theorem byRecency_eq {entries ordered : List (Entry κ ν)} (hperm : entries.Perm ordered)
    (hordered : ordered.Pairwise fun a b => a.touched < b.touched) :
    byRecency entries = ordered := by
  have hsorted : (byRecency entries).Pairwise fun a b => decide (a.touched ≤ b.touched) = true := by
    refine List.pairwise_mergeSort ?_ ?_ entries
    · intro a b c hab hbc
      simp only [decide_eq_true_eq] at hab hbc ⊢
      omega
    · intro a b
      simp only [Bool.or_eq_true, decide_eq_true_eq]
      omega
  have hweak : ordered.Pairwise fun a b => decide (a.touched ≤ b.touched) = true :=
    hordered.imp fun hlt => by simpa using Nat.le_of_lt hlt
  have hboth : (byRecency entries).Perm ordered := (List.mergeSort_perm entries _).trans hperm
  refine List.Perm.eq_of_pairwise ?_ hsorted hweak hboth
  intro a b ha hb hab hba
  -- two entries of one time are one entry, as the order of use is strict
  have htimes : a.touched = b.touched := by
    simp only [decide_eq_true_eq] at hab hba
    omega
  have hdistinct : (ordered.map (·.touched)).Nodup :=
    List.pairwise_map.2 (hordered.imp Nat.ne_of_lt)
  exact List.inj_on_of_nodup_map hdistinct (hboth.mem_iff.1 ha) hb htimes

/-! ## The age and the deadlines -/

/-- A limit has elapsed since an instant just if the instant that lies so much later has come. -/
theorem hasElapsed_eq (limit : Option Nat) {since now : Nat} (h : since ≤ now) :
    hasElapsed limit since now
      = (limit.map (since + · * millisecond)).toList.any (· ≤ now) := by
  cases limit with
  | none => rfl
  | some limit =>
    simp only [hasElapsed, Option.map_some, Option.toList_some, List.any_cons, List.any_nil,
      Bool.or_false, decide_eq_decide]
    omega

/-- **An entry has come of age just if one of its deadlines has come**, from the time on at which it
was last used. -/
theorem isExpired_eq_isOver (limits : Limits) {now : Nat} {entry : Entry κ ν}
    (hwritten : entry.written ≤ entry.touched) (htouched : entry.touched ≤ now) :
    isExpired limits now entry = Recency.isOver limits now entry := by
  rw [isExpired, Recency.isOver, Recency.deadlines, List.any_append,
    hasElapsed_eq _ (Nat.le_trans hwritten htouched), hasElapsed_eq _ htouched]

/-! ## The cache and the map in the order of use -/

/-- A cache has the limits and the entries of a map in the order of use, and its counts.  The order
is that of the times, none of which lies after `clock`, and nothing was used before it was
written. -/
structure Follows (limits : Limits) (clock : Nat) (map : Recency κ ν) (cache : Cache κ ν) :
    Prop where
  cacheLimits : cache.limits = limits
  mapLimits : map.limits = limits
  entries : cache.entries.Perm map.entries
  ordered : map.entries.Pairwise fun a b => a.touched < b.touched
  past : ∀ entry ∈ map.entries, entry.touched ≤ clock
  written : ∀ entry ∈ map.entries, entry.written ≤ entry.touched
  keys : (map.entries.map (·.key)).Nodup
  bounded : ∀ size, limits.maximumSize = some size → map.entries.length ≤ size
  hits : cache.hits = map.hits
  misses : cache.misses = map.misses
  evictions : cache.evictions = map.evictions

namespace Follows

variable {limits : Limits} {clock now : Nat} {map : Recency κ ν} {cache : Cache κ ν}

theorem empty (limits : Limits) (clock : Nat) :
    Follows limits clock (Recency.empty limits : Recency κ ν) (Cache.empty limits) := by
  constructor <;> simp [Recency.empty, Cache.empty]

theorem limits_eq (h : Follows limits clock map cache) : cache.limits = map.limits :=
  h.cacheLimits.trans h.mapLimits.symm

/-- What was used before a time was used before any later time. -/
theorem later (h : Follows limits clock map cache) (hle : clock ≤ now) :
    Follows limits now map cache :=
  { h with past := fun entry hmem => Nat.le_trans (h.past entry hmem) hle }

/-- A miss shows in the count alone. -/
theorem miss (h : Follows limits clock map cache) :
    Follows limits clock { map with misses := map.misses + 1 }
      { cache with misses := cache.misses + 1 } :=
  { h with misses := by simp [h.misses] }

/-- Leaving out the entries of the map and of the cache that have a property, and counting some of
them, keeps the two together. -/
theorem filter (h : Follows limits clock map cache) (keep : Entry κ ν → Bool)
    (misses evictions : Nat) :
    Follows limits clock
      { map with
        entries := map.entries.filter keep
        misses := map.misses + misses
        evictions := map.evictions + evictions }
      { cache with
        entries := cache.entries.filter keep
        misses := cache.misses + misses
        evictions := cache.evictions + evictions } where
  cacheLimits := h.cacheLimits
  mapLimits := h.mapLimits
  entries := h.entries.filter keep
  ordered := h.ordered.filter keep
  past := fun entry hmem => h.past entry (List.mem_filter.1 hmem).1
  written := fun entry hmem => h.written entry (List.mem_filter.1 hmem).1
  keys := h.keys.sublist (List.filter_sublist.map _)
  bounded := fun size hsize => Nat.le_trans (List.length_filter_le _ _) (h.bounded size hsize)
  hits := h.hits
  misses := by rw [h.misses]
  evictions := by rw [h.evictions]

/-- Cache and map agree on which entries are too old. -/
theorem isExpired_eq (h : Follows limits clock map cache) (hle : clock ≤ now) {entry : Entry κ ν}
    (hmem : entry ∈ map.entries) :
    isExpired cache.limits now entry = Recency.isOver map.limits now entry := by
  rw [h.limits_eq]
  exact isExpired_eq_isOver _ (h.written entry hmem) (Nat.le_trans (h.past entry hmem) hle)

/-- Without what is too old, a cache has lost as many entries as the map. -/
theorem cleanUp (h : Follows limits clock map cache) (hle : clock ≤ now) :
    Follows limits clock (map.cleanUp now) (cache.cleanUp now) := by
  have hkeep : (cache.entries.filter fun entry => !isExpired cache.limits now entry)
      = cache.entries.filter fun entry => !Recency.isOver map.limits now entry :=
    List.filter_congr fun entry hmem =>
      congrArg not (h.isExpired_eq hle (h.entries.mem_iff.1 hmem))
  have hcount : cache.entries.length
        - (cache.entries.filter fun entry => !Recency.isOver map.limits now entry).length
      = map.entries.countP (Recency.isOver map.limits now) := by
    have hsplit : cache.entries.length = cache.entries.countP (Recency.isOver map.limits now)
        + cache.entries.countP fun entry => !Recency.isOver map.limits now entry := by
      simpa using List.length_eq_countP_add_countP (Recency.isOver map.limits now)
    rw [← List.countP_eq_length_filter, hsplit, h.entries.countP_eq]
    omega
  simp only [Cache.cleanUp, Recency.cleanUp, hkeep, hcount]
  exact h.filter (fun entry => !Recency.isOver map.limits now entry) 0
    (map.entries.countP (Recency.isOver map.limits now))

end Follows

/-! ## Entries with distinct keys -/

variable [DecidableEq κ]

section Entries

variable {entries others : List (Entry κ ν)} {key : κ}

/-- Where no two entries have one key, an entry is found under its key. -/
theorem find?_eq_some_iff (hkeys : (entries.map (·.key)).Nodup) {entry : Entry κ ν} :
    (entries.find? fun e => e.key = key) = some entry ↔ entry ∈ entries ∧ entry.key = key := by
  constructor
  · intro hfound
    exact ⟨List.mem_of_find?_eq_some hfound, by simpa using List.find?_some hfound⟩
  · rintro ⟨hmem, hkey⟩
    cases hfound : entries.find? fun e => e.key = key with
    | none =>
        have hne := List.find?_eq_none.1 hfound entry hmem
        simp [hkey] at hne
    | some found =>
        have hsame : found.key = entry.key := by
          rw [hkey]
          simpa using List.find?_some hfound
        rw [List.inj_on_of_nodup_map hkeys (List.mem_of_find?_eq_some hfound) hmem hsame]

/-- What is found does not depend on the order of the entries. -/
theorem find?_eq_of_perm (hperm : entries.Perm others) (hkeys : (others.map (·.key)).Nodup) :
    (entries.find? fun e => e.key = key) = others.find? fun e => e.key = key := by
  have hkeys' : (entries.map (·.key)).Nodup := (hperm.map _).nodup_iff.2 hkeys
  ext entry
  rw [find?_eq_some_iff hkeys', find?_eq_some_iff hkeys, hperm.mem_iff]

theorem without_eq_self (h : ∀ entry ∈ entries, entry.key ≠ key) : without entries key = entries :=
  List.filter_eq_self.2 fun entry hmem => by simpa using h entry hmem

/-- Only the first entry has the key of the first entry. -/
theorem without_cons_self {entry : Entry κ ν}
    (hkeys : ((entry :: entries).map (·.key)).Nodup) :
    without (entry :: entries) entry.key = entries := by
  obtain ⟨hentry, -⟩ := List.nodup_cons.1 hkeys
  have hrest : ∀ other ∈ entries, other.key ≠ entry.key := by
    intro other hmem hsame
    exact hentry (List.mem_map.2 ⟨other, hmem, hsame⟩)
  have hskip : without (entry :: entries) entry.key = without entries entry.key := by
    simp [without]
  rw [hskip, without_eq_self hrest]

/-- Touching an entry in its place is, up to the order, moving it to the end. -/
theorem touch_perm (hkeys : (entries.map (·.key)).Nodup) {entry : Entry κ ν}
    (hmem : entry ∈ entries) (now : Nat) :
    (entries.map fun e => if e.key = entry.key then { e with touched := now } else e).Perm
      (without entries entry.key ++ [{ entry with touched := now }]) := by
  induction entries with
  | nil => simp at hmem
  | cons head rest ih =>
      obtain ⟨hhead, hrest⟩ := List.nodup_cons.1 hkeys
      have hothers : ∀ other ∈ rest, other.key ≠ head.key := by
        intro other hother hsame
        exact hhead (List.mem_map.2 ⟨other, hother, hsame⟩)
      rcases List.mem_cons.1 hmem with rfl | hlater
      · have hsame : (rest.map fun e => if e.key = entry.key then { e with touched := now } else e)
            = rest := by
          calc rest.map (fun e => if e.key = entry.key then { e with touched := now } else e)
              = rest.map id := List.map_congr_left fun e he => if_neg (hothers e he)
            _ = rest := List.map_id rest
        rw [List.map_cons, if_pos rfl, hsame, without_cons_self hkeys]
        exact (List.perm_append_singleton _ _).symm
      · have hne : head.key ≠ entry.key := (hothers entry hlater).symm
        have hkept : without (head :: rest) entry.key = head :: without rest entry.key := by
          simp [without, hne]
        rw [List.map_cons, if_neg hne, hkept, List.cons_append]
        exact (ih hrest hlater).cons head

end Entries

/-- **A cache that is just full drops one entry**, the one that was not used for the longest time,
although it might drop a quarter of its entries. -/
theorem evict_eq {cache : Cache κ ν} {oldest : Entry κ ν} {rest : List (Entry κ ν)} {size : Nat}
    (hperm : cache.entries.Perm (oldest :: rest))
    (hordered : (oldest :: rest).Pairwise fun a b => a.touched < b.touched)
    (hkeys : ((oldest :: rest).map (·.key)).Nodup) (hsize : rest.length < size) :
    cache.evict size
      = { cache with
          entries := without cache.entries oldest.key
          evictions := cache.evictions + 1 } := by
  obtain ⟨quarter, hquarter⟩ : ∃ quarter, max 1 (cache.entries.length / 4) = quarter + 1 :=
    ⟨max 1 (cache.entries.length / 4) - 1, by omega⟩
  have hheld : cache.contains oldest.key = true := by
    have hfound : cache.find? oldest.key = some oldest :=
      (find?_eq_of_perm hperm hkeys).trans (by simp)
    rw [contains, hfound]
    rfl
  have hleft : (without cache.entries oldest.key).length < size := by
    have hrest : (without cache.entries oldest.key).Perm rest := by
      have hfiltered := hperm.filter fun entry => decide (entry.key ≠ oldest.key)
      rwa [show (oldest :: rest).filter (fun entry => decide (entry.key ≠ oldest.key)) = rest from
        without_cons_self hkeys] at hfiltered
    rw [hrest.length_eq]
    exact hsize
  rw [evict, byRecency_eq hperm hordered, hquarter, List.take_succ_cons, dropUntil, if_pos hheld]
  exact if_pos hleft

/-! ## One operation -/

namespace Follows

variable {limits : Limits} {clock now : Nat} {map : Recency κ ν} {cache : Cache κ ν}

/-- Both find the same under a key. -/
theorem find?_eq (h : Follows limits clock map cache) (key : κ) : cache.find? key = map.find? key :=
  find?_eq_of_perm h.entries h.keys

/-- An entry that is used now comes last in the order of use. -/
theorem use (h : Follows limits clock map cache) (entry : Entry κ ν)
    (hlater : clock < entry.touched) (hwritten : entry.written ≤ entry.touched)
    (hroom : ∀ size, limits.maximumSize = some size →
      (without map.entries entry.key).length < size)
    {entries : List (Entry κ ν)}
    (hperm : entries.Perm (without map.entries entry.key ++ [entry])) (hits : Nat) :
    Follows limits entry.touched
      { map with
        entries := without map.entries entry.key ++ [entry]
        hits := map.hits + hits }
      { cache with
        entries := entries
        hits := cache.hits + hits } where
  cacheLimits := h.cacheLimits
  mapLimits := h.mapLimits
  entries := hperm
  ordered := by
    refine List.pairwise_append.2 ⟨h.ordered.filter _, List.pairwise_singleton _ _, ?_⟩
    intro other hother last hlast
    have hpast := h.past other (without_subset _ _ hother)
    obtain rfl := List.mem_singleton.1 hlast
    omega
  past := by
    intro other hother
    rcases List.mem_append.1 hother with hold | hlast
    · have hpast := h.past other (without_subset _ _ hold)
      omega
    · obtain rfl := List.mem_singleton.1 hlast
      exact Nat.le_refl _
  written := by
    intro other hother
    rcases List.mem_append.1 hother with hold | hlast
    · exact h.written other (without_subset _ _ hold)
    · obtain rfl := List.mem_singleton.1 hlast
      exact hwritten
  keys := by
    rw [List.map_append, List.nodup_append']
    refine ⟨h.keys.sublist (List.filter_sublist.map _), by simp, ?_⟩
    intro key hold hlast
    obtain ⟨other, hother, rfl⟩ := List.mem_map.1 hold
    have hne : other.key ≠ entry.key := of_decide_eq_true (List.mem_filter.1 hother).2
    exact hne (List.mem_singleton.1 hlast)
  bounded := by
    intro size hsize
    have hless := hroom size hsize
    simp only [List.length_append, List.length_singleton]
    omega
  hits := by rw [h.hits]
  misses := h.misses
  evictions := h.evictions

/-- Without the entry of a key there is room for one. -/
theorem room_of_mem (h : Follows limits clock map cache) {entry : Entry κ ν}
    (hmem : entry ∈ map.entries) {size : Nat} (hsize : limits.maximumSize = some size) :
    (without map.entries entry.key).length < size := by
  have hfewer : (without map.entries entry.key).length < map.entries.length :=
    List.length_filter_lt_length_iff_exists.2 ⟨entry, hmem, by simp⟩
  have hbounded := h.bounded size hsize
  omega

/-- **A look-up** finds the same in both, or the same entry is too old. -/
theorem get (h : Follows limits clock map cache) (hlt : clock < now) (key : κ) :
    (cache.get now key).1 = (map.get now key).1
      ∧ Follows limits now (map.get now key).2 (cache.get now key).2 := by
  have hnow := h.later (Nat.le_of_lt hlt)
  simp only [Cache.get, Recency.get]
  split
  · next hdisabled =>
    -- a cache of size zero does not look, and there would be nothing to find
    have hempty : map.entries = [] := by
      have hsize : limits.maximumSize = some 0 := by
        simpa [Limits.isDisabled, h.cacheLimits] using hdisabled
      exact List.length_eq_zero_iff.1 (Nat.le_zero.1 (h.bounded 0 hsize))
    have hnone : map.find? key = none := by simp [Recency.find?, hempty]
    rw [hnone]
    exact ⟨rfl, hnow.miss⟩
  · rw [h.find?_eq key]
    cases hfound : map.find? key with
    | none => exact ⟨rfl, hnow.miss⟩
    | some entry =>
        obtain ⟨hmem, rfl⟩ := (find?_eq_some_iff h.keys).1 hfound
        simp only [h.isExpired_eq (Nat.le_of_lt hlt) hmem]
        split
        · exact ⟨rfl, hnow.filter (fun other => decide (other.key ≠ entry.key)) 1 1⟩
        · refine ⟨rfl, ?_⟩
          have hcacheKeys : (cache.entries.map (·.key)).Nodup :=
            (h.entries.map _).nodup_iff.2 h.keys
          have hperm := (touch_perm hcacheKeys (h.entries.mem_iff.2 hmem) now).trans
            ((h.entries.filter _).append_right _)
          have hwritten : entry.written ≤ now :=
            Nat.le_trans (h.written entry hmem) (hnow.past entry hmem)
          exact h.use { entry with touched := now } hlt hwritten
            (fun size hsize => h.room_of_mem hmem hsize) hperm 1

/-- Without the first of its entries a full cache has room. -/
theorem evict (h : Follows limits clock map cache) {size : Nat}
    (hsize : limits.maximumSize = some size) (hpos : 0 < size)
    (hfull : size ≤ map.entries.length) :
    Follows limits clock map.dropFirst (cache.evict size)
      ∧ map.dropFirst.entries.length < size := by
  have hbounded := h.bounded size hsize
  obtain ⟨oldest, rest, hentries⟩ : ∃ oldest rest, map.entries = oldest :: rest :=
    List.exists_cons_of_length_pos (Nat.lt_of_lt_of_le hpos hfull)
  have hperm := h.entries
  have hordered := h.ordered
  have hkeys := h.keys
  rw [hentries] at hperm hordered hkeys hbounded
  have hrest : rest.length < size := hbounded
  have hdropped := h.filter (fun entry => decide (entry.key ≠ oldest.key)) 0 1
  have hleft : (map.entries.filter fun entry => decide (entry.key ≠ oldest.key)) = rest := by
    rw [hentries]
    exact without_cons_self hkeys
  rw [hleft] at hdropped
  rw [evict_eq hperm hordered hkeys hrest, Recency.dropFirst, hentries]
  exact ⟨hdropped, hrest⟩

/-- **Making room** drops the same entries, and there is room for the key afterwards. -/
theorem makeRoom (h : Follows limits clock map cache) {size : Nat}
    (hsize : limits.maximumSize = some size) (hpos : 0 < size) (hle : clock ≤ now) (key : κ) :
    Follows limits clock (map.makeRoom now key) (cache.makeRoom now key size)
      ∧ (without (map.makeRoom now key).entries key).length < size := by
  have hfull : ∀ other : Recency κ ν, other.limits = limits →
      other.isFull = decide (size ≤ other.entries.length) := by
    intro other hlimits
    rw [Recency.isFull, hlimits, hsize]
  have hcleaned := h.cleanUp hle
  have hcleanedFull := hfull (map.cleanUp now) hcleaned.mapLimits
  rw [Cache.makeRoom, Recency.makeRoom, hfull map h.mapLimits, h.entries.length_eq, contains,
    h.find?_eq key]
  simp only [hcleaned.entries.length_eq, hcleanedFull, decide_eq_true_eq]
  split
  · split
    · next hstill =>
      obtain ⟨hevicted, hroom⟩ := hcleaned.evict hsize hpos hstill
      exact ⟨hevicted, Nat.lt_of_le_of_lt (List.length_filter_le _ _) hroom⟩
    · next hroom =>
      exact ⟨hcleaned, Nat.lt_of_le_of_lt (List.length_filter_le _ _) (Nat.not_le.1 hroom)⟩
  · next hfits =>
    refine ⟨h, ?_⟩
    -- there is room already, or the key has an entry that is about to be overwritten
    by_cases hroom : map.entries.length < size
    · exact Nat.lt_of_le_of_lt (List.length_filter_le _ _) hroom
    · have hheld : (map.find? key).isSome = true := by
        simpa [Nat.not_lt.1 hroom, Option.isSome_iff_ne_none] using hfits
      obtain ⟨entry, hfound⟩ := Option.isSome_iff_exists.1 hheld
      obtain ⟨hmem, rfl⟩ := (find?_eq_some_iff h.keys).1 hfound
      exact h.room_of_mem hmem hsize

/-- A value that is written now is used last. -/
theorem write (h : Follows limits clock map cache) {written : Nat} (hlt : clock < written) (key : κ)
    (value : ν)
    (hroom : ∀ size, limits.maximumSize = some size → (without map.entries key).length < size) :
    Follows limits written
      { map with entries := without map.entries key ++ [⟨key, value, written, written⟩] }
      (cache.write written key value) :=
  h.use ⟨key, value, written, written⟩ hlt (Nat.le_refl _) hroom
    ((h.entries.filter _).append_right _) 0

/-- **An insertion** drops the same entries to make room, and adds the same. -/
theorem insert (h : Follows limits clock map cache) (hle : clock ≤ now) {written : Nat}
    (hlt : clock < written) (key : κ) (value : ν) :
    Follows limits written (map.insert now key value written)
      (cache.insert now key value written) := by
  rw [Cache.insert, Recency.insert, h.cacheLimits, h.mapLimits, Limits.isDisabled]
  cases hsize : limits.maximumSize with
  | none =>
      have hplenty : map.makeRoom now key = map := by
        simp [Recency.makeRoom, Recency.isFull, h.mapLimits, hsize]
      simp only [hplenty]
      exact h.write hlt key value fun size hsome => by simp [hsize] at hsome
  | some size =>
      cases size with
      | zero => exact h.later (Nat.le_of_lt hlt)
      | succ size =>
          obtain ⟨hmade, hroom⟩ := h.makeRoom hsize (Nat.succ_pos size) hle key
          refine hmade.write hlt key value fun bound hbound => ?_
          obtain rfl := Option.some.inj (hsize.symm.trans hbound)
          exact hroom

/-- **Looking up or computing** gives the same outcome, and a failed computation leaves nothing. -/
theorem getOrInsert (h : Follows limits clock map cache) (hlt : clock < now) {later written : Nat}
    (hlater : now < later) (hwritten : later ≤ written) (key : κ) (compute : Except ε ν) :
    (cache.getOrInsert now later key compute written).1
        = (map.getOrInsert now later key compute written).1
      ∧ Follows limits written (map.getOrInsert now later key compute written).2
          (cache.getOrInsert now later key compute written).2 := by
  obtain ⟨hanswer, hafter⟩ := h.get hlt key
  have hended : now < written := Nat.lt_of_lt_of_le hlater hwritten
  rcases hlook : map.get now key with ⟨found, next⟩
  rw [hlook] at hanswer hafter
  rw [getOrInsert_eq, hanswer, Recency.getOrInsert, hlook]
  cases found with
  | some value => exact ⟨rfl, hafter.later (Nat.le_of_lt hended)⟩
  | none =>
      cases compute with
      | error fault => exact ⟨rfl, hafter.later (Nat.le_of_lt hended)⟩
      | ok value => exact ⟨rfl, hafter.insert (Nat.le_of_lt hlater) hended key value⟩

/-- **A removal** gives the same value and takes the same entry away. -/
theorem remove (h : Follows limits clock map cache) (key : κ) :
    (cache.remove key).1 = (map.remove key).1
      ∧ Follows limits clock (map.remove key).2 (cache.remove key).2 := by
  refine ⟨?_, h.filter (fun entry => decide (entry.key ≠ key)) 0 0⟩
  rw [Cache.remove, Recency.remove, h.find?_eq key]

omit [DecidableEq κ] in
theorem clear (h : Follows limits clock map cache) : Follows limits clock map.clear cache.clear :=
  { h with
    entries := List.Perm.nil
    ordered := List.Pairwise.nil
    past := by simp [Recency.clear]
    written := by simp [Recency.clear]
    keys := List.nodup_nil
    bounded := by simp [Recency.clear] }

/-! ## Any run -/

/-- **An operation** has the same answer, if its times go on from those before it. -/
theorem performAt (h : Follows limits clock map cache) (timed : Store.Timed κ ν ε)
    (hstart : clock < timed.start) (hinsertion : timed.start < timed.insertion)
    (hfinish : timed.insertion ≤ timed.finish) :
    (Cache.store.performAt cache timed).1 = (Recency.store.performAt map timed).1
      ∧ Follows limits timed.finish (Recency.store.performAt map timed).2
          (Cache.store.performAt cache timed).2 := by
  rcases timed with ⟨operation, start, insertion, finish⟩
  dsimp only at hstart hinsertion hfinish
  have hend : start < finish := Nat.lt_of_lt_of_le hinsertion hfinish
  have hpast : clock < finish := Nat.lt_trans hstart hend
  cases operation with
  | get key =>
      obtain ⟨hanswer, hafter⟩ := h.get hstart key
      exact ⟨congrArg Store.Answer.found hanswer, hafter.later (Nat.le_of_lt hend)⟩
  | insert key value =>
      exact ⟨rfl, h.insert (Nat.le_of_lt (Nat.lt_trans hstart hinsertion)) hpast key value⟩
  | getOrInsert key compute =>
      obtain ⟨hanswer, hafter⟩ := h.getOrInsert hstart hinsertion hfinish key compute
      exact ⟨congrArg Store.Answer.computed hanswer, hafter⟩
  | remove key =>
      obtain ⟨hanswer, hafter⟩ := h.remove key
      exact ⟨congrArg Store.Answer.found hanswer, hafter.later (Nat.le_of_lt hpast)⟩
  | clear => exact ⟨rfl, h.clear.later (Nat.le_of_lt hpast)⟩
  | cleanUp => exact ⟨rfl, (h.cleanUp (Nat.le_of_lt hstart)).later (Nat.le_of_lt hpast)⟩

/-- **A step** has the same answer. -/
theorem perform (h : Follows limits clock map cache) (step : Store.Step κ ν ε) :
    (Cache.store.perform cache clock step).1 = (Recency.store.perform map clock step).1
      ∧ Follows limits (step.finish clock) (Recency.store.perform map clock step).2
          (Cache.store.perform cache clock step).2 :=
  h.performAt (step.timed clock) (step.lt_start clock) (step.start_lt_insertion clock)
    (step.insertion_le_finish clock)

/-- The answers of a run are the same. -/
theorem run (h : Follows limits clock map cache) (steps : List (Store.Step κ ν ε)) :
    (Cache.store.run cache clock steps).1 = (Recency.store.run map clock steps).1
      ∧ ∃ last, Follows limits last (Recency.store.run map clock steps).2
          (Cache.store.run cache clock steps).2 := by
  induction steps generalizing clock map cache with
  | nil => exact ⟨rfl, clock, h⟩
  | cons step rest ih =>
      obtain ⟨hanswer, hafter⟩ := h.perform step
      obtain ⟨hanswers, hlast⟩ := ih hafter
      exact ⟨congrArg₂ List.cons hanswer hanswers, hlast⟩

end Follows

/-- **A cache is a map in the order of use.**  For any limits and any run from an empty cache, in
which the clock goes on from step to step: all answers are those of the map, and afterwards the
cache holds the same entries, finds the same under every key and has counted the same.  The entries
of the map stand in the order of the times at which they were used, and there are never more than
the limits allow.  As the clock may go at any pace, a limit may stand for any span of time. -/
theorem run_eq_recency (limits : Limits) (clock : Nat) (steps : List (Store.Step κ ν ε)) :
    let cached := store.run (Cache.empty limits) clock steps
    let mapped := Recency.store.run (Recency.empty limits) clock steps
    cached.1 = mapped.1
      ∧ cached.2.entries.Perm mapped.2.entries
      ∧ (∀ key, cached.2.find? key = mapped.2.find? key)
      ∧ (cached.2.hits = mapped.2.hits ∧ cached.2.misses = mapped.2.misses
        ∧ cached.2.evictions = mapped.2.evictions)
      ∧ (mapped.2.entries.Pairwise fun a b => a.touched < b.touched)
      ∧ ∀ size, limits.maximumSize = some size → cached.2.entries.length ≤ size := by
  intro cached mapped
  obtain ⟨hanswers, last, hlast⟩ := (Follows.empty limits clock).run steps
  have hbounded : ∀ size, limits.maximumSize = some size → cached.2.entries.length ≤ size := by
    intro size hsize
    rw [hlast.entries.length_eq]
    exact hlast.bounded size hsize
  exact ⟨hanswers, hlast.entries, hlast.find?_eq, ⟨hlast.hits, hlast.misses, hlast.evictions⟩,
    hlast.ordered, hbounded⟩

end FieldFilter.Cache
