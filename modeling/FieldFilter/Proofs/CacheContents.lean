import FieldFilter.Cache

/-!
# What a cache holds

A cache only ever holds what was written into it, however the writes, the look-ups and the
evictions follow each other.  So a property of keys and values that every write has is a property
of all entries at any time, and of every answer from memory.

* `Cache.Holds` — every entry of a cache has a property of its key and value.
* `Cache.holds_get`, `Cache.holds_insert`, **`Cache.holds_getOrInsert`** — the operations keep it.
* **`Cache.getOrInsert_of_holds`** — a memory that is right about a computation stands in for it.
* `Cache.insert_frame`, `Cache.requests_getOrInsert` — what the operations leave alone, and that a
  look-up or computation counts as one look-up.
* `Cache.Knows` — a cache without limits that has a value for a key, which it never loses.
-/

namespace FieldFilter.Cache

variable {κ ν ε : Type} [DecidableEq κ] {P : κ → ν → Prop} {cache : Cache κ ν}

/-- Every entry of a cache has a property of its key and value. -/
def Holds (P : κ → ν → Prop) (cache : Cache κ ν) : Prop :=
  ∀ entry ∈ cache.entries, P entry.key entry.value

omit [DecidableEq κ] in
theorem holds_empty (P : κ → ν → Prop) (limits : Limits) : (empty limits : Cache κ ν).Holds P := by
  intro entry hentry
  simp [empty] at hentry

omit [DecidableEq κ] in
theorem Holds.imp {Q : κ → ν → Prop} (h : cache.Holds P)
    (himp : ∀ key value, P key value → Q key value) : cache.Holds Q :=
  fun entry hentry => himp _ _ (h entry hentry)

omit [DecidableEq κ] in
/-- A cache with fewer entries holds no more. -/
theorem Holds.of_subset {cache' : Cache κ ν} (h : cache.Holds P)
    (hsub : cache'.entries ⊆ cache.entries) : cache'.Holds P :=
  fun entry hentry => h entry (hsub hentry)

/-- Dropping the entry of a key adds none. -/
theorem without_subset (entries : List (Entry κ ν)) (key : κ) : without entries key ⊆ entries :=
  List.filter_sublist.subset

/-! ## Reading -/

theorem find?_some {key : κ} {entry : Entry κ ν} (h : cache.find? key = some entry) :
    entry ∈ cache.entries ∧ entry.key = key :=
  ⟨List.mem_of_find?_eq_some h, by simpa using List.find?_some h⟩

theorem holds_get (h : cache.Holds P) (now : Nat) (key : κ) : (cache.get now key).2.Holds P := by
  simp only [get]
  split
  · exact h
  · split
    · exact h
    · split
      · exact h.of_subset (without_subset _ _)
      · intro touched htouched
        obtain ⟨entry, hentry, rfl⟩ := List.mem_map.1 htouched
        have hold := h entry hentry
        split <;> exact hold

/-- An answer from memory is the value of an entry. -/
theorem holds_of_get {now : Nat} {key : κ} {value : ν} (h : cache.Holds P)
    (hget : (cache.get now key).1 = some value) : P key value := by
  simp only [get] at hget
  split at hget
  · cases hget
  · split at hget
    · cases hget
    · next entry hfind =>
      split at hget
      · cases hget
      · obtain ⟨hmem, rfl⟩ := find?_some hfind
        cases hget
        exact h entry hmem

/-! ## Writing -/

omit [DecidableEq κ] in
theorem holds_cleanUp (h : cache.Holds P) (now : Nat) : (cache.cleanUp now).Holds P :=
  h.of_subset List.filter_sublist.subset

theorem holds_dropUntil (h : cache.Holds P) (size : Nat) (candidates : List (Entry κ ν)) :
    (dropUntil size candidates cache).Holds P := by
  induction candidates generalizing cache with
  | nil => exact h
  | cons candidate rest ih =>
      have hdropped : ({ cache with
          entries := without cache.entries candidate.key
          evictions := cache.evictions + 1 } : Cache κ ν).Holds P :=
        h.of_subset (without_subset _ _)
      simp only [dropUntil]
      split
      · split
        · exact hdropped
        · exact ih hdropped
      · exact ih h

theorem holds_makeRoom (h : cache.Holds P) (now : Nat) (key : κ) (size : Nat) :
    (cache.makeRoom now key size).Holds P := by
  simp only [makeRoom]
  split
  · split
    · exact holds_dropUntil (holds_cleanUp h now) _ _
    · exact holds_cleanUp h now
  · exact h

theorem holds_write (h : cache.Holds P) (now : Nat) {key : κ} {value : ν} (hwrite : P key value) :
    (cache.write now key value).Holds P := by
  intro entry hentry
  rcases List.mem_append.1 hentry with hold | hnew
  · exact h entry (without_subset _ _ hold)
  · obtain rfl := List.mem_singleton.1 hnew
    exact hwrite

theorem holds_insert (h : cache.Holds P) (now : Nat) {key : κ} {value : ν}
    (hwrite : P key value) : (cache.insert now key value).Holds P := by
  simp only [insert]
  split
  · exact holds_write h now hwrite
  · exact h
  · exact holds_write (holds_makeRoom h now key _) now hwrite

/-! ## Looking up or computing -/

/-- Looking up or computing is a look-up, and a write if there was nothing to be read. -/
theorem getOrInsert_eq (cache : Cache κ ν) (now later : Nat) (key : κ) (compute : Except ε ν)
    (written : Nat) :
    cache.getOrInsert now later key compute written
      = match (cache.get now key).1, compute with
        | some value, _ => (.ok value, (cache.get now key).2)
        | none, .error fault => (.error fault, (cache.get now key).2)
        | none, .ok value => (.ok value, (cache.get now key).2.insert later key value written) := by
  rw [getOrInsert]
  rcases cache.get now key with ⟨_ | value, after⟩
  · cases compute <;> rfl
  · rfl

/-- **Looking up or computing keeps what a cache holds**, if the computation only yields what it
may hold. -/
theorem holds_getOrInsert (h : cache.Holds P) (now later : Nat) {key : κ}
    {compute : Except ε ν} (hcompute : ∀ value, compute = .ok value → P key value) :
    (cache.getOrInsert now later key compute).2.Holds P := by
  have hget := holds_get h now key
  rw [getOrInsert_eq]
  split
  · exact hget
  · exact hget
  · exact holds_insert hget later (hcompute _ rfl)

/-- **A memory that is right about a computation stands in for it.** -/
theorem getOrInsert_of_holds (h : cache.Holds P) (now later : Nat) {key : κ}
    {compute : Except ε ν} (hright : ∀ value, P key value → compute = .ok value) :
    (cache.getOrInsert now later key compute).1 = compute := by
  rw [getOrInsert_eq]
  split
  · next hread => rw [hright _ (holds_of_get h hread)]
  · rfl
  · rfl

/-! ## The limits and the counts -/

theorem limits_get (cache : Cache κ ν) (now : Nat) (key : κ) :
    (cache.get now key).2.limits = cache.limits := by
  simp only [get]
  split
  · rfl
  · split
    · rfl
    · split <;> rfl

/-- Dropping entries changes nothing apart from them and the count of evictions. -/
theorem dropUntil_frame (cache : Cache κ ν) (size : Nat) (candidates : List (Entry κ ν)) :
    ∃ entries evictions, dropUntil size candidates cache = { cache with entries, evictions } := by
  induction candidates generalizing cache with
  | nil => exact ⟨_, _, rfl⟩
  | cons candidate rest ih =>
      simp only [dropUntil]
      split
      · split
        · exact ⟨_, _, rfl⟩
        · obtain ⟨entries, evictions, hdropped⟩ := ih { cache with
            entries := without cache.entries candidate.key
            evictions := cache.evictions + 1 }
          exact ⟨entries, evictions, hdropped⟩
      · exact ih cache

/-- An insertion changes nothing apart from the entries and the count of evictions. -/
theorem insert_frame (cache : Cache κ ν) (now : Nat) (key : κ) (value : ν) :
    ∃ entries evictions, cache.insert now key value = { cache with entries, evictions } := by
  have hroom : ∀ size, ∃ entries evictions,
      cache.makeRoom now key size = { cache with entries, evictions } := by
    intro size
    simp only [makeRoom]
    split
    · split
      · obtain ⟨entries, evictions, hdropped⟩ := dropUntil_frame (cache.cleanUp now) size
          ((byRecency (cache.cleanUp now).entries).take
            (max 1 ((cache.cleanUp now).entries.length / 4)))
        exact ⟨entries, evictions, hdropped⟩
      · exact ⟨_, _, rfl⟩
    · exact ⟨_, _, rfl⟩
  simp only [insert]
  split
  · exact ⟨_, _, rfl⟩
  · exact ⟨_, _, rfl⟩
  · next size _ _ =>
    obtain ⟨entries, evictions, hmade⟩ := hroom size
    rw [hmade]
    exact ⟨_, _, rfl⟩

theorem limits_getOrInsert (cache : Cache κ ν) (now later : Nat) (key : κ)
    (compute : Except ε ν) :
    (cache.getOrInsert now later key compute).2.limits = cache.limits := by
  have hget := limits_get cache now key
  rw [getOrInsert_eq]
  split
  · exact hget
  · exact hget
  · obtain ⟨entries, evictions, hinserted⟩ :=
      insert_frame (cache.get now key).2 later key _
    rw [hinserted]
    exact hget

/-- **Looking up or computing is one look-up**, a hit or a miss. -/
theorem requests_getOrInsert (cache : Cache κ ν) (now later : Nat) (key : κ)
    (compute : Except ε ν) :
    (cache.getOrInsert now later key compute).2.hits
        + (cache.getOrInsert now later key compute).2.misses
      = cache.hits + cache.misses + 1 := by
  have hget : (cache.get now key).2.hits + (cache.get now key).2.misses
      = cache.hits + cache.misses + 1 := by
    simp only [get]
    split
    · rfl
    · split
      · rfl
      · split
        · rfl
        · exact Nat.add_right_comm ..
  rw [getOrInsert_eq]
  split
  · exact hget
  · exact hget
  · obtain ⟨entries, evictions, hinserted⟩ :=
      insert_frame (cache.get now key).2 later key _
    rw [hinserted]
    exact hget

/-- A cache of size zero computes every time. -/
theorem getOrInsert_of_isDisabled (h : cache.limits.isDisabled = true) (now later : Nat)
    (key : κ) (compute : Except ε ν) :
    (cache.getOrInsert now later key compute).1 = compute := by
  have hget : (cache.get now key).1 = none := by simp [get, h]
  rw [getOrInsert_eq, hget]
  cases compute <;> rfl

/-! ## Without limits nothing is lost -/

/-- A cache without limits that has a value for a key. -/
structure Knows (cache : Cache κ ν) (key : κ) (value : ν) : Prop where
  unlimited : cache.limits = .unlimited
  found : (cache.find? key).map (·.value) = some value

omit [DecidableEq κ] in
theorem isExpired_unlimited (now : Nat) (entry : Entry κ ν) :
    isExpired .unlimited now entry = false := rfl

/-- Touching an entry changes no value. -/
theorem find?_touch (entries : List (Entry κ ν)) (now : Nat) (touched key : κ) :
    ((entries.map fun e => if e.key = touched then { e with touched := now } else e).find?
        fun entry => entry.key = key).map (·.value)
      = (entries.find? fun entry => entry.key = key).map (·.value) := by
  have hkey : ∀ e : Entry κ ν,
      (if e.key = touched then { e with touched := now } else e).key = e.key := by
    intro e
    split <;> rfl
  have hvalue : ∀ e : Entry κ ν,
      (if e.key = touched then { e with touched := now } else e).value = e.value := by
    intro e
    split <;> rfl
  simp only [List.find?_map, Option.map_map, Function.comp_def, hkey, hvalue]

theorem find?_without_of_ne {entries : List (Entry κ ν)} {key other : κ} (h : key ≠ other) :
    ((without entries other).find? fun entry => entry.key = key)
      = entries.find? fun entry => entry.key = key := by
  simp only [without, List.find?_filter]
  refine congrArg (List.find? · entries) (funext fun entry => ?_)
  by_cases hkey : entry.key = key
  · simp [hkey, h]
  · simp [hkey]

/-- A look-up without limits reads what there is, and leaves all values as they are. -/
theorem get_unlimited (h : cache.limits = .unlimited) (now : Nat) (key : κ) :
    (cache.get now key).1 = (cache.find? key).map (·.value)
      ∧ ∀ other, ((cache.get now key).2.find? other).map (·.value)
          = (cache.find? other).map (·.value) := by
  have hdisabled : Limits.unlimited.isDisabled = false := rfl
  simp only [get, h, hdisabled, Bool.false_eq_true, if_false]
  cases cache.find? key with
  | none => exact ⟨rfl, fun other => rfl⟩
  | some entry =>
      simp only [isExpired_unlimited, Bool.false_eq_true, if_false]
      exact ⟨rfl, fun other => find?_touch cache.entries now key other⟩

/-- A write without limits makes its value known and leaves the others as they are. -/
theorem insert_unlimited (h : cache.limits = .unlimited) (now : Nat) (key : κ) (value : ν)
    (other : κ) :
    ((cache.insert now key value).find? other).map (·.value)
      = if other = key then some value else (cache.find? other).map (·.value) := by
  have hsize : Limits.unlimited.maximumSize = none := rfl
  simp only [insert, h, hsize, write, find?, List.find?_append]
  by_cases hother : other = key
  · subst hother
    have hwithout : ((without cache.entries other).find? fun entry => entry.key = other) = none :=
      List.find?_eq_none.2 fun entry hentry => by simpa using (List.mem_filter.1 hentry).2
    simp [hwithout]
  · have hnew : ¬ key = other := fun hkey => hother hkey.symm
    simp [find?_without_of_ne hother, hnew, hother]

namespace Knows

variable {key : κ} {value : ν}

/-- **A known value is the answer** to looking its key up or computing it. -/
theorem getOrInsert_self (h : cache.Knows key value) (now later : Nat) (compute : Except ε ν) :
    (cache.getOrInsert now later key compute).1 = .ok value := by
  have hread := (get_unlimited h.unlimited now key).1
  rw [getOrInsert_eq, hread, h.found]

/-- **A known value stays known**, whatever is looked up or computed. -/
theorem getOrInsert (h : cache.Knows key value) (now later : Nat) (other : κ)
    (compute : Except ε ν) : (cache.getOrInsert now later other compute).2.Knows key value := by
  obtain ⟨hread, hkept⟩ := get_unlimited h.unlimited now other
  have hlimits : (cache.get now other).2.limits = .unlimited :=
    (limits_get cache now other).trans h.unlimited
  refine ⟨(limits_getOrInsert cache now later other compute).trans h.unlimited, ?_⟩
  have hfound := (hkept key).trans h.found
  rw [getOrInsert_eq, hread]
  split
  · exact hfound
  · exact hfound
  · next hmiss =>
    -- the key itself is never computed again, as it would have been read
    have hne : key ≠ other := by
      rintro rfl
      rw [h.found] at hmiss
      cases hmiss
    rw [insert_unlimited hlimits, if_neg hne, hfound]

end Knows

/-- Without limits, the answer of a look-up or computation is known afterwards. -/
theorem knows_getOrInsert (h : cache.limits = .unlimited) {now later : Nat} {key : κ} {value : ν}
    {compute : Except ε ν} (hanswer : (cache.getOrInsert now later key compute).1 = .ok value) :
    (cache.getOrInsert now later key compute).2.Knows key value := by
  obtain ⟨hread, hkept⟩ := get_unlimited h now key
  have hlimits : (cache.get now key).2.limits = .unlimited := (limits_get cache now key).trans h
  refine ⟨(limits_getOrInsert cache now later key compute).trans h, ?_⟩
  rw [getOrInsert_eq] at hanswer ⊢
  split at hanswer
  · next found =>
    cases hanswer
    rw [hkept key, ← hread, found]
  · cases hanswer
  · cases hanswer
    rw [insert_unlimited hlimits, if_pos rfl]

end FieldFilter.Cache
