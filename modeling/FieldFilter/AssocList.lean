/-!
# Association lists

Members of objects, view tables and resolved filters are lists of keys with values, in which the
first entry of a key counts.

Main statements:

* `lookup_cons_ite` — looking a key up, one entry at a time;
* `mem_iff_lookup` — where no key occurs twice, what is listed is what is found.
-/

namespace FieldFilter.AssocList

/-- The first entry answers for its own key, and the rest for the others. -/
theorem lookup_cons_ite {κ ν : Type} [BEq κ] [LawfulBEq κ] [DecidableEq κ] (key head : κ)
    (value : ν) (tail : List (κ × ν)) :
    ((head, value) :: tail).lookup key = if key = head then some value else tail.lookup key := by
  by_cases h : key = head
  · simp [h]
  · have hb : (key == head) = false := by simpa using h
    simp [List.lookup_cons, hb, h]

/-- What is found is listed. -/
theorem mem_of_lookup {κ ν : Type} [BEq κ] [LawfulBEq κ] [DecidableEq κ] {entries : List (κ × ν)}
    {key : κ} {value : ν} (h : entries.lookup key = some value) : (key, value) ∈ entries := by
  induction entries with
  | nil => cases h
  | cons head tail ih =>
      obtain ⟨name, first⟩ := head
      rw [lookup_cons_ite] at h
      split at h
      · next heq =>
        cases h
        rw [heq]
        exact List.mem_cons_self
      · exact List.mem_cons_of_mem _ (ih h)

/-- Where no key occurs twice, every entry answers for its key. -/
theorem mem_iff_lookup {κ ν : Type} [BEq κ] [LawfulBEq κ] [DecidableEq κ] {entries : List (κ × ν)}
    (h : (entries.map (·.1)).Nodup) {key : κ} {value : ν} :
    (key, value) ∈ entries ↔ entries.lookup key = some value := by
  induction entries with
  | nil => simp
  | cons head tail ih =>
      obtain ⟨name, first⟩ := head
      obtain ⟨hname, htail⟩ := List.nodup_cons.1 h
      rw [lookup_cons_ite, List.mem_cons, ih htail, Prod.mk.injEq]
      split
      · next heq =>
        subst heq
        have hnone : tail.lookup key ≠ some value := by
          intro hlookup
          exact hname (List.mem_map_of_mem (f := (·.1)) ((ih htail).2 hlookup))
        simp [hnone, eq_comm]
      · next hne =>
        simp [hne]
end FieldFilter.AssocList
