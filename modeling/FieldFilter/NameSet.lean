/-!
# Sets of names

A finite set of names, kept as a list in increasing order without repetition, so that a set is
listed the same way however it was built.

Main definitions:

* `NameSet.insert` — a set with one name more;
* `mem_insert`, `mem_foldl_insert` — the members, after one name and after several.
-/

namespace FieldFilter

/-- A set of names in increasing order. -/
abbrev NameSet := List String

namespace NameSet

def insert (name : String) : NameSet → NameSet
  | [] => [name]
  | head :: tail =>
    if name < head then name :: head :: tail
    else if name = head then head :: tail
    else head :: insert name tail

/-- A set with one name more has that member and the ones it had. -/
@[simp] theorem mem_insert {name other : String} {names : NameSet} :
    other ∈ insert name names ↔ other = name ∨ other ∈ names := by
  induction names with
  | nil => simp [insert]
  | cons head tail ih =>
    unfold insert
    split
    · simp
    · split
      · next h => subst h; simp
      · simp only [List.mem_cons, ih]
        constructor
        · rintro (h | h | h) <;> simp [h]
        · rintro (h | h | h) <;> simp [h]

/-- The names put into a set one after another are its members, next to those that it had. -/
theorem mem_foldl_insert {α : Type} (nameOf : α → String) (items : List α) (names : NameSet)
    (name : String) :
    name ∈ items.foldl (fun names item => insert (nameOf item) names) names
      ↔ name ∈ names ∨ ∃ item ∈ items, nameOf item = name := by
  induction items generalizing names with
  | nil => simp
  | cons item rest ih =>
    simp only [List.foldl_cons, ih, mem_insert, List.mem_cons, exists_eq_or_imp]
    rw [eq_comm (a := name), or_comm (a := nameOf item = name), or_assoc]

end NameSet

end FieldFilter
