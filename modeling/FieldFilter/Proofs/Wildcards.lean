import FieldFilter.Name
import Mathlib.Data.List.Forall2

/-!
# What a pattern matches

The match is computed by rows, one entry for each suffix of the name.  What it is to mean takes no
computation: the name can be cut into runs, one for each character of the pattern, so that a star
has a run without line breaks, the empty one included, and every other character has a run of its
own, itself.  With several stars there are many cuts, and one of them is enough.

Every character that stands for itself has one of the name to its own, so a pattern that matches has
no more of them than the name has characters.  This is what keeps the strengths apart.

* `Glob.Splits` — a name can be split along a pattern.
* `Glob.accepts_star_iff`, `Glob.accepts_char_iff` — what the first character of a pattern takes.
* **`Glob.accepts_iff_splits`** — the rows find a split if there is one.
* `Glob.literalLength_le_of_splits` — the bound by counting.
* **`Name.strength_glob_between`** — a pattern that matches is weaker than the name of the field,
  and stronger than the bare wildcards.
-/

namespace FieldFilter

namespace Glob

/-- What a character of a pattern can stand for: a star for any run without a line break, and every
other character for itself. -/
def StandsFor (p : Char) (run : List Char) : Prop :=
  if p = '*' then '\n' ∉ run else run = [p]

/-- A name can be split along a pattern, into one run for each character of the pattern. -/
def Splits (pattern name : List Char) : Prop :=
  ∃ runs : List (List Char), runs.flatten = name ∧ List.Forall₂ StandsFor pattern runs

variable {pattern name : List Char}

theorem standsFor_star {run : List Char} : StandsFor '*' run ↔ '\n' ∉ run := by
  rw [StandsFor, if_pos rfl]

theorem standsFor_of_ne {p : Char} (hp : p ≠ '*') {run : List Char} :
    StandsFor p run ↔ run = [p] := by
  rw [StandsFor, if_neg hp]

/-! ## Splits, one character of the pattern at a time -/

/-- Only the empty name can be split along the empty pattern. -/
theorem splits_nil : Splits [] name ↔ name = [] := by
  constructor
  · rintro ⟨runs, hname, hruns⟩
    cases hruns
    exact hname.symm
  · rintro rfl
    exact ⟨[], rfl, .nil⟩

/-- The first character of a pattern stands for what a name begins with. -/
theorem splits_cons {p : Char} :
    Splits (p :: pattern) name
      ↔ ∃ run rest, name = run ++ rest ∧ StandsFor p run ∧ Splits pattern rest := by
  constructor
  · rintro ⟨runs, hname, hruns⟩
    cases hruns with
    | @cons _ run _ later hrun hlater =>
      exact ⟨run, later.flatten, hname.symm, hrun, later, rfl, hlater⟩
  · rintro ⟨run, rest, rfl, hrun, runs, rfl, hruns⟩
    exact ⟨run :: runs, rfl, .cons hrun hruns⟩

/-! ## The rows find the splits -/

/-- A character that is no star takes itself off the front of a name. -/
theorem accepts_char_iff {p : Char} (hp : p ≠ '*') :
    accepts (p :: pattern) name = true
      ↔ ∃ rest, name = p :: rest ∧ accepts pattern rest = true := by
  cases name with
  | nil =>
    rw [accepts_char_nil hp]
    refine iff_of_false Bool.false_ne_true ?_
    rintro ⟨rest, hname, -⟩
    cases hname
  | cons c name =>
    rw [accepts_char_cons hp, Bool.and_eq_true, beq_iff_eq]
    constructor
    · rintro ⟨rfl, hrest⟩
      exact ⟨name, rfl, hrest⟩
    · rintro ⟨rest, hname, hrest⟩
      obtain ⟨rfl, rfl⟩ := List.cons.inj hname
      exact ⟨rfl, hrest⟩

/-- **A star takes any run without line breaks off the front of a name.** -/
theorem accepts_star_iff :
    accepts ('*' :: pattern) name = true
      ↔ ∃ run rest, name = run ++ rest ∧ '\n' ∉ run ∧ accepts pattern rest = true := by
  constructor
  · intro h
    induction name with
    | nil =>
      rw [accepts_star_nil] at h
      exact ⟨[], [], rfl, List.not_mem_nil, h⟩
    | cons c name ih =>
      rw [accepts_star_cons, Bool.or_eq_true, Bool.and_eq_true, bne_iff_ne] at h
      rcases h with hnothing | ⟨hc, hmore⟩
      · exact ⟨[], c :: name, rfl, List.not_mem_nil, hnothing⟩
      · obtain ⟨run, rest, rfl, hrun, hrest⟩ := ih hmore
        exact ⟨c :: run, rest, rfl, List.not_mem_cons_of_ne_of_not_mem hc.symm hrun, hrest⟩
  · rintro ⟨run, rest, rfl, hrun, hrest⟩
    induction run with
    | nil =>
      cases rest with
      | nil => rw [List.nil_append, accepts_star_nil, hrest]
      | cons c rest => rw [List.nil_append, accepts_star_cons, hrest, Bool.true_or]
    | cons c run ih =>
      obtain ⟨hc, hrun⟩ := List.ne_and_not_mem_of_not_mem_cons hrun
      rw [List.cons_append, accepts_star_cons, ih hrun, Bool.and_true, bne_iff_ne.2 hc.symm,
        Bool.or_true]

/-- **A pattern matches just the names that can be split along it.** -/
theorem accepts_iff_splits (pattern name : List Char) :
    accepts pattern name = true ↔ Splits pattern name := by
  induction pattern generalizing name with
  | nil => rw [accepts_nil, List.isEmpty_iff, splits_nil]
  | cons p pattern ih =>
    rw [splits_cons]
    by_cases hp : p = '*'
    · subst hp
      simp only [accepts_star_iff, standsFor_star, ih]
    · simp only [accepts_char_iff hp, standsFor_of_ne hp, ih]
      constructor
      · rintro ⟨rest, rfl, hrest⟩
        exact ⟨[p], rest, rfl, rfl, hrest⟩
      · rintro ⟨_, rest, rfl, rfl, hrest⟩
        exact ⟨rest, rfl, hrest⟩

/-! ## Counting -/

/-- A name that is split along a pattern has a character for each one that stands for itself. -/
theorem literalLength_le_of_splits (h : Splits pattern name) :
    literalLength pattern ≤ name.length := by
  obtain ⟨runs, rfl, hruns⟩ := h
  induction hruns with
  | nil => exact Nat.zero_le _
  | @cons p run pattern runs hrun _ ih =>
    rw [List.flatten_cons, List.length_append]
    by_cases hp : p = '*'
    · subst hp
      have hsame : literalLength ('*' :: pattern) = literalLength pattern := by
        simp [literalLength]
      omega
    · have hmore : literalLength (p :: pattern) = literalLength pattern + 1 := by
        simp [literalLength, hp]
      rw [(standsFor_of_ne hp).1 hrun, hmore, List.length_singleton]
      omega

end Glob

namespace Name

/-- **Patterns match by their wildcards, and rank below the exact name.**  A pattern matches the
fields that can be split along it.  It has no more characters that stand for themselves than a
field it matches, and is weaker at it than the one exact name that matches it, and stronger than the
two bare wildcards. -/
theorem strength_glob_between (pattern field : String) :
    (Glob.accepts pattern.toList field.toList = true
        ↔ Glob.Splits pattern.toList field.toList)
      ∧ (Glob.accepts pattern.toList field.toList = true →
        Glob.literalLength pattern.toList ≤ field.toList.length
          ∧ ∃ strength, (glob pattern).strength field = some strength
            ∧ (∃ greater, strength < greater ∧ ∀ text,
              (exact text).strength field = if text = field then some greater else none)
            ∧ ∃ less, less < strength
              ∧ shallow.strength field = some less ∧ deep.strength field = some less) := by
  have hiff := Glob.accepts_iff_splits pattern.toList field.toList
  refine ⟨hiff, fun haccepts => ?_⟩
  have hlength : Glob.literalLength pattern.toList ≤ field.toList.length :=
    Glob.literalLength_le_of_splits (hiff.1 haccepts)
  have hstrength : (glob pattern).strength field
      = some (Glob.literalLength pattern.toList + 1) := by
    rw [strength, if_pos haccepts]
  have hexact : ∀ text, (exact text).strength field
      = if text = field then some (field.toList.length + 2) else none := by
    intro text
    rw [strength]
    split
    · next heq => rw [heq]
    · rfl
  exact ⟨hlength, _, hstrength, ⟨_, by omega, hexact⟩, 0, Nat.succ_pos _, rfl, rfl⟩

/-- The dot of a pattern is a dot, between stars of which the first has several ways to go. -/
theorem strength_dottedPattern :
    Glob.Splits "*a*.b*".toList "aa.a.b".toList
      ∧ ¬ Glob.Splits "*a*.b*".toList "aaxb".toList
      ∧ Glob.literalLength "*a*.b*".toList ≤ "aa.a.b".toList.length
      ∧ ∃ strength, (glob "*a*.b*").strength "aa.a.b" = some strength
        ∧ (∃ greater, strength < greater ∧ ∀ text,
          (exact text).strength "aa.a.b" = if text = "aa.a.b" then some greater else none)
        ∧ ∃ less, less < strength
          ∧ shallow.strength "aa.a.b" = some less ∧ deep.strength "aa.a.b" = some less := by
  have haccepts : Glob.accepts "*a*.b*".toList "aa.a.b".toList = true := by decide
  have hother : Glob.accepts "*a*.b*".toList "aaxb".toList = false := by decide
  obtain ⟨hiff, hrank⟩ := strength_glob_between "*a*.b*" "aa.a.b"
  refine ⟨hiff.1 haccepts, fun hsplits => ?_, hrank haccepts⟩
  have hfound := (strength_glob_between "*a*.b*" "aaxb").1.2 hsplits
  exact Bool.false_ne_true (hother.symm.trans hfound)

end Name

end FieldFilter
