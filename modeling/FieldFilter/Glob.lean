/-!
# Wildcard patterns

A pattern is a text in which every star stands for any run of characters that holds no line
break, the empty run included, and every other character stands for itself.  A pattern matches a
name as a whole.

**The match is computed by rows.**  For a fixed name, `Glob.row` answers for every suffix of the
name at once whether the pattern matches it; one character of the pattern turns the row of the
pattern after it into its own row.  The work is the product of the two lengths, however many
stars the pattern has.

**Compiling.**  Patterns are compiled by an engine that is not part of this library, and that may
refuse one, above all if what it compiles to grows too large.  Which patterns it refuses, and what
it says then, is a parameter: `Glob.Engine`.

Main definitions:

* `Glob.Engine` — which patterns are refused, and why;
* `Glob.accepts` — whether a pattern matches a name;
* `Glob.literalLength` — the number of characters that stand for themselves.
-/

namespace FieldFilter.Glob

/-- What compiles patterns.  It is an inferred parameter of all that reads a filter text. -/
class Engine where
  /-- Why a pattern is refused, if it is. -/
  refusal? : String → Option String

/-- An engine with a limit on the compiled size of a pattern, counted in stars, for it is the stars
that take space. -/
@[reducible]
def Engine.ofLimit (stars : Nat) : Engine where
  refusal? pattern :=
    if stars < pattern.toList.count '*' then
      some "Compiled regex exceeds size limit of 10485760 bytes."
    else none

/-- The engine to run with.  The size that a star takes depends on the engine's version: with a few
hundred bytes for each, the limit is reached after some ten thousand stars, and certainly here. -/
instance : Engine := .ofLimit 50000

/-- The row of the empty pattern: of the suffixes of a name, longest first, it matches the empty
one alone. -/
def rowNil : List Char → List Bool
  | [] => [true]
  | _ :: name => false :: rowNil name

/-- The row of a pattern that starts with a star, from the row of the pattern after the star.  A
star matches a suffix by standing for nothing, or by taking a character that is no line break and
matching on. -/
def rowStar : List Char → List Bool → List Bool
  | c :: name, here :: later =>
    let shorter := rowStar name later
    (here || (c != '\n' && shorter.headD false)) :: shorter
  | _, row => row

/-- The row of a pattern that starts with the character `p`, from the row of the pattern after
it. -/
def rowChar (p : Char) : List Char → List Bool → List Bool
  | c :: name, _ :: later => (c == p && later.headD false) :: rowChar p name later
  | _, _ => [false]

/-- Which suffixes of a name, longest first, a pattern matches. -/
def row : List Char → List Char → List Bool
  | [], name => rowNil name
  | p :: pattern, name =>
    if p = '*' then rowStar name (row pattern name) else rowChar p name (row pattern name)

/-- Whether a pattern matches a whole name. -/
def accepts (pattern name : List Char) : Bool :=
  (row pattern name).headD false

/-- The number of characters of a pattern that stand for themselves. -/
def literalLength (pattern : List Char) : Nat :=
  (pattern.filter (· != '*')).length

/-! ## The match, one character of the pattern at a time

A row has an entry for every suffix of the name, so its tail is the row of the name without its
first character.  This turns the computation by rows back into the rules for single characters. -/

/-- There is an entry for every suffix of the name. -/
theorem length_row (pattern name : List Char) : (row pattern name).length = name.length + 1 := by
  induction pattern generalizing name with
  | nil => induction name with
    | nil => rfl
    | cons c name ih => simp only [row, rowNil, List.length_cons] at ih ⊢; rw [ih]
  | cons p pattern ih =>
    have hrow := ih name
    simp only [row]
    generalize row pattern name = later at hrow
    split
    · induction name generalizing later with
      | nil => cases later <;> simp_all [rowStar]
      | cons c name ihn =>
        cases later with
        | nil => simp at hrow
        | cons here later =>
          simp only [rowStar, List.length_cons] at hrow ⊢
          rw [ihn later (by omega)]
    · induction name generalizing later with
      | nil => simp [rowChar]
      | cons c name ihn =>
        cases later with
        | nil => simp at hrow
        | cons here later =>
          simp only [rowChar, List.length_cons] at hrow ⊢
          rw [ihn later (by omega)]

/-- The tail of a row is the row of the name without its first character. -/
theorem row_cons (pattern : List Char) (c : Char) (name : List Char) :
    row pattern (c :: name) = accepts pattern (c :: name) :: row pattern name := by
  unfold accepts
  induction pattern with
  | nil => rfl
  | cons p pattern ih =>
    simp only [row]
    rw [ih]
    split <;> rfl

/-- The empty pattern matches the empty name alone. -/
theorem accepts_nil (name : List Char) : accepts [] name = name.isEmpty := by
  cases name <;> rfl

/-- A star matches the empty name if the pattern after it does. -/
theorem accepts_star_nil (pattern : List Char) :
    accepts ('*' :: pattern) [] = accepts pattern [] := by
  have h := length_row pattern []
  simp only [accepts, row]
  generalize row pattern [] = later at h
  cases later <;> simp_all [rowStar]

/-- A star stands for nothing, or takes a character that is no line break. -/
theorem accepts_star_cons (pattern : List Char) (c : Char) (name : List Char) :
    accepts ('*' :: pattern) (c :: name)
      = (accepts pattern (c :: name) || (c != '\n' && accepts ('*' :: pattern) name)) := by
  rw [accepts, row, if_pos rfl, row_cons]
  simp [rowStar, accepts, row]

/-- A character that is no star takes one character, itself. -/
theorem accepts_char_cons {p : Char} (hp : p ≠ '*') (pattern : List Char) (c : Char)
    (name : List Char) :
    accepts (p :: pattern) (c :: name) = (c == p && accepts pattern name) := by
  rw [accepts, row, if_neg hp, row_cons]
  simp [rowChar, accepts]

/-- A character that is no star does not match the empty name. -/
theorem accepts_char_nil {p : Char} (hp : p ≠ '*') (pattern : List Char) :
    accepts (p :: pattern) [] = false := by
  rw [accepts, row, if_neg hp]
  simp [rowChar]

end FieldFilter.Glob
