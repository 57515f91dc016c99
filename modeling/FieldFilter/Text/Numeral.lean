/-!
# Decimal numerals

A numeral is read as a number only if it holds nothing but the digits zero to nine and its value
fits into sixty-four bits.

Main definitions:

* `Text.natOfDigits` — the value of a run of digits;
* `Text.word?` — the number that a numeral stands for;
* `Text.signedWord?` — the same with a plus sign allowed in front;
* `Text.IsNumeral` — the numerals that are read, and what they stand for.
-/

namespace FieldFilter.Text

/-- Two to the power of 64: the numbers below it fit into sixty-four bits. -/
def wordBound : Nat := 18446744073709551616

/-- The value of a run of decimal digits. -/
def natOfDigits (digits : List Char) : Nat :=
  digits.foldl (fun value digit => value * 10 + (digit.toNat - '0'.toNat)) 0

/-- The number that a numeral stands for, if it is one and fits into sixty-four bits. -/
def word? (text : List Char) : Option Nat :=
  if !text.isEmpty && text.all Char.isDigit && natOfDigits text < wordBound then
    some (natOfDigits text)
  else none

/-- The number that a numeral stands for, which may have a plus sign in front. -/
def signedWord? : List Char → Option Nat
  | '+' :: text => word? text
  | text => word? text

/-- The numerals that are read, and what each stands for. -/
structure IsNumeral (text : List Char) (value : Nat) : Prop where
  ne_nil : text ≠ []
  isDigit : ∀ c ∈ text, c.isDigit = true
  value_eq : natOfDigits text = value
  lt : value < wordBound

theorem word?_eq_some_iff {text : List Char} {value : Nat} :
    word? text = some value ↔ IsNumeral text value := by
  have hne : (!text.isEmpty) = true ↔ text ≠ [] := by simp
  unfold word?
  constructor
  · intro h
    split at h
    · next hread =>
      cases h
      rw [Bool.and_eq_true, Bool.and_eq_true, hne, List.all_eq_true, decide_eq_true_eq] at hread
      exact ⟨hread.1.1, hread.1.2, rfl, hread.2⟩
    · cases h
  · rintro ⟨hnonempty, hdigits, rfl, hlt⟩
    rw [if_pos]
    rw [Bool.and_eq_true, Bool.and_eq_true, hne, List.all_eq_true, decide_eq_true_eq]
    exact ⟨⟨hnonempty, hdigits⟩, hlt⟩

/-- A plus sign is no digit, so it is read as a sign only. -/
theorem signedWord?_eq_some_iff {text : List Char} {value : Nat} :
    signedWord? text = some value
      ↔ IsNumeral text value ∨ ∃ digits, text = '+' :: digits ∧ IsNumeral digits value := by
  unfold signedWord?
  split
  · next digits =>
    rw [word?_eq_some_iff]
    constructor
    · exact fun h => .inr ⟨digits, rfl, h⟩
    · rintro (h | ⟨digits, heq, h⟩)
      · exact absurd (h.isDigit '+' List.mem_cons_self) (by decide)
      · obtain ⟨-, rfl⟩ := List.cons.inj heq
        exact h
  · next hplus =>
    rw [word?_eq_some_iff]
    constructor
    · exact .inl
    · rintro (h | ⟨digits, heq, -⟩)
      · exact h
      · exact absurd heq (hplus digits)

theorem natOfDigits_toDigits (value : Nat) : natOfDigits (Nat.toDigits 10 value) = value := by
  have hsame : ∀ digits : List Char, natOfDigits digits = Nat.ofDigitChars 10 digits 0 := by
    intro digits
    simp only [natOfDigits, Nat.ofDigitChars, Nat.mul_comm]
  rw [hsame, Nat.ofDigitChars_ten_toDigits]

/-- The digits of a number are a numeral for it, just if it fits into sixty-four bits. -/
theorem isNumeral_toDigits_iff {value other : Nat} :
    IsNumeral (Nat.toDigits 10 value) other ↔ other = value ∧ value < wordBound := by
  constructor
  · intro h
    have heq : value = other := (natOfDigits_toDigits value).symm.trans h.value_eq
    exact ⟨heq.symm, heq ▸ h.lt⟩
  · rintro ⟨rfl, hlt⟩
    refine ⟨Nat.toDigits_ne_nil, ?_, natOfDigits_toDigits _, hlt⟩
    exact fun c hmem => Nat.isDigit_of_mem_toDigits (by decide) (by decide) hmem

end FieldFilter.Text
