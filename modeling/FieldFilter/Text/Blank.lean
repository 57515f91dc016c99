/-!
# Blank characters

The characters that separate words without being part of any: those with the Unicode property
`White_Space`, twenty-five in all.  Filter expressions skip them between tokens, and every
setting is read with the blanks around it removed.

Main definitions:

* `Text.isBlank` — the property itself, as a table of ranges;
* `Text.trim` — a text without the blanks at its two ends;
* `Text.isAllBlank` — a text with nothing else in it;
* `Text.Pads` — a text with blanks added before and after it.
-/

namespace FieldFilter.Text

/-- The ranges of code points with the property `White_Space`, both ends included. -/
def blankRanges : List (Nat × Nat) :=
  [(0x09, 0x0D), (0x20, 0x20), (0x85, 0x85), (0xA0, 0xA0), (0x1680, 0x1680), (0x2000, 0x200A),
   (0x2028, 0x2029), (0x202F, 0x202F), (0x205F, 0x205F), (0x3000, 0x3000)]

def isBlank (c : Char) : Bool :=
  blankRanges.any fun r => r.1 ≤ c.toNat && c.toNat ≤ r.2

/-- A text without the blanks at its two ends. -/
def trim (text : List Char) : List Char :=
  ((text.dropWhile isBlank).reverse.dropWhile isBlank).reverse

/-- Whether a text holds nothing but blanks; the empty text does. -/
def isAllBlank (text : List Char) : Bool :=
  text.all isBlank

/-- Dropping blanks leaves nothing exactly of the texts that are blank throughout. -/
theorem dropWhile_isBlank_eq_nil_iff {text : List Char} :
    text.dropWhile isBlank = [] ↔ isAllBlank text = true := by
  induction text with
  | nil => simp [isAllBlank]
  | cons c rest ih =>
    cases h : isBlank c with
    | false => simp [isAllBlank, h]
    | true => simp_all [isAllBlank]

/-- What is left when leading blanks are dropped does not start with one. -/
theorem isBlank_head_dropWhile {text rest : List Char} {c : Char}
    (h : text.dropWhile isBlank = c :: rest) : isBlank c = false := by
  have := List.head?_dropWhile_not isBlank text
  rw [h] at this
  simpa using this

/-- Trimming leaves nothing exactly of the texts that are blank throughout. -/
theorem trim_eq_nil_iff {text : List Char} : trim text = [] ↔ isAllBlank text = true := by
  rw [trim, List.reverse_eq_nil_iff, dropWhile_isBlank_eq_nil_iff,
    ← @dropWhile_isBlank_eq_nil_iff text]
  cases h : text.dropWhile isBlank with
  | nil => simp [isAllBlank]
  | cons c rest => simp [isAllBlank, isBlank_head_dropWhile h]

/-! ## Blanks around a text -/

/-- A text with blanks added before and after it. -/
def Pads (text padded : List Char) : Prop :=
  ∃ before after, isAllBlank before = true ∧ isAllBlank after = true
    ∧ padded = before ++ text ++ after

variable {text padded : List Char}

/-- Every text is what trimming leaves of it, with blanks around. -/
theorem pads_trim (text : List Char) : Pads (trim text) text := by
  have hblank : ∀ text : List Char, isAllBlank (text.takeWhile isBlank) = true :=
    fun _ => List.all_takeWhile
  have hreverse : ∀ text : List Char, isAllBlank text.reverse = isAllBlank text :=
    fun _ => List.all_reverse
  refine ⟨text.takeWhile isBlank, ((text.dropWhile isBlank).reverse.takeWhile isBlank).reverse,
    hblank text, (hreverse _).trans (hblank _), ?_⟩
  rw [trim, List.append_assoc, ← List.reverse_append, List.takeWhile_append_dropWhile,
    List.reverse_reverse, List.takeWhile_append_dropWhile]

/-- Trimming undoes adding blanks. -/
theorem Pads.trim_eq (h : Pads text padded) : trim padded = trim text := by
  obtain ⟨before, after, hbefore, hafter, rfl⟩ := h
  have hdrop : ∀ {gap : List Char} (more : List Char), isAllBlank gap = true →
      (gap ++ more).dropWhile isBlank = more.dropWhile isBlank := by
    intro gap more hgap
    rw [List.dropWhile_append, dropWhile_isBlank_eq_nil_iff.2 hgap]
    rfl
  rw [trim, List.append_assoc, hdrop _ hbefore, List.dropWhile_append]
  split
  · next hempty =>
    rw [dropWhile_isBlank_eq_nil_iff.2 hafter, trim, List.isEmpty_iff.1 hempty]
  · rw [List.reverse_append, hdrop _ (by rwa [isAllBlank, List.all_reverse]), trim]

/-- Nothing was added to a text that trimming leaves as it is. -/
theorem Pads.eq_of_trim_eq (h : Pads text padded) (htrim : trim padded = padded) :
    padded = text := by
  have hsame : trim text = padded := h.trim_eq.symm.trans htrim
  obtain ⟨before, after, -, -, htext⟩ := pads_trim text
  obtain ⟨gap, ending, -, -, rfl⟩ := h
  have hlength := congrArg List.length htext
  have hlength' := congrArg List.length hsame
  simp only [List.length_append] at hlength hlength'
  have hgap : gap = [] := List.eq_nil_of_length_eq_zero (by omega)
  have hending : ending = [] := List.eq_nil_of_length_eq_zero (by omega)
  rw [hgap, hending, List.nil_append, List.append_nil]

theorem not_mem_of_isAllBlank {c : Char} (h : isBlank c = false) (hall : isAllBlank text = true) :
    c ∉ text :=
  fun hmem => Bool.false_ne_true (h.symm.trans (List.all_eq_true.1 hall c hmem))

/-- Where two texts together hold a character at some place, it is in the first or in the second. -/
theorem exists_of_append_cons_eq_append {c : Char} {before after left right : List Char}
    (h : before ++ c :: after = left ++ right) :
    (∃ more, left = before ++ c :: more ∧ after = more ++ right)
      ∨ ∃ more, before = left ++ more ∧ right = more ++ c :: after := by
  rcases List.append_eq_append_iff.1 h with ⟨more, hleft, hright⟩ | hafter
  · cases more with
    | nil => exact .inr ⟨[], by rw [hleft, List.append_nil, List.append_nil], hright.symm⟩
    | cons d more =>
      obtain ⟨rfl, hafter⟩ := List.cons.inj hright
      exact .inl ⟨more, hleft, hafter⟩
  · exact .inr hafter

/-- Around a character that is no blank, blanks are added before what is before it and after what is
after it. -/
theorem Pads.cut {c : Char} {before after : List Char} (h : Pads text (before ++ c :: after))
    (hc : isBlank c = false) :
    ∃ before' after', text = before' ++ c :: after' ∧ Pads before' before ∧ Pads after' after := by
  obtain ⟨gap, ending, hgap, hending, heq⟩ := h
  rw [List.append_assoc] at heq
  rcases exists_of_append_cons_eq_append heq with ⟨more, hmore, -⟩ | ⟨before', hbefore, heq⟩
  · exact absurd (by simp [hmore]) (not_mem_of_isAllBlank hc hgap)
  · rcases exists_of_append_cons_eq_append heq.symm with ⟨after', htext, hafter⟩ | ⟨more, -, hmore⟩
    · refine ⟨before', after', htext, ⟨gap, [], hgap, rfl, ?_⟩, ⟨[], ending, rfl, hending, ?_⟩⟩
      · rw [hbefore, List.append_nil]
      · rw [hafter, List.nil_append]
    · exact absurd (by simp [hmore]) (not_mem_of_isAllBlank hc hending)

/-- Trimming keeps every character that is no blank. -/
theorem mem_trim {c : Char} (hmem : c ∈ text) (h : isBlank c = false) : c ∈ trim text := by
  obtain ⟨before, after, hbefore, hafter, htext⟩ := pads_trim text
  rw [htext, List.mem_append, List.mem_append] at hmem
  rcases hmem with (hmem | hmem) | hmem
  · exact absurd hmem (not_mem_of_isAllBlank h hbefore)
  · exact hmem
  · exact absurd hmem (not_mem_of_isAllBlank h hafter)

/-- Trimming leaves a text without blanks as it is. -/
theorem trim_eq_self (h : ∀ c ∈ text, isBlank c = false) : trim text = text := by
  have hdrop : ∀ {text : List Char}, (∀ c ∈ text, isBlank c = false) →
      text.dropWhile isBlank = text := by
    intro text h
    cases text with
    | nil => rfl
    | cons c rest => rw [List.dropWhile_cons, h c List.mem_cons_self, if_neg Bool.false_ne_true]
  rw [trim, hdrop h, hdrop fun c hmem => h c (List.mem_reverse.1 hmem), List.reverse_reverse]

theorem isBlank_of_isDigit {c : Char} (h : c.isDigit = true) : isBlank c = false := by
  have hrange : 48 ≤ c.toNat ∧ c.toNat ≤ 57 := Char.isDigit_iff_toNat.1 h
  refine Bool.eq_false_iff.2 fun hblank => ?_
  simp only [isBlank, blankRanges, List.any_cons, List.any_nil, Bool.or_eq_true, Bool.and_eq_true,
    decide_eq_true_eq, Bool.false_eq_true, or_false] at hblank
  omega

end FieldFilter.Text
