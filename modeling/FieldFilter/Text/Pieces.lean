/-!
# Texts in pieces

A text is cut at every occurrence of a separator, or at the first one only.  Cutting undoes joining:
texts without separators that are joined by them fall into the same pieces again.

Main definitions:

* `Text.pieces` — the pieces between separators; there is always one;
* `Text.cut?` — the texts before and after the first separator.
-/

namespace FieldFilter.Text

/-- The pieces of a text between the occurrences of a separator. -/
def pieces (separator : Char) : List Char → List (List Char)
  | [] => [[]]
  | c :: rest =>
    if c = separator then [] :: pieces separator rest
    else
      match pieces separator rest with
      | piece :: others => (c :: piece) :: others
      | [] => [[c]]

/-- The texts before and after the first occurrence of a separator, or none without one. -/
def cut? (separator : Char) : List Char → Option (List Char × List Char)
  | [] => none
  | c :: rest =>
    if c = separator then some ([], rest)
    else (cut? separator rest).map fun (before, after) => (c :: before, after)

/-- The two texts around the first separator make up the text, and the first holds none. -/
theorem eq_of_cut? {separator : Char} {text before after : List Char}
    (h : cut? separator text = some (before, after)) :
    text = before ++ separator :: after ∧ separator ∉ before := by
  induction text generalizing before with
  | nil => simp [cut?] at h
  | cons c rest ih =>
    unfold cut? at h
    split at h
    · next hc =>
      cases h
      simp [hc]
    · next hc =>
      obtain ⟨⟨before', after'⟩, hr, hp⟩ := Option.map_eq_some_iff.1 h
      cases hp
      obtain ⟨ht, hn⟩ := ih hr
      exact ⟨by simp [ht], by simp [hn, Ne.symm hc]⟩

/-- A text is cut at the first separator, so there is none in the text before it. -/
theorem cut?_eq_some_iff {separator : Char} {text before after : List Char} :
    cut? separator text = some (before, after)
      ↔ text = before ++ separator :: after ∧ separator ∉ before := by
  refine ⟨eq_of_cut?, ?_⟩
  rintro ⟨rfl, hfree⟩
  induction before with
  | nil => rw [List.nil_append, cut?, if_pos rfl]
  | cons c rest ih =>
    rw [List.mem_cons, not_or] at hfree
    obtain ⟨hne, hfree⟩ := hfree
    rw [List.cons_append, cut?, if_neg (Ne.symm hne), ih hfree]
    rfl

theorem pieces_of_not_mem {separator : Char} {text : List Char} (h : separator ∉ text) :
    pieces separator text = [text] := by
  induction text with
  | nil => rfl
  | cons c rest ih =>
    rw [List.mem_cons, not_or] at h
    obtain ⟨hne, hfree⟩ := h
    rw [pieces, if_neg (Ne.symm hne), ih hfree]

theorem pieces_append {separator : Char} {piece : List Char} (h : separator ∉ piece)
    (rest : List Char) :
    pieces separator (piece ++ separator :: rest) = piece :: pieces separator rest := by
  induction piece with
  | nil => rw [List.nil_append, pieces, if_pos rfl]
  | cons c more ih =>
    rw [List.mem_cons, not_or] at h
    obtain ⟨hne, hfree⟩ := h
    rw [List.cons_append, pieces, if_neg (Ne.symm hne), ih hfree]

/-- What is joined by separators falls into its pieces again. -/
theorem pieces_intercalate {separator : Char} {texts : List (List Char)} (hne : texts ≠ [])
    (hfree : ∀ text ∈ texts, separator ∉ text) :
    pieces separator ([separator].intercalate texts) = texts := by
  induction texts with
  | nil => exact absurd rfl hne
  | cons text rest ih =>
    obtain ⟨htext, hrest⟩ := List.forall_mem_cons.1 hfree
    cases rest with
    | nil => rw [List.intercalate_singleton, pieces_of_not_mem htext]
    | cons second more =>
      rw [List.intercalate_cons_cons, List.append_assoc, List.singleton_append,
        pieces_append htext, ih (List.cons_ne_nil _ _) hrest]

/-- What is in none of the texts and no separator is not in the joined text. -/
theorem not_mem_intercalate {separator c : Char} {texts : List (List Char)} (hne : c ≠ separator)
    (hfree : ∀ text ∈ texts, c ∉ text) : c ∉ [separator].intercalate texts := by
  induction texts with
  | nil => exact List.not_mem_nil
  | cons text rest ih =>
    obtain ⟨htext, hrest⟩ := List.forall_mem_cons.1 hfree
    cases rest with
    | nil =>
      rw [List.intercalate_singleton]
      exact htext
    | cons second more =>
      rw [List.intercalate_cons_cons, List.append_assoc, List.mem_append, not_or,
        List.singleton_append, List.mem_cons, not_or]
      exact ⟨htext, hne, ih hrest⟩

end FieldFilter.Text
