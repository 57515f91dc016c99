import FieldFilter.Proofs.Reading
import FieldFilter.Proofs.Spelling

/-!
# Which filter texts are accepted

A filter text is accepted if it is blank, or if its tokens can be read by the grammar, are not too
deep, and hold no pattern that is refused.  How deep a token lies depends on the reading: a bar
between two names may go on with a group, and then a block at its end lies below the longest name
of the group.  The reader always goes on with a group, and this is the deepest reading.

* **`Sentence.toOption_read`** — what is read from the tokens of a sentence.
* **`Expression.isOk_parse_iff`** — a text is accepted just if its patterns compile and all its
  readings are shallow.
* `Expression.not_isOk_parse_longOrShort` — one shallow reading is not enough.
* **`Expression.parse_of_refusal`** — where a text that starts with a refused pattern is refused.
* `Expression.not_isOk_parse_stars` — a shallow sentence may be refused for its pattern.
-/

namespace FieldFilter

open Token

section Accepted

variable [Glob.Engine]

/-- A whole text is read as terms that nothing follows. -/
theorem Term.toOption_read (stop : Nat) (lexemes : List Lexeme) :
    (Term.read stop lexemes).toOption
      = (Term.terms? stop 0 lexemes).bind fun read =>
          if read.2.isEmpty then some read.1 else none := by
  rw [Term.read, Term.terms?]
  rcases Term.readAll stop 0 lexemes with defect | ⟨terms, _ | ⟨lexeme, rest⟩, hshorter⟩ <;> rfl

/-- What is read from a whole text was written as a sentence, and its patterns compile. -/
theorem Term.exists_of_read {stop : Nat} {lexemes : List Lexeme} {terms : List Term}
    (h : Term.read stop lexemes = .ok terms) :
    AllCompile (lexemes.map (·.token))
      ∧ ∃ sentence : Sentence, sentence.tokens = lexemes.map (·.token) := by
  have hread := Term.toOption_read stop lexemes
  rw [h] at hread
  obtain ⟨⟨_, rest⟩, hterms, hrest⟩ := Option.bind_eq_some_iff.1 hread.symm
  dsimp only at hrest
  split at hrest
  · next hempty =>
    obtain rfl := List.isEmpty_iff.1 hempty
    obtain ⟨sentence, ⟨hcompiles, front, rfl, htokens⟩, -⟩ := Term.exists_sentence hterms
    rw [List.append_nil, htokens]
    exact ⟨hcompiles, sentence, rfl⟩
  · cases hrest

/-- **The terms of the greedy reading are read from the tokens of a sentence**, if its patterns
compile and that reading is shallow. -/
theorem Sentence.toOption_read (sentence : Sentence) {lexemes : List Lexeme}
    (hlexemes : sentence.tokens = lexemes.map (·.token)) (stop : Nat) :
    (Term.read stop lexemes).toOption
      = if AllCompile sentence.tokens ∧ sentence.greedy.height ≤ Term.depthLimit then
          some sentence.greedy.terms
        else none := by
  by_cases hcompiles : AllCompile sentence.tokens
  · have hread := @Sentence.terms?_eq _ stop sentence.greedy sentence.greedy_greedy 0 lexemes
      (hlexemes.symm.trans sentence.tokens_greedy.symm) (sentence.tokens_greedy ▸ hcompiles) []
      (Or.inl rfl)
    rw [List.append_nil, Nat.zero_add] at hread
    rw [Term.toOption_read, hread]
    simp only [hcompiles, true_and]
    split <;> rfl
  · rw [if_neg fun h => hcompiles h.1, Term.toOption_eq_none]
    cases hread : Term.read stop lexemes with
    | error defect => exact ⟨defect, rfl⟩
    | ok terms => exact absurd (hlexemes ▸ (Term.exists_of_read hread).1) hcompiles

/-- Lexemes are read just if their patterns compile, there is a reading of them, and all readings
are shallow. -/
theorem Term.isOk_read_iff (stop : Nat) (lexemes : List Lexeme) :
    (Term.read stop lexemes).isOk = true
      ↔ AllCompile (lexemes.map (·.token))
        ∧ (∃ sentence : Sentence, sentence.tokens = lexemes.map (·.token))
        ∧ ∀ sentence : Sentence, sentence.tokens = lexemes.map (·.token) → sentence.Shallow := by
  constructor
  · intro hok
    rcases hread : Term.read stop lexemes with defect | terms
    · rw [hread] at hok
      cases hok
    · obtain ⟨hcompiles, hexists⟩ := Term.exists_of_read hread
      refine ⟨hcompiles, hexists, ?_⟩
      intro sentence hsentence
      have hgreedy := sentence.toOption_read hsentence stop
      rw [hread] at hgreedy
      rw [sentence.shallow_iff]
      split at hgreedy
      · next hreads => exact Nat.le_trans sentence.height_le_greedy hreads.2
      · cases hgreedy
  · rintro ⟨hcompiles, ⟨sentence, hsentence⟩, hall⟩
    have hshallow : sentence.greedy.Shallow :=
      hall sentence.greedy (sentence.tokens_greedy.trans hsentence)
    have hgreedy := sentence.toOption_read hsentence stop
    rw [if_pos ⟨hsentence ▸ hcompiles, sentence.greedy.shallow_iff.1 hshallow⟩,
      Term.toOption_eq_some] at hgreedy
    rw [hgreedy]
    rfl

/-- **Which filter texts are accepted.**  The tokens of the text are none, or the patterns among
them compile, there is a reading of them, and no reading puts a segment too deep. -/
theorem Expression.isOk_parse_iff (source : String) :
    (Expression.parse source).isOk = true
      ↔ ∃ lexemes, Token.scan 0 source.toList = .ok lexemes
          ∧ (lexemes = []
            ∨ AllCompile (lexemes.map (·.token))
              ∧ (∃ sentence : Sentence, sentence.tokens = lexemes.map (·.token))
              ∧ ∀ sentence : Sentence, sentence.tokens = lexemes.map (·.token) →
                  sentence.Shallow) := by
  have hterms : (Expression.parse source).isOk = (Expression.terms source).isOk := by
    rw [Expression.parse]
    cases Expression.terms source <;> rfl
  rw [hterms, Expression.terms]
  cases hscan : Token.scan 0 source.toList with
  | error defect =>
      refine iff_of_false Bool.false_ne_true ?_
      rintro ⟨_, hok, -⟩
      cases hok
  | ok lexemes =>
      simp only [Except.ok.injEq, exists_eq_left']
      cases lexemes with
      | nil => exact iff_of_true rfl (Or.inl rfl)
      | cons lexeme rest =>
          dsimp only
          rw [Term.isOk_read_iff]
          exact (or_iff_right (List.cons_ne_nil _ _)).symm

end Accepted

/-! ## A bar that goes on with a group -/

/-- A long name and a short one with a block, with a bar between them. -/
def longName : Dotted :=
  ⟨.word "a", List.replicate 62 (.word "a")⟩

/-- The block of the short name is two names deep. -/
def shortPhrase : Phrase :=
  .mk false ⟨false, ⟨.word "b", []⟩, []⟩
    (.of (.last (.mk false ⟨false, ⟨.word "c", [.word "d"]⟩, []⟩ .absent)))

/-- The filter text of both. -/
def longOrShort : String :=
  ".".intercalate (List.replicate 63 "a") ++ "|b\x7bc.d\x7d"

/-- **One shallow reading is not enough.**  If the bar stands between two terms, no segment lies
deeper than the long name reaches, but the text is refused: the block lies below the long name. -/
theorem Expression.not_isOk_parse_longOrShort :
    ¬ ((Expression.parse longOrShort).isOk = true
      ↔ ∃ lexemes, Token.scan 0 longOrShort.toList = .ok lexemes
          ∧ (lexemes = [] ∨ ∃ sentence : Sentence,
              sentence.tokens = lexemes.map (·.token) ∧ sentence.Shallow)) := by
  have hrefused : (Expression.parse longOrShort).isOk = false := by decide +kernel
  let terms : Sentence := .cons (.mk false ⟨false, longName, []⟩ .absent) true (.last shortPhrase)
  have htokens : (Token.scan 0 longOrShort.toList).map (fun lexemes => lexemes.map (·.token))
      = .ok terms.tokens := by decide +kernel
  have hshallow : terms.Shallow := terms.shallow_iff.2 (by decide +kernel)
  intro hiff
  rcases hscan : Token.scan 0 longOrShort.toList with defect | lexemes
  · rw [hscan] at htokens
    cases htokens
  · rw [hscan] at htokens
    have hok := hiff.2 ⟨lexemes, hscan, Or.inr ⟨terms, (Except.ok.inj htokens).symm, hshallow⟩⟩
    exact Bool.false_ne_true (hrefused.symm.trans hok)

/-! ## A pattern that is refused -/

section Refused

variable [Glob.Engine] {word reason : String} {offset : Nat} {rest : List Lexeme}

theorem Term.readGroup_of_refusal (h : (Name.ofWord word).refusal? = some reason) (stop : Nat) :
    Term.readGroup stop 0 (⟨.word word, offset⟩ :: rest)
      = .error ⟨.invalidPattern reason, offset⟩ := by
  have hsegment : Term.segment ⟨.word word, offset⟩ = .error ⟨.invalidPattern reason, offset⟩ := by
    simp only [Term.segment, Term.classify, h]
  rw [Term.readGroup, Term.readFirst, Term.checkDepth, if_neg (by decide), hsegment]
  intro _ _ hparen
  cases hparen

theorem Term.readAll_of_refusal (h : (Name.ofWord word).refusal? = some reason) (stop : Nat) :
    Term.readAll stop 0 (⟨.word word, offset⟩ :: rest)
      = .error ⟨.invalidPattern reason, offset⟩ := by
  have hgroup := @Term.readGroup_of_refusal _ word reason offset rest h stop
  rw [Term.readAll]
  split
  · next hread =>
    cases hread.symm.trans hgroup
    rfl
  · next hread => cases hread.symm.trans hgroup

/-- **A text that starts with a refused pattern is refused there**, whatever comes after it. -/
theorem Expression.parse_of_refusal {source : String}
    (hscan : Token.scan 0 source.toList = .ok (⟨.word word, offset⟩ :: rest))
    (h : (Name.ofWord word).refusal? = some reason) :
    Expression.parse source = .error ⟨source, ⟨.invalidPattern reason, offset⟩⟩ := by
  rw [parse, terms, hscan]
  dsimp only
  rw [Term.read, Term.readAll_of_refusal h]

end Refused

/-- A pattern of nothing but stars. -/
def stars (count : Nat) : String :=
  String.ofList (List.replicate count '*')

theorem toList_stars (count : Nat) : (stars count).toList = List.replicate count '*' :=
  String.toList_ofList

/-- Stars are one word, if that ends where something else comes. -/
theorem Token.scan_stars {count : Nat} (hcount : 0 < count) {text : List Char}
    (hends : (word (stars count)).endsBefore text = true) :
    scan 0 ((stars count).toList ++ text)
      = (scan count text).map (⟨.word (stars count), 0⟩ :: ·) := by
  obtain ⟨more, rfl⟩ := Nat.exists_eq_add_one.2 hcount
  have hword : IsWord (List.replicate (more + 1) '*') :=
    ⟨'*', List.replicate more '*', rfl, rfl, fun _ hd => List.eq_of_mem_replicate hd ▸ rfl⟩
  have hscan := @scan_token 0 text (.word (stars (more + 1))) _ (.word hword) hends
  rwa [List.length_replicate, Nat.zero_add, ← toList_stars] at hscan

/-- Stars beyond the limit are refused. -/
theorem Name.refusal?_stars {count : Nat} (h : 50000 < count) :
    (ofWord (stars count)).refusal?
      = some "Compiled regex exceeds size limit of 10485760 bytes." := by
  have hlong : ∀ word : String, word.toList.length < count → stars count ≠ word := by
    rintro _ hword rfl
    rw [toList_stars, List.length_replicate] at hword
    exact Nat.lt_irrefl _ hword
  have htwo : "**".toList.length < count := Nat.lt_trans (by decide) h
  have hone : "*".toList.length < count := Nat.lt_trans (by decide) h
  have hstar : (stars count).toList.contains '*' = true := by
    rw [toList_stars, List.contains_iff_mem]
    exact List.mem_replicate.2 ⟨Nat.ne_zero_of_lt h, rfl⟩
  rw [ofWord, if_neg (hlong _ htwo), if_neg (hlong _ hone), if_pos hstar]
  refine if_pos ?_
  rwa [toList_stars, List.count_replicate_self]

/-- **A shallow sentence is not enough either.**  The text is a single segment, but a pattern that
is refused. -/
theorem Expression.not_isOk_parse_stars :
    ¬ ((Expression.parse (stars 100000)).isOk = true
      ↔ ∃ lexemes, Token.scan 0 (stars 100000).toList = .ok lexemes
          ∧ (lexemes = [] ∨ ∃ sentence : Sentence,
              sentence.tokens = lexemes.map (·.token) ∧ sentence.Shallow)) := by
  -- the number is too large to be looked into
  obtain ⟨count, hcount, heq⟩ : ∃ count, 50000 < count ∧ 100000 = count := ⟨_, by decide, rfl⟩
  rw [heq]
  let single : Sentence := .last (.mk false ⟨false, ⟨.word (stars count), []⟩, []⟩ .absent)
  have hscan : Token.scan 0 (stars count).toList = .ok [⟨.word (stars count), 0⟩] := by
    have hstars := @Token.scan_stars count (Nat.zero_lt_of_lt hcount) [] rfl
    rwa [List.append_nil, scan] at hstars
  have hshallow : single.Shallow := single.shallow_iff.2 (by decide : 1 ≤ 64)
  intro hiff
  have hok := hiff.2 ⟨_, hscan, Or.inr ⟨single, rfl, hshallow⟩⟩
  rw [parse_of_refusal hscan (Name.refusal?_stars hcount)] at hok
  cases hok

end FieldFilter
