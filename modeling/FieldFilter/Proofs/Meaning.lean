import FieldFilter.Proofs.Acceptance
import FieldFilter.Proofs.Spelling

/-!
# What a text stands for, told by its tokens

A filter text stands for nodes, or for none if it is refused.  Which these are depends on its tokens
only, not on the blanks and quotes it is written with, and the tokens are told by a sentence.  So to
compare two texts it is enough to compare two sentences.

* `Name.IsBare` — names that are written without quotes.
* `Expression.tokens`, `Expression.nodes?` — the tokens of a text, and the nodes it stands for.
* `Sentence.nodes?` — the nodes of a sentence, if its patterns compile and it is shallow in its
  greedy reading.
* **`Expression.nodes?_of_tokens`** — a text stands for what the sentence of its tokens stands for.
* `Expression.Cuts` — the tokens of a text, wherever it stands.  Texts can be put together at marks.
* `Sentence.join`, `Sentence.commas` — sentences and terms with commas between them.  A comma ends
  a term whatever follows, so what can be told of the parts can be told of the whole.
* `Phrase.single`, `Phrase.word` — terms of one selector, and of one word.
-/

namespace FieldFilter

/-! ## Names without quotes -/

/-- A name that can be written as it stands: a word without a wildcard. -/
def Name.IsBare (name : String) : Prop :=
  Token.IsWord name.toList ∧ '*' ∉ name.toList

instance (name : String) : Decidable (Name.IsBare name) :=
  inferInstanceAs (Decidable (Token.IsWord name.toList ∧ '*' ∉ name.toList))

/-- A name without a wildcard stands for itself. -/
theorem Name.ofWord_of_isBare {name : String} (h : Name.IsBare name) :
    Name.ofWord name = .exact name := by
  have hne : ∀ wildcard : String, '*' ∈ wildcard.toList → name ≠ wildcard := by
    rintro wildcard hstar rfl
    exact h.2 hstar
  have hplain : name.toList.contains '*' = false := by simpa using h.2
  rw [Name.ofWord, if_neg (hne _ (by decide)), if_neg (hne _ (by decide)), hplain,
    if_neg Bool.false_ne_true]

/-- Only patterns are refused. -/
theorem Name.IsBare.compiles [Glob.Engine] {name : String} (h : Name.IsBare name) :
    (Token.word name).compiles = true := by
  rw [Token.compiles_word, Name.ofWord_of_isBare h]
  rfl

/-! ## Texts, tokens and nodes -/

namespace Expression

/-- The tokens of a text. -/
def tokens (source : String) : Except Defect (List Token) :=
  (Token.scan 0 source.toList).map fun lexemes => lexemes.map (·.token)

variable [Glob.Engine]

/-- The nodes that a text stands for, if it is accepted. -/
def nodes? (source : String) : Option (List Node) :=
  (parse source).toOption.map (·.nodes)

end Expression

/-- The nodes that a sentence stands for.  It stands for none if a pattern is refused, or if a
segment lies too deep. -/
def Sentence.nodes? [Glob.Engine] (sentence : Sentence) : Option (List Node) :=
  if Token.AllCompile sentence.tokens ∧ sentence.greedy.height ≤ Term.depthLimit then
    some (Term.level sentence.greedy.terms)
  else none

theorem Sentence.isSome_nodes? [Glob.Engine] {sentence : Sentence} :
    sentence.nodes?.isSome = true
      ↔ Token.AllCompile sentence.tokens ∧ sentence.greedy.height ≤ Term.depthLimit := by
  rw [nodes?]
  split
  · next hreads => exact iff_of_true rfl hreads
  · next hrefused => exact iff_of_false Bool.false_ne_true hrefused

namespace Expression

variable {source : String}

/-- What is scanned off a text are its tokens at some offsets. -/
theorem exists_of_tokens {tokens : List Token} (h : Expression.tokens source = .ok tokens) :
    ∃ lexemes, Token.scan 0 source.toList = .ok lexemes ∧ lexemes.map (·.token) = tokens := by
  rw [Expression.tokens] at h
  cases hscan : Token.scan 0 source.toList with
  | error defect =>
    rw [hscan] at h
    cases h
  | ok lexemes =>
    rw [hscan] at h
    cases h
    exact ⟨lexemes, rfl, rfl⟩

section Nodes

variable [Glob.Engine]

/-- The terms of a text are those of the greedy reading of its tokens. -/
theorem terms_of_tokens {sentence : Sentence} (h : tokens source = .ok sentence.tokens) :
    (terms source).toOption
      = if Token.AllCompile sentence.tokens ∧ sentence.greedy.height ≤ Term.depthLimit then
          some sentence.greedy.terms
        else none := by
  obtain ⟨lexemes, hscan, hlexemes⟩ := exists_of_tokens h
  rw [terms, hscan]
  cases lexemes with
  | nil =>
    obtain ⟨token, more, htokens, -⟩ := sentence.exists_tokens_eq_cons
    simp [htokens] at hlexemes
  | cons lexeme rest => exact sentence.toOption_read hlexemes.symm _

theorem nodes?_eq (source : String) :
    nodes? source = (terms source).toOption.map Term.level := by
  rw [nodes?, parse]
  cases terms source <;> rfl

/-- **A text stands for what the sentence of its tokens stands for.** -/
theorem nodes?_of_tokens {sentence : Sentence} (h : tokens source = .ok sentence.tokens) :
    nodes? source = sentence.nodes? := by
  rw [nodes?_eq, terms_of_tokens h, Sentence.nodes?]
  split <;> rfl

/-- A text stands for nodes if it is accepted. -/
theorem isSome_nodes? (source : String) : (nodes? source).isSome = (parse source).isOk := by
  rw [nodes?]
  cases parse source <;> rfl

theorem parse_of_nodes? {nodes : List Node} (h : nodes? source = some nodes) :
    parse source = .ok ⟨source, nodes⟩ := by
  rw [nodes?_eq] at h
  rw [parse]
  cases hterms : terms source with
  | error defect => simp [hterms, Except.toOption] at h
  | ok terms =>
    rw [hterms] at h
    cases h
    rfl

/-- An accepted text that is not blank has a sentence, whose patterns compile. -/
theorem exists_sentence (h : (parse source).isOk = true)
    (hblank : Text.isAllBlank source.toList = false) :
    ∃ sentence : Sentence, tokens source = .ok sentence.tokens
      ∧ Token.AllCompile sentence.tokens := by
  rw [parse, terms] at h
  rw [Expression.tokens]
  cases hscan : Token.scan 0 source.toList with
  | error defect => simp [hscan, Except.isOk, Except.toBool] at h
  | ok lexemes =>
    rw [hscan] at h
    cases lexemes with
    | nil =>
      have hspelling := Token.spelling_of_scan hscan
      generalize source.toList = text at hblank hspelling
      cases hspelling with
      | blank hgap => exact absurd (hblank.symm.trans hgap) Bool.false_ne_true
    | cons lexeme rest =>
      dsimp only at h
      cases hread : Term.read source.toList.length (lexeme :: rest) with
      | error defect => simp [hread, Except.isOk, Except.toBool] at h
      | ok terms =>
        obtain ⟨hcompiles, sentence, hsentence⟩ := Term.exists_of_read hread
        exact ⟨sentence, congrArg Except.ok hsentence.symm, hsentence ▸ hcompiles⟩

/-- A blank text is an expression without nodes. -/
theorem parse_of_isAllBlank (h : Text.isAllBlank source.toList = true) :
    parse source = .ok ⟨source, []⟩ := by
  have hscan : Token.scan 0 source.toList = .ok [] := by
    rw [← List.append_nil source.toList, Token.scan_gap h, Token.scan]
  rw [parse, terms, hscan]
  rfl

end Nodes

end Expression

/-! ## Texts with a mark between them

A mark ends what comes before it, so it does not matter to the tokens of a text that another text
follows after a mark, or comes before one. -/

namespace Spelling

variable {before : Option Token} {offset : Nat} {text rest : List Char} {lexemes others : List Lexeme}

/-- Blanks can stand in front of what can come after anything. -/
theorem gap {gap : List Char} (hgap : Text.isAllBlank gap = true)
    (h : ∀ before, Spelling before (offset + gap.length) rest others) :
    Spelling before offset (gap ++ rest) others := by
  induction gap generalizing before offset with
  | nil => exact h before
  | cons c gap ih =>
    simp only [Text.isAllBlank, List.all_cons, Bool.and_eq_true] at hgap
    refine .cons hgap.1 before (ih hgap.2 fun other => ?_)
    rw [Nat.add_assoc, Nat.add_comm 1]
    exact h other

/-- What can come after anything can come after a text. -/
theorem append (h : Spelling before offset text lexemes)
    (hrest : ∀ before, Spelling before (offset + text.length) rest others) :
    Spelling before offset (text ++ rest) (lexemes ++ others) := by
  induction h with
  | blank hgap => exact .gap hgap hrest
  | @token before offset gap written text token lexemes hgap hapart hwritten h ih =>
    rw [List.append_assoc]
    refine .token hgap hapart hwritten (ih fun other => ?_)
    simpa [Nat.add_assoc] using hrest other

/-- A text spells the same tokens wherever it stands. -/
theorem exists_shift (h : Spelling before offset text lexemes) (other : Nat) :
    ∃ shifted, Spelling before other text shifted
      ∧ shifted.map (·.token) = lexemes.map (·.token) := by
  induction h generalizing other with
  | blank hgap => exact ⟨[], .blank hgap, rfl⟩
  | token hgap hapart hwritten _ ih =>
    obtain ⟨shifted, hshifted, htokens⟩ := ih _
    exact ⟨_, .token hgap hapart hwritten hshifted, by rw [List.map_cons, List.map_cons, htokens]⟩

end Spelling

namespace Expression

/-- A text is cut into tokens, at any offset. -/
def Cuts (text : List Char) (tokens : List Token) : Prop :=
  ∀ offset, ∃ lexemes, Spelling none offset text lexemes ∧ lexemes.map (·.token) = tokens

theorem tokens_eq_ok_iff {source : String} {tokens : List Token} :
    Expression.tokens source = .ok tokens ↔ Cuts source.toList tokens := by
  constructor
  · intro h offset
    obtain ⟨lexemes, hscan, rfl⟩ := exists_of_tokens h
    exact (Token.spelling_of_scan hscan).exists_shift offset
  · intro h
    obtain ⟨lexemes, hspelling, rfl⟩ := h 0
    rw [Expression.tokens, Token.scan_of_spelling hspelling]
    rfl

theorem cuts_nil : Cuts [] [] :=
  fun _ => ⟨[], .blank rfl, rfl⟩

theorem cuts_word {text : String} (h : Token.IsWord text.toList) :
    Cuts text.toList [.word text] := by
  intro offset
  have hspelling : Spelling none offset ([] ++ text.toList ++ [])
      [⟨.word (String.ofList text.toList), offset + 0⟩] :=
    .token rfl nofun (.word h) (.blank rfl)
  rw [List.nil_append, List.append_nil, String.ofList_toList] at hspelling
  exact ⟨_, hspelling, rfl⟩

/-- A mark that sticks to no word can stand between two texts. -/
theorem Cuts.mark {c : Char} {mark : Token} (hmark : Token.ofMark? c = some mark)
    (hsticks : ∀ token : Token, token.sticks mark = false) {text rest : List Char}
    {tokens others : List Token} (htext : Cuts text tokens) (hrest : Cuts rest others) :
    Cuts (text ++ c :: rest) (tokens ++ mark :: others) := by
  intro offset
  obtain ⟨lexemes, hlexemes, rfl⟩ := htext offset
  obtain ⟨more, hmore, rfl⟩ := hrest (offset + text.length + 0 + 1)
  have hafter : ∀ before, Spelling before (offset + text.length) ([] ++ [c] ++ rest)
      (⟨mark, offset + text.length + 0⟩ :: more) := by
    intro before
    have hapart : before.any (·.sticks mark) = false := by
      cases before with
      | none => rfl
      | some token => exact hsticks token
    exact .token rfl (fun h => absurd (hapart.symm.trans h) Bool.false_ne_true) (.mark hmark)
      (hmore.follow (Token.endsBefore_of_ofMark? hmark rest))
  exact ⟨_, hlexemes.append hafter, List.map_append⟩

end Expression

/-! ## Terms with commas between them -/

theorem Term.nodesAll_eq_flatMap (terms : List Term) : Term.nodesAll terms = terms.flatMap nodes := by
  induction terms with
  | nil => rfl
  | cons term rest ih => rw [nodesAll, ih, List.flatMap_cons]

theorem Term.nodesAll_append (terms others : List Term) :
    Term.nodesAll (terms ++ others) = Term.nodesAll terms ++ Term.nodesAll others := by
  simp only [nodesAll_eq_flatMap, List.flatMap_append]

namespace Sentence

/-- A block with a sentence in it is not empty. -/
theorem isEmptyBlock_terms (sentence : Sentence) :
    Term.isEmptyBlock (some sentence.terms) = false := by
  cases sentence <;> rfl

/-- Two sentences with a comma between them. -/
def join : Sentence → Sentence → Sentence
  | last phrase, others => cons phrase false others
  | cons phrase bar rest, others => cons phrase bar (rest.join others)

theorem tokens_join (sentence others : Sentence) :
    (sentence.join others).tokens = sentence.tokens ++ .comma :: others.tokens := by
  cases sentence with
  | last phrase => rfl
  | cons phrase bar rest =>
    rw [join, tokens, tokens, rest.tokens_join, List.append_assoc, List.cons_append]

theorem terms_join (sentence others : Sentence) :
    (sentence.join others).terms = sentence.terms ++ others.terms := by
  cases sentence with
  | last phrase => rfl
  | cons phrase bar rest => rw [join, terms, terms, rest.terms_join, List.cons_append]

theorem height_join (sentence others : Sentence) :
    (sentence.join others).height = max sentence.height others.height := by
  cases sentence with
  | last phrase => rw [join, height, height]
  | cons phrase bar rest =>
    rw [join, height, height, rest.height_join]
    omega

theorem allCompile_join [Glob.Engine] {sentence others : Sentence} :
    Token.AllCompile (sentence.join others).tokens
      ↔ Token.AllCompile sentence.tokens ∧ Token.AllCompile others.tokens := by
  rw [tokens_join, Token.allCompile_append, Token.allCompile_cons]
  exact and_congr_right fun _ => and_iff_right rfl

/-- A comma does not go on with a group. -/
theorem prepend_comma (phrase : Phrase) (rest : Sentence) :
    prepend phrase false rest = cons phrase false rest :=
  if_neg (by simp [goesOn])

/-- A group goes on within a sentence, whatever comes after the comma. -/
theorem prepend_join (phrase : Phrase) (bar : Bool) (sentence others : Sentence) :
    prepend phrase bar (sentence.join others) = (prepend phrase bar sentence).join others := by
  have hhead : (sentence.join others).head = sentence.head := by cases sentence <;> rfl
  rw [prepend, prepend, hhead]
  split
  · cases sentence <;> rfl
  · rfl

theorem greedy_join (sentence others : Sentence) :
    (sentence.join others).greedy = sentence.greedy.join others.greedy := by
  cases sentence with
  | last phrase => rw [join, greedy, greedy, prepend_comma, join]
  | cons phrase bar rest => rw [join, greedy, greedy, rest.greedy_join, prepend_join]

/-- Terms with commas between them. -/
def commas (phrase : Phrase) : List Phrase → Sentence
  | [] => last phrase
  | next :: rest => cons phrase false (commas next rest)

variable (phrase : Phrase) (rest : List Phrase)

theorem tokens_commas :
    (commas phrase rest).tokens
      = phrase.tokens ++ rest.flatMap fun other => .comma :: other.tokens := by
  induction rest generalizing phrase with
  | nil => simp [commas, tokens]
  | cons next rest ih => simp [commas, tokens, separator, ih]

theorem allCompile_commas [Glob.Engine] {phrase : Phrase} {rest : List Phrase} :
    Token.AllCompile (commas phrase rest).tokens
      ↔ ∀ other ∈ phrase :: rest, Token.AllCompile other.tokens := by
  induction rest generalizing phrase with
  | nil => simp [commas, tokens]
  | cons next rest ih =>
    rw [commas, Sentence.allCompile_cons, ih, List.forall_mem_cons (l := next :: rest)]

theorem terms_commas : (commas phrase rest).terms = (phrase :: rest).map Phrase.term := by
  induction rest generalizing phrase with
  | nil => rfl
  | cons next rest ih =>
    rw [commas, terms, ih]
    rfl

theorem greedy_commas :
    (commas phrase rest).greedy = commas phrase.greedy (rest.map Phrase.greedy) := by
  induction rest generalizing phrase with
  | nil => rfl
  | cons next rest ih => rw [commas, greedy, ih, prepend_comma, List.map_cons, commas]

/-- Terms take as many levels as each of them does. -/
theorem height_commas_le (bound : Nat) :
    (commas phrase rest).height ≤ bound ↔ ∀ other ∈ phrase :: rest, other.height ≤ bound := by
  induction rest generalizing phrase with
  | nil => simp [commas, height]
  | cons next rest ih =>
    rw [commas, height, Nat.max_le, ih, List.forall_mem_cons (l := next :: rest)]

end Sentence

/-- A block with terms and commas between them; it is empty if there are no terms. -/
def Block.commas : List Phrase → Block
  | [] => .empty
  | phrase :: rest => .of (Sentence.commas phrase rest)

namespace Block

theorem greedy_commas (phrases : List Phrase) :
    (commas phrases).greedy = commas (phrases.map Phrase.greedy) := by
  cases phrases with
  | nil => rfl
  | cons phrase rest => rw [commas, greedy, Sentence.greedy_commas, List.map_cons, commas]

theorem allCompile_commas [Glob.Engine] {phrases : List Phrase} :
    Token.AllCompile (commas phrases).tokens
      ↔ ∀ phrase ∈ phrases, Token.AllCompile phrase.tokens := by
  cases phrases with
  | nil => exact iff_of_true (by simp [commas, tokens, Token.compiles]) (List.forall_mem_nil _)
  | cons phrase rest => rw [commas, allCompile_of, Sentence.allCompile_commas]

theorem terms?_commas (phrases : List Phrase) :
    (commas phrases).terms? = some (phrases.map Phrase.term) := by
  cases phrases with
  | nil => rfl
  | cons phrase rest => rw [commas, terms?, Sentence.terms_commas]

/-- A block takes as many levels as each of its terms does. -/
theorem height_commas_le {phrases : List Phrase} {bound : Nat} :
    (commas phrases).height ≤ bound ↔ ∀ phrase ∈ phrases, phrase.height ≤ bound := by
  cases phrases with
  | nil => simp [commas, height]
  | cons phrase rest => exact Sentence.height_commas_le phrase rest bound

end Block

/-! ## Terms of one selector -/

namespace Phrase

/-- A term whose group is one selector. -/
def single (negated : Bool) (block : Block) (dotted : Dotted) : Phrase :=
  .mk negated ⟨false, dotted, []⟩ block

/-- A term whose group is one word. -/
def word (negated : Bool) (text : String) (block : Block) : Phrase :=
  single negated block ⟨.word text, []⟩

section Single

variable (negated : Bool) (block : Block) (dotted : Dotted)

theorem allCompile_single [Glob.Engine] {negated : Bool} {block : Block} {dotted : Dotted} :
    Token.AllCompile (single negated block dotted).tokens
      ↔ Token.AllCompile dotted.tokens ∧ Token.AllCompile block.tokens := by
  rw [single, allCompile_tokens, Group.dotteds, List.forall_mem_singleton]

theorem greedy_single :
    (single negated block dotted).greedy = single negated block.greedy dotted := rfl

theorem height_single : (single negated block dotted).height = dotted.length + block.height := rfl

/-- A selector is the nodes of its segments, one within the other, with what stands in the block
as the children of the last one. -/
theorem nodes_single :
    (single negated block dotted).term.nodes
      = [Selector.node dotted.selector.parents ⟨dotted.selector.target, negated,
          block.terms?.isSome, Term.isEmptyBlock block.terms?, Term.blockLevel block.terms?⟩] := by
  rw [single, term, Term.nodes]
  rfl

end Single

section Word

variable (negated : Bool) (text : String) (block : Block)

theorem tokens_word :
    (word negated text block).tokens = sign negated ++ .word text :: block.tokens := by
  cases negated <;> rfl

theorem allCompile_word [Glob.Engine] {negated : Bool} {text : String} {block : Block} :
    Token.AllCompile (word negated text block).tokens
      ↔ (Token.word text).compiles = true ∧ Token.AllCompile block.tokens := by
  have hword : Token.AllCompile (Dotted.tokens ⟨.word text, []⟩)
      ↔ (Token.word text).compiles = true := by simp [Dotted.tokens, Dotted.dots, Segment.token]
  rw [word, allCompile_single, hword]

theorem greedy_word : (word negated text block).greedy = word negated text block.greedy := rfl

theorem height_word : (word negated text block).height = block.height + 1 :=
  Nat.add_comm 1 block.height

/-- A word is one node, with what stands in its block as its children. -/
theorem nodes_word :
    (word negated text block).term.nodes
      = [⟨Name.ofWord text, negated, block.terms?.isSome, Term.isEmptyBlock block.terms?,
          Term.blockLevel block.terms?⟩] :=
  nodes_single negated block ⟨.word text, []⟩

end Word

end Phrase

/-- The text that asks for everything is read as the wildcard, which is never compiled. -/
theorem Expression.parse_everything [Glob.Engine] :
    parse everything = .ok ⟨everything, [Node.everything]⟩ := by
  have htokens : tokens everything = .ok (Sentence.last (.word false "**" .absent)).tokens := by
    decide +kernel
  have hcompiles : Token.AllCompile (Sentence.last (.word false "**" .absent)).tokens :=
    Phrase.allCompile_word.2 ⟨rfl, Token.allCompile_nil⟩
  refine parse_of_nodes? ?_
  rw [nodes?_of_tokens htokens, Sentence.nodes?]
  exact if_pos ⟨hcompiles, by decide⟩

end FieldFilter
