import FieldFilter.Proofs.Grammar

/-!
# Reading a sentence

What the reader makes of a list of tokens, told by the tree that the tokens were written from.  A
greedy tree whose patterns compile is read back as the terms it stands for, just if it does not
take more levels than there are below the place it is read at; and whatever is read was written
from a tree whose patterns compile.

* `Token.isPattern`, `Token.AllCompile` — which words are patterns, and that those among certain
  tokens compile.
* `Term.term?`, `Term.block?`, `Term.terms?` — what is read, with the defects forgotten.
* **`Sentence.terms?_eq`** — a greedy tree is read back.
* **`Term.exists_sentence`** — what is read was written.
-/

namespace FieldFilter

/-! ## Patterns that compile -/

namespace Token

variable [Glob.Engine]

/-- Whether a word is a pattern: it holds a star, and is none of the two bare wildcards. -/
def isPattern (text : String) : Bool :=
  text.toList.contains '*' && text != "*" && text != "**"

/-- Whether a token is no pattern that is refused. -/
def compiles : Token → Bool
  | word text => !isPattern text || (Glob.Engine.refusal? text).isNone
  | _ => true

/-- The patterns among certain tokens compile. -/
def AllCompile (tokens : List Token) : Prop :=
  ∀ token ∈ tokens, token.compiles = true

instance (tokens : List Token) : Decidable (AllCompile tokens) :=
  inferInstanceAs (Decidable (∀ token ∈ tokens, token.compiles = true))

/-- There is no name for a word just if it is a pattern that is refused. -/
theorem refusal?_ofWord (text : String) :
    (Name.ofWord text).refusal? = if isPattern text then Glob.Engine.refusal? text else none := by
  by_cases htwo : text = "**"
  · rw [htwo]
    rfl
  by_cases hone : text = "*"
  · rw [hone]
    rfl
  have hpattern : isPattern text = text.toList.contains '*' := by
    rw [isPattern, bne_iff_ne.2 hone, bne_iff_ne.2 htwo, Bool.and_true, Bool.and_true]
  rw [Name.ofWord, if_neg htwo, if_neg hone, hpattern]
  split <;> rfl

theorem refusal?_ofWord_eq_some {text reason : String} :
    (Name.ofWord text).refusal? = some reason
      ↔ isPattern text = true ∧ Glob.Engine.refusal? text = some reason := by
  rw [refusal?_ofWord, Option.ite_none_right_eq_some]

theorem compiles_word (text : String) :
    (word text).compiles = (Name.ofWord text).refusal?.isNone := by
  rw [refusal?_ofWord, compiles]
  cases isPattern text <;> rfl

@[simp]
theorem allCompile_nil : AllCompile [] :=
  List.forall_mem_nil _

@[simp]
theorem allCompile_cons {token : Token} {tokens : List Token} :
    AllCompile (token :: tokens) ↔ token.compiles = true ∧ AllCompile tokens :=
  List.forall_mem_cons

@[simp]
theorem allCompile_append {tokens others : List Token} :
    AllCompile (tokens ++ others) ↔ AllCompile tokens ∧ AllCompile others :=
  List.forall_mem_append

end Token

open Token

section Trees

variable [Glob.Engine]

/-- The patterns of a selector are among its segments. -/
theorem Dotted.allCompile_dots {more : List Segment} :
    AllCompile (dots more) ↔ ∀ segment ∈ more, segment.token.compiles = true := by
  induction more with
  | nil => simp [dots]
  | cons segment more ih =>
      rw [dots_cons, allCompile_cons, allCompile_cons, ih, List.forall_mem_cons]
      exact and_iff_right rfl

theorem Dotted.allCompile_tokens {dotted : Dotted} :
    AllCompile dotted.tokens
      ↔ ∀ segment ∈ dotted.first :: dotted.more, segment.token.compiles = true := by
  rw [tokens, allCompile_cons, allCompile_dots, List.forall_mem_cons]

theorem Group.allCompile_bars {more : List Dotted} :
    AllCompile (bars more) ↔ ∀ dotted ∈ more, AllCompile dotted.tokens := by
  induction more with
  | nil => simp [bars]
  | cons dotted more ih =>
      rw [bars_cons, ← List.cons_append, allCompile_cons, allCompile_append, ih,
        List.forall_mem_cons]
      exact and_iff_right rfl

theorem Group.allCompile_tokens {group : Group} :
    AllCompile group.tokens ↔ ∀ dotted ∈ group.dotteds, AllCompile dotted.tokens := by
  have hinner : AllCompile group.inner ↔ ∀ dotted ∈ group.dotteds, AllCompile dotted.tokens := by
    rw [inner, allCompile_append, allCompile_bars, dotteds, List.forall_mem_cons]
  rw [tokens, ← hinner]
  split
  · rw [allCompile_append, allCompile_cons, allCompile_cons]
    exact ⟨fun h => h.1.2, fun h => ⟨⟨rfl, h⟩, rfl, allCompile_nil⟩⟩
  · rfl

/-- The patterns of a term are those of its selectors and of its block. -/
theorem Phrase.allCompile_tokens {negated : Bool} {group : Group} {block : Block} :
    AllCompile (mk negated group block).tokens
      ↔ (∀ dotted ∈ group.dotteds, AllCompile dotted.tokens) ∧ AllCompile block.tokens := by
  have hsign : AllCompile (sign negated) := by
    cases negated
    · exact allCompile_nil
    · exact allCompile_cons.2 ⟨rfl, allCompile_nil⟩
  rw [tokens, allCompile_append, allCompile_append, Group.allCompile_tokens, and_iff_right hsign]

theorem Block.allCompile_of {inner : Sentence} :
    AllCompile (of inner).tokens ↔ AllCompile inner.tokens := by
  rw [tokens, allCompile_append, allCompile_cons, allCompile_cons]
  exact ⟨fun h => h.1.2, fun h => ⟨⟨rfl, h⟩, rfl, allCompile_nil⟩⟩

theorem Sentence.compiles_separator (bar : Bool) : (separator bar).compiles = true := by
  cases bar <;> rfl

theorem Sentence.allCompile_cons {phrase : Phrase} {bar : Bool} {rest : Sentence} :
    AllCompile (cons phrase bar rest).tokens
      ↔ AllCompile phrase.tokens ∧ AllCompile rest.tokens := by
  rw [tokens, allCompile_append, Token.allCompile_cons]
  exact and_congr_right fun _ => and_iff_right (compiles_separator bar)

end Trees

namespace Term

theorem toOption_map {ε α β : Type} (f : α → β) (answer : Except ε α) :
    (answer.map f).toOption = answer.toOption.map f := by
  cases answer <;> rfl

theorem toOption_eq_some {ε α : Type} {answer : Except ε α} {a : α} :
    answer.toOption = some a ↔ answer = .ok a := by
  cases answer <;> simp [Except.toOption]

theorem toOption_eq_none {ε α : Type} {answer : Except ε α} :
    answer.toOption = none ↔ ∃ fault, answer = .error fault := by
  cases answer <;> simp [Except.toOption]

theorem opensSelector_token (segment : Segment) : segment.token.opensSelector = true := by
  cases segment <;> rfl

/-- No mark is a segment. -/
theorem token_ne (segment : Segment) {mark : Token} (h : mark.opensSelector = false) :
    segment.token ≠ mark := by
  rintro rfl
  exact Bool.false_ne_true (h.symm.trans (opensSelector_token segment))

section Depth

variable {stop depth : Nat}

theorem checkDepth_of_lt (h : depth < depthLimit) (input : List Lexeme) :
    checkDepth stop depth input = .ok () :=
  if_neg (Nat.not_le.2 h)

theorem checkDepth_of_le (h : depthLimit ≤ depth) (input : List Lexeme) :
    checkDepth stop depth input = .error ⟨.tooDeep, offsetOf stop input⟩ :=
  if_pos h

end Depth

variable [Glob.Engine] {stop depth : Nat} {inParens : Bool}

/-! ## Segments -/

theorem segment_token {segment : Segment} (hcompiles : segment.token.compiles = true)
    (offset : Nat) : Term.segment ⟨segment.token, offset⟩ = .ok segment.name := by
  cases segment with
  | word text =>
      rw [Segment.token, compiles_word, Option.isNone_iff_eq_none] at hcompiles
      rw [Term.segment, Segment.token]
      dsimp only
      rw [classify, hcompiles]
      rfl
  | quoted text nonempty =>
      rw [Term.segment, Segment.token]
      dsimp only
      rw [nonempty]
      rfl

/-- What can be read as a segment is one, and compiles. -/
theorem exists_segment {lexeme : Lexeme} {name : Name} (h : Term.segment lexeme = .ok name) :
    lexeme.token.compiles = true
      ∧ ∃ segment : Segment, segment.token = lexeme.token ∧ segment.name = name := by
  rcases lexeme with ⟨token, offset⟩
  cases token with
  | word text =>
      rw [Term.segment] at h
      dsimp only at h
      rw [classify.eq_def] at h
      split at h
      · cases h
      · next hcompiles =>
        cases h
        refine ⟨?_, .word text, rfl, rfl⟩
        rw [compiles_word, hcompiles]
        rfl
  | quoted text =>
      rw [Term.segment] at h
      dsimp only at h
      split at h
      · cases h
      · next hempty =>
        cases h
        exact ⟨rfl, .quoted text (Bool.eq_false_iff.2 hempty), rfl, rfl⟩
  | _ => cases h

/-! ## Groups -/

/-- A selector is read on as long as dots follow, and as there are levels. -/
theorem readSelectors_dots {more : List Segment} {selector : Selector} {front : List Lexeme}
    (hfront : front.map (·.token) = Dotted.dots more) (hcompiles : AllCompile (Dotted.dots more))
    (hdepth : depth + selector.parents.length < depthLimit) (rest : List Lexeme) :
    (readSelectors stop depth inParens selector.parents selector.target (front ++ rest)).toOption
      = if depth + selector.parents.length + more.length < depthLimit then
          (readSelectors stop depth inParens (Dotted.extend selector more).parents
            (Dotted.extend selector more).target rest).toOption
        else none := by
  induction more generalizing selector front with
  | nil =>
      obtain rfl := List.map_eq_nil_iff.1 hfront
      rw [List.length_nil, Nat.add_zero, if_pos hdepth]
      rfl
  | cons segment more ih =>
      obtain ⟨⟨_, dot⟩, after, rfl, rfl, hafter⟩ := List.map_eq_cons_iff.1 hfront
      obtain ⟨⟨_, offset⟩, front, rfl, rfl, hmore⟩ := List.map_eq_cons_iff.1 hafter
      rw [Dotted.dots_cons, allCompile_cons, allCompile_cons] at hcompiles
      obtain ⟨-, hsegment, hothers⟩ := hcompiles
      rw [List.cons_append, List.cons_append, readSelectors]
      rcases Nat.lt_or_ge (depth + selector.parents.length + 1) depthLimit with hnext | hdeep
      · have hlonger : depth + (selector.parents ++ [selector.target]).length < depthLimit := by
          rw [List.length_append, List.length_singleton, ← Nat.add_assoc]
          exact hnext
        have hrest := @ih ⟨selector.parents ++ [selector.target], segment.name⟩ front hmore hothers
          hlonger
        rw [List.length_append, List.length_singleton, ← Nat.add_assoc, Nat.add_assoc _ 1,
          Nat.add_comm 1] at hrest
        rw [checkDepth_of_lt hnext, segment_token hsegment, List.length_cons]
        exact hrest
      · rw [checkDepth_of_le hdeep, List.length_cons, if_neg (by omega)]
        rfl

/-- Whether nothing goes on with a group: no dot, and no bar before a further selector. -/
def endsGroup (inParens : Bool) : List Lexeme → Bool
  | ⟨.dot, _⟩ :: _ => false
  | ⟨.pipe, _⟩ :: rest => !inParens && !rest.head?.any (·.token.opensSelector)
  | _ => true

theorem readSelectors_of_endsGroup {rest : List Lexeme} (h : endsGroup inParens rest = true)
    (parents : List Name) (current : Name) :
    readSelectors stop depth inParens parents current rest = .ok ([⟨parents, current⟩], rest) := by
  rcases rest with _ | ⟨⟨token, offset⟩, after⟩
  · rw [readSelectors] <;> simp
  · cases token with
    | dot => exact absurd h Bool.false_ne_true
    | pipe =>
        obtain ⟨hparens, hafter⟩ := Bool.and_eq_true_iff.1 h
        rw [Bool.not_eq_true'] at hparens hafter
        subst hparens
        cases after with
        | nil => rfl
        | cons lexeme after =>
            rw [List.head?_cons, Option.any_some] at hafter
            rw [readSelectors, hafter]
            rfl
    | _ => rw [readSelectors] <;> simp

/-- A selector is read from after its first segment, if it does not reach too deep. -/
theorem readSelectors_selector {dotted : Dotted} {front : List Lexeme}
    (hfront : front.map (·.token) = Dotted.dots dotted.more)
    (hcompiles : AllCompile (Dotted.dots dotted.more)) (hdepth : depth < depthLimit)
    (rest : List Lexeme) :
    (readSelectors stop depth inParens [] dotted.first.name (front ++ rest)).toOption
      = if depth + dotted.length ≤ depthLimit then
          (readSelectors stop depth inParens dotted.selector.parents dotted.selector.target
            rest).toOption
        else none := by
  have hdots := @readSelectors_dots _ stop depth inParens dotted.more ⟨[], dotted.first.name⟩ front
    hfront hcompiles hdepth rest
  rw [List.length_nil, Nat.add_zero] at hdots
  exact hdots

/-- The selectors of a group are read from after its first segment, if none reaches too deep. -/
theorem readSelectors_bars {dotted : Dotted} {more : List Dotted} {front : List Lexeme}
    (hfront : front.map (·.token) = Dotted.dots dotted.more ++ Group.bars more)
    (hcompiles : AllCompile (Dotted.dots dotted.more ++ Group.bars more))
    (hdepth : depth < depthLimit) {rest : List Lexeme} (hends : endsGroup inParens rest = true) :
    (readSelectors stop depth inParens [] dotted.first.name (front ++ rest)).toOption
      = if ∀ other ∈ dotted :: more, depth + other.length ≤ depthLimit then
          some ((dotted :: more).map Dotted.selector, rest)
        else none := by
  induction more generalizing dotted front with
  | nil =>
      have hdots : front.map (·.token) = Dotted.dots dotted.more :=
        hfront.trans (List.append_nil _)
      rw [readSelectors_selector hdots (allCompile_append.1 hcompiles).1 hdepth,
        readSelectors_of_endsGroup hends]
      simp only [List.forall_mem_singleton]
      rfl
  | cons next more ih =>
      obtain ⟨dots, bars, rfl, hdots, hbars⟩ := List.map_eq_append_iff.1 hfront
      rw [Group.bars_cons] at hbars hcompiles
      rw [allCompile_append, allCompile_cons, allCompile_cons] at hcompiles
      obtain ⟨hsegments, -, hsegment, hmore⟩ := hcompiles
      obtain ⟨⟨_, pipe⟩, after, rfl, rfl, hafter⟩ := List.map_eq_cons_iff.1 hbars
      obtain ⟨⟨_, offset⟩, others, rfl, rfl, hothers⟩ := List.map_eq_cons_iff.1 hafter
      rw [List.append_assoc, readSelectors_selector hdots hsegments hdepth, List.cons_append,
        List.cons_append, readSelectors, opensSelector_token, Bool.or_true, if_pos rfl,
        segment_token hsegment]
      dsimp only
      rw [toOption_map, ih hothers hmore]
      have hcons : (∀ other ∈ dotted :: next :: more, depth + other.length ≤ depthLimit)
          ↔ depth + dotted.length ≤ depthLimit
            ∧ ∀ other ∈ next :: more, depth + other.length ≤ depthLimit := List.forall_mem_cons
      by_cases hfits : depth + dotted.length ≤ depthLimit
      · by_cases hall : ∀ other ∈ next :: more, depth + other.length ≤ depthLimit
        · rw [if_pos hfits, if_pos hall, if_pos (hcons.2 ⟨hfits, hall⟩)]
          rfl
        · rw [if_pos hfits, if_neg hall, if_neg fun h => hall (hcons.1 h).2]
          rfl
      · rw [if_neg hfits, if_neg fun h => hfits (hcons.1 h).1]

/-- The selectors of a group are read, parentheses apart. -/
theorem readFirst_inner (group : Group) {front : List Lexeme}
    (hfront : front.map (·.token) = group.inner) (hcompiles : AllCompile group.inner)
    {rest : List Lexeme} (hends : endsGroup inParens rest = true) :
    (readFirst stop depth inParens (front ++ rest)).toOption
      = if depth + group.longest ≤ depthLimit then some (group.selectors, rest) else none := by
  simp only [group.add_longest_le]
  rw [readFirst.eq_def]
  rcases Nat.lt_or_ge depth depthLimit with hdepth | hdeep
  · rw [group.inner_eq_cons] at hfront hcompiles
    obtain ⟨hsegment, hcompiles⟩ := allCompile_cons.1 hcompiles
    obtain ⟨⟨_, offset⟩, front, rfl, rfl, hmore⟩ := List.map_eq_cons_iff.1 hfront
    rw [checkDepth_of_lt hdepth, List.cons_append]
    dsimp only
    rw [segment_token hsegment]
    exact readSelectors_bars hmore hcompiles hdepth hends
  · rw [checkDepth_of_le hdeep, if_neg]
    · rfl
    · intro hall
      have hfirst := hall group.first List.mem_cons_self
      rw [Dotted.length] at hfirst
      omega

/-- **A group is read**, if none of its selectors reaches too deep. -/
theorem readGroup_eq (group : Group) {front : List Lexeme}
    (hfront : front.map (·.token) = group.tokens) (hcompiles : AllCompile group.tokens)
    {rest : List Lexeme}
    (hends : group.inParens = false → endsGroup false rest = true) :
    (readGroup stop depth (front ++ rest)).toOption
      = if depth + group.longest ≤ depthLimit then some (group.selectors, rest) else none := by
  rw [Group.tokens] at hfront hcompiles
  cases hparens : group.inParens with
  | true =>
      rw [hparens, if_pos rfl, List.cons_append] at hfront hcompiles
      rw [allCompile_cons, allCompile_append] at hcompiles
      obtain ⟨⟨_, offset⟩, after, rfl, rfl, hafter⟩ := List.map_eq_cons_iff.1 hfront
      obtain ⟨inner, close, rfl, hinner, hclose⟩ := List.map_eq_append_iff.1 hafter
      obtain ⟨⟨_, closing⟩, _, rfl, rfl, hnil⟩ := List.map_eq_cons_iff.1 hclose
      obtain rfl := List.map_eq_nil_iff.1 hnil
      have hfirst := @readFirst_inner _ stop depth true group inner hinner hcompiles.2.1
        (⟨.closeParen, closing⟩ :: rest) rfl
      rw [List.cons_append, List.append_assoc, List.singleton_append, readGroup]
      by_cases hfits : depth + group.longest ≤ depthLimit
      · rw [if_pos hfits] at hfirst ⊢
        rw [toOption_eq_some.1 hfirst]
        rfl
      · rw [if_neg hfits] at hfirst ⊢
        obtain ⟨defect, hdefect⟩ := toOption_eq_none.1 hfirst
        rw [hdefect]
        rfl
  | false =>
      rw [hparens, if_neg Bool.false_ne_true] at hfront hcompiles
      rw [readGroup, readFirst_inner group hfront hcompiles (hends hparens)]
      intro offset after hopen
      rw [group.inner_eq_cons] at hfront
      obtain ⟨lexeme, more, rfl, hlexeme, -⟩ := List.map_eq_cons_iff.1 hfront
      rw [List.cons_append, List.cons.injEq] at hopen
      exact token_ne group.first.first rfl (hlexeme.symm.trans (congrArg (·.token) hopen.1))

/-! ## Terms and blocks -/

/-- What is read as a block. -/
def block? (stop depth : Nat) (input : List Lexeme) :
    Option (Option (List Term) × List Lexeme) :=
  (readBlock stop depth input).toOption.map fun reading => (reading.value, reading.rest)

/-- What is read as terms. -/
def terms? (stop depth : Nat) (input : List Lexeme) : Option (List Term × List Lexeme) :=
  (readAll stop depth input).toOption.map fun reading => (reading.value, reading.rest)

/-- What is read as a term. -/
def term? (stop depth : Nat) (input : List Lexeme) : Option (Term × List Lexeme) :=
  (readGroup stop depth (readSign input).2).toOption.bind fun (group, afterGroup) =>
    (block? stop (depth + Selector.groupDepth group) afterGroup).map fun (block, after) =>
      (⟨(readSign input).1, group, block⟩, after)

theorem block?_empty (opening closing : Nat) (rest : List Lexeme) :
    block? stop depth (⟨.openBrace, opening⟩ :: ⟨.closeBrace, closing⟩ :: rest)
      = some (some [], rest) := by
  rw [block?, readBlock]
  rfl

/-- A block that holds something is closed after it. -/
theorem block?_openBrace (offset : Nat) {rest : List Lexeme}
    (h : rest.head?.map (·.token) ≠ some .closeBrace) :
    block? stop depth (⟨.openBrace, offset⟩ :: rest)
      = (terms? stop depth rest).bind fun read =>
          match read.2 with
          | ⟨.closeBrace, _⟩ :: after => some (some read.1, after)
          | _ => none := by
  rw [block?, terms?, readBlock]
  · cases readAll stop depth rest with
    | error defect => rfl
    | ok reading =>
        rcases reading with ⟨inner, _ | ⟨⟨token, closing⟩, after⟩, hshorter⟩
        · rfl
        · cases token <;> rfl
  · rintro closing after rfl
    exact h rfl

theorem block?_absent {input : List Lexeme} (h : input.head?.map (·.token) ≠ some .openBrace) :
    block? stop depth input = some (none, input) := by
  rw [block?, readBlock]
  · rfl
  · rintro opening closing after rfl
    exact h rfl
  · rintro opening after rfl
    exact h rfl

/-- Terms follow each other up to the end or to a closing brace. -/
theorem terms?_eq (input : List Lexeme) :
    terms? stop depth input
      = (term? stop depth input).bind fun read =>
          match read.2 with
          | [] => some ([read.1], [])
          | ⟨token, offset⟩ :: rest =>
            if token = .comma ∨ token = .pipe then
              (terms? stop depth rest).map fun others => (read.1 :: others.1, others.2)
            else if token = .closeBrace then some ([read.1], ⟨token, offset⟩ :: rest)
            else none := by
  rw [terms?, readAll]
  split
  · next defect hgroup =>
    rw [term?, hgroup]
    rfl
  · next group afterGroup hgroup =>
    have hterm : term? stop depth input
        = (block? stop (depth + Selector.groupDepth group) afterGroup).map fun (block, after) =>
            (⟨(readSign input).1, group, block⟩, after) := by
      rw [term?, hgroup]
      rfl
    rw [hterm, block?]
    rcases readBlock stop (depth + Selector.groupDepth group) afterGroup with
      defect | ⟨block, _ | ⟨⟨token, offset⟩, rest⟩, hshorter⟩
    · rfl
    · rfl
    · dsimp only [Except.toOption, Option.map_some, Option.bind_some]
      by_cases hseparator : token = .comma ∨ token = .pipe
      · simp only [if_pos hseparator]
        rw [terms?]
        rcases readAll stop depth rest with defect | reading
        · rfl
        · rfl
      · by_cases hclosing : token = .closeBrace
        · simp only [if_neg hseparator, if_pos hclosing, Option.map_some]
        · simp only [if_neg hseparator, if_neg hclosing, Option.map_none]

end Term

/-! ## What was written is read -/

/-- A term starts with a segment just if nothing stands before its first selector. -/
theorem Phrase.exists_tokens_eq_cons (phrase : Phrase) :
    ∃ token more, phrase.tokens = token :: more ∧ token.opensSelector = phrase.isBare
      ∧ token ≠ .closeBrace := by
  rcases phrase with ⟨_ | _, ⟨_ | _, first, others⟩, block⟩
  · exact ⟨first.first.token, _, rfl, Term.opensSelector_token _, Term.token_ne _ rfl⟩
  · exact ⟨.openParen, _, rfl, rfl, nofun⟩
  · exact ⟨.minus, _, rfl, rfl, nofun⟩
  · exact ⟨.minus, _, rfl, rfl, nofun⟩

/-- A sentence starts as its first term does. -/
theorem Sentence.exists_tokens_eq_cons (sentence : Sentence) :
    ∃ token more, sentence.tokens = token :: more ∧ token.opensSelector = sentence.head.isBare
      ∧ token ≠ .closeBrace := by
  cases sentence with
  | last phrase =>
      rw [tokens, head]
      exact phrase.exists_tokens_eq_cons
  | cons phrase bar rest =>
      obtain ⟨token, more, htokens, hopens, hclosing⟩ := phrase.exists_tokens_eq_cons
      rw [tokens, head, htokens]
      exact ⟨token, _, rfl, hopens, hclosing⟩

/-- The sign of a term is read. -/
theorem Phrase.readSign_append (negated : Bool) (group : Group) {front : List Lexeme}
    (hfront : front.map (·.token) = Phrase.sign negated ++ group.tokens) :
    ∃ after, after.map (·.token) = group.tokens
      ∧ ∀ rest, Term.readSign (front ++ rest) = (negated, after ++ rest) := by
  cases negated with
  | true =>
      obtain ⟨⟨_, offset⟩, after, rfl, rfl, hafter⟩ := List.map_eq_cons_iff.1 hfront
      exact ⟨after, hafter, fun _ => rfl⟩
  | false =>
      refine ⟨front, hfront, ?_⟩
      intro rest
      obtain ⟨token, more, htokens, hminus⟩ : ∃ token more, group.tokens = token :: more
          ∧ token ≠ .minus := by
        rcases group with ⟨_ | _, first, others⟩
        · exact ⟨first.first.token, _, rfl, Term.token_ne _ rfl⟩
        · exact ⟨.openParen, _, rfl, nofun⟩
      rw [Phrase.sign, if_neg Bool.false_ne_true, List.nil_append, htokens] at hfront
      obtain ⟨⟨_, offset⟩, after, rfl, rfl, -⟩ := List.map_eq_cons_iff.1 hfront
      rw [List.cons_append, Term.readSign]
      intro offset' after' hcons
      cases hcons
      exact hminus rfl

/-- Whether a term ends before the next token; an open one ends at a bar just if no selector
follows. -/
def Term.endsTerm (isOpen : Bool) : List Lexeme → Bool
  | [] => true
  | ⟨.comma, _⟩ :: _ | ⟨.closeBrace, _⟩ :: _ => true
  | ⟨.pipe, _⟩ :: rest => !(isOpen && rest.head?.any (·.token.opensSelector))
  | _ => false

theorem Term.endsGroup_of_endsTerm {rest : List Lexeme} (h : endsTerm true rest = true) :
    endsGroup false rest = true := by
  rcases rest with _ | ⟨⟨token, offset⟩, after⟩
  · rfl
  · cases token with
    | pipe => exact h
    | dot => exact absurd h Bool.false_ne_true
    | _ => rfl

/-- No block follows where a term ends. -/
theorem Term.head?_ne_of_endsTerm {isOpen : Bool} {rest : List Lexeme}
    (h : endsTerm isOpen rest = true) : rest.head?.map (·.token) ≠ some .openBrace := by
  rcases rest with _ | ⟨⟨token, offset⟩, after⟩
  · exact nofun
  · intro hopen
    cases hopen
    exact Bool.false_ne_true h

theorem Dotted.depth_extend (selector : Selector) (more : List Segment) :
    (Dotted.extend selector more).depth = selector.depth + more.length := by
  induction more generalizing selector with
  | nil => rfl
  | cons segment more ih =>
      rw [Dotted.extend, List.foldl_cons, ← Dotted.extend, ih, Selector.depth, Selector.depth,
        List.length_append, List.length_singleton, List.length_cons]
      omega

/-- A selector reaches one level down per segment. -/
theorem Dotted.depth_selector (dotted : Dotted) : dotted.selector.depth = dotted.length := by
  rw [Dotted.selector, Dotted.depth_extend, Dotted.length, Selector.depth, List.length_nil]
  omega

/-- The depth of the selectors of a group is that of the group. -/
theorem Group.groupDepth_selectors (group : Group) :
    Selector.groupDepth group.selectors = group.longest := by
  rw [Selector.groupDepth, selectors, longest, List.map_map]
  exact congrArg (List.foldr max 0) (List.map_congr_left fun dotted _ => dotted.depth_selector)

section Greedy

variable [Glob.Engine] {stop depth : Nat}

mutual

theorem Phrase.term?_eq (phrase : Phrase) (hgreedy : phrase.Greedy) {depth : Nat}
    {front : List Lexeme} (hfront : front.map (·.token) = phrase.tokens)
    (hcompiles : AllCompile phrase.tokens) {rest : List Lexeme}
    (hends : Term.endsTerm phrase.isOpen rest = true) :
    Term.term? stop depth (front ++ rest)
      = if depth + phrase.height ≤ Term.depthLimit then some (phrase.term, rest) else none := by
  rcases phrase with ⟨negated, group, block⟩
  rw [Phrase.tokens] at hfront hcompiles
  rw [Phrase.Greedy] at hgreedy
  rw [allCompile_append, allCompile_append] at hcompiles
  obtain ⟨⟨-, hinGroup⟩, hinBlock⟩ := hcompiles
  obtain ⟨fgroup, fblock, rfl, hgroup, hblock⟩ := List.map_eq_append_iff.1 hfront
  obtain ⟨after, hafter, hsign⟩ := Phrase.readSign_append negated group hgroup
  have hcloses : group.inParens = false → Term.endsGroup false (fblock ++ rest) = true := by
    intro hparens
    cases block with
    | absent =>
        obtain rfl := List.map_eq_nil_iff.1 hblock
        have hopen : (Phrase.mk negated group .absent).isOpen = true := by
          rw [Phrase.isOpen, hparens]
          rfl
        rw [hopen] at hends
        exact Term.endsGroup_of_endsTerm hends
    | empty =>
        obtain ⟨⟨_, offset⟩, more, rfl, rfl, -⟩ := List.map_eq_cons_iff.1 hblock
        rfl
    | of inner =>
        rw [Block.tokens, List.cons_append] at hblock
        obtain ⟨⟨_, offset⟩, more, rfl, rfl, -⟩ := List.map_eq_cons_iff.1 hblock
        rfl
  rw [Term.term?, List.append_assoc, hsign, Term.readGroup_eq group hafter hinGroup hcloses,
    Phrase.height, ← Nat.add_assoc]
  by_cases hfits : depth + group.longest ≤ Term.depthLimit
  · rw [if_pos hfits, Option.bind_some]
    dsimp only
    rw [group.groupDepth_selectors, block.block?_eq hgreedy hfits hblock hinBlock
      (Term.head?_ne_of_endsTerm hends)]
    split <;> rfl
  · rw [if_neg hfits, if_neg (by omega)]
    rfl

theorem Block.block?_eq (block : Block) (hgreedy : block.Greedy) {depth : Nat}
    (hdepth : depth ≤ Term.depthLimit) {front : List Lexeme}
    (hfront : front.map (·.token) = block.tokens) (hcompiles : AllCompile block.tokens)
    {rest : List Lexeme} (hrest : rest.head?.map (·.token) ≠ some .openBrace) :
    Term.block? stop depth (front ++ rest)
      = if depth + block.height ≤ Term.depthLimit then some (block.terms?, rest) else none := by
  cases block with
  | absent =>
      obtain rfl := List.map_eq_nil_iff.1 hfront
      rw [List.nil_append, Term.block?_absent hrest, Block.height, Nat.add_zero, if_pos hdepth]
      rfl
  | empty =>
      obtain ⟨⟨_, opening⟩, after, rfl, rfl, hafter⟩ := List.map_eq_cons_iff.1 hfront
      obtain ⟨⟨_, closing⟩, _, rfl, rfl, hnil⟩ := List.map_eq_cons_iff.1 hafter
      obtain rfl := List.map_eq_nil_iff.1 hnil
      rw [List.cons_append, List.cons_append, Term.block?_empty, Block.height, Nat.add_zero,
        if_pos hdepth]
      rfl
  | of inner =>
      rw [Block.tokens, List.cons_append] at hfront hcompiles
      rw [allCompile_cons, allCompile_append] at hcompiles
      rw [Block.Greedy] at hgreedy
      obtain ⟨⟨_, opening⟩, after, rfl, rfl, hafter⟩ := List.map_eq_cons_iff.1 hfront
      obtain ⟨finner, close, rfl, hinner, hclose⟩ := List.map_eq_append_iff.1 hafter
      obtain ⟨⟨_, closing⟩, _, rfl, rfl, hnil⟩ := List.map_eq_cons_iff.1 hclose
      obtain rfl := List.map_eq_nil_iff.1 hnil
      have hhead : (finner ++ ⟨.closeBrace, closing⟩ :: rest).head?.map (·.token)
          ≠ some .closeBrace := by
        obtain ⟨token, more, htokens, -, hne⟩ := inner.exists_tokens_eq_cons
        rw [htokens] at hinner
        obtain ⟨⟨_, offset⟩, others, rfl, rfl, -⟩ := List.map_eq_cons_iff.1 hinner
        exact fun hsome => hne (Option.some.inj hsome)
      rw [List.cons_append, List.append_assoc, List.singleton_append,
        Term.block?_openBrace opening hhead, inner.terms?_eq hgreedy hinner hcompiles.2.1
          (Or.inr ⟨_, _, rfl⟩), Block.height]
      split <;> rfl

/-- **A greedy tree is read back**, if its patterns compile and it does not take more levels than
there are. -/
theorem Sentence.terms?_eq (sentence : Sentence) (hgreedy : sentence.Greedy) {depth : Nat}
    {front : List Lexeme} (hfront : front.map (·.token) = sentence.tokens)
    (hcompiles : AllCompile sentence.tokens) {rest : List Lexeme}
    (hrest : rest = [] ∨ ∃ offset after, rest = ⟨.closeBrace, offset⟩ :: after) :
    Term.terms? stop depth (front ++ rest)
      = if depth + sentence.height ≤ Term.depthLimit then some (sentence.terms, rest)
        else none := by
  cases sentence with
  | last phrase =>
      rw [Sentence.tokens] at hfront hcompiles
      rw [Sentence.Greedy] at hgreedy
      have hends : Term.endsTerm phrase.isOpen rest = true := by
        rcases hrest with rfl | ⟨offset, after, rfl⟩ <;> rfl
      rw [Term.terms?_eq, phrase.term?_eq hgreedy hfront hcompiles hends, Sentence.height]
      split
      · rcases hrest with rfl | ⟨offset, after, rfl⟩ <;> rfl
      · rfl
  | cons phrase bar others =>
      rw [Sentence.tokens] at hfront hcompiles
      rw [allCompile_append, allCompile_cons] at hcompiles
      obtain ⟨hinPhrase, -, hinOthers⟩ := hcompiles
      rw [Sentence.Greedy] at hgreedy
      obtain ⟨hphrase, hnext, hothers⟩ := hgreedy
      obtain ⟨fphrase, after, rfl, hfphrase, hafter⟩ := List.map_eq_append_iff.1 hfront
      obtain ⟨⟨_, offset⟩, fothers, rfl, rfl, hfothers⟩ := List.map_eq_cons_iff.1 hafter
      -- here the tree has to be greedy: a bar after an open term must not go on with its group
      have hends : Term.endsTerm phrase.isOpen
          (⟨Sentence.separator bar, offset⟩ :: fothers ++ rest) = true := by
        cases bar with
        | false => rfl
        | true =>
            obtain ⟨token, more, htokens, hopens, -⟩ := others.exists_tokens_eq_cons
            rw [htokens] at hfothers
            obtain ⟨⟨_, offset'⟩, more', rfl, rfl, -⟩ := List.map_eq_cons_iff.1 hfothers
            rw [Sentence.goesOn, Bool.true_and, ← hopens] at hnext
            exact congrArg not hnext
      rw [List.append_assoc, Term.terms?_eq, phrase.term?_eq hphrase hfphrase hinPhrase hends,
        Sentence.height]
      have hseparator : Sentence.separator bar = .comma ∨ Sentence.separator bar = .pipe := by
        cases bar
        · exact Or.inl rfl
        · exact Or.inr rfl
      by_cases hfits : depth + phrase.height ≤ Term.depthLimit
      · rw [if_pos hfits, Option.bind_some]
        dsimp only [List.cons_append]
        rw [if_pos hseparator, others.terms?_eq hothers hfothers hinOthers hrest]
        by_cases hrestFits : depth + others.height ≤ Term.depthLimit
        · rw [if_pos hrestFits, if_pos (by omega)]
          rfl
        · rw [if_neg hrestFits, if_neg (by omega)]
          rfl
      · rw [if_neg hfits, if_neg (by omega)]
        rfl

end

end Greedy

/-! ## What is read was written -/

namespace Term

variable [Glob.Engine] {stop depth : Nat}

/-- Certain tokens, whose patterns compile, are taken from an input, and the rest is left. -/
def Takes (tokens : List Token) (input rest : List Lexeme) : Prop :=
  AllCompile tokens ∧ ∃ front, input = front ++ rest ∧ front.map (·.token) = tokens

theorem takes_nil (rest : List Lexeme) : Takes [] rest rest :=
  ⟨allCompile_nil, [], rfl, rfl⟩

theorem Takes.cons {token : Token} {tokens : List Token} {input rest : List Lexeme}
    (h : Takes tokens input rest) (hcompiles : token.compiles = true) (offset : Nat) :
    Takes (token :: tokens) (⟨token, offset⟩ :: input) rest := by
  obtain ⟨hothers, front, rfl, rfl⟩ := h
  exact ⟨allCompile_cons.2 ⟨hcompiles, hothers⟩, ⟨token, offset⟩ :: front, rfl, rfl⟩

theorem Takes.append {tokens others : List Token} {input middle rest : List Lexeme}
    (h : Takes tokens input middle) (hothers : Takes others middle rest) :
    Takes (tokens ++ others) input rest := by
  obtain ⟨hfront, front, rfl, rfl⟩ := h
  obtain ⟨hback, back, rfl, rfl⟩ := hothers
  exact ⟨allCompile_append.2 ⟨hfront, hback⟩, front ++ back, (List.append_assoc ..).symm,
    List.map_append⟩

/-- A lexeme that can be read as a segment takes a segment. -/
theorem takes_segment {lexeme : Lexeme} {name : Name} (h : Term.segment lexeme = .ok name)
    (rest : List Lexeme) : ∃ segment : Segment, Takes [segment.token] (lexeme :: rest) rest := by
  obtain ⟨hcompiles, segment, htoken, -⟩ := exists_segment h
  refine ⟨segment, ?_, [lexeme], rfl, congrArg (fun token => [token]) htoken.symm⟩
  rw [htoken]
  exact allCompile_cons.2 ⟨hcompiles, allCompile_nil⟩

/-- What is read after a segment are further segments and further selectors, and nothing goes on
with them. -/
theorem exists_of_readSelectors {inParens : Bool} {parents : List Name} {current : Name}
    {input rest : List Lexeme} {group : List Selector}
    (h : readSelectors stop depth inParens parents current input = .ok (group, rest)) :
    ∃ more others, Takes (Dotted.dots more ++ Group.bars others) input rest
      ∧ endsGroup inParens rest = true := by
  fun_induction readSelectors stop depth inParens parents current input generalizing group with
  | case4 parents current offset _ lexeme after name hname _ ih =>
      obtain ⟨more, others, htakes, hends⟩ := ih h
      obtain ⟨segment, hsegment⟩ := takes_segment hname after
      exact ⟨segment :: more, others, (hsegment.append htakes).cons rfl offset, hends⟩
  | case6 parents current offset hparens =>
      cases h
      obtain rfl := Bool.eq_false_iff.2 hparens
      exact ⟨[], [], takes_nil _, rfl⟩
  | case8 parents current offset lexeme after _ name hname ih =>
      cases hread : readSelectors stop depth inParens [] name after with
      | error defect =>
          rw [hread] at h
          cases h
      | ok read =>
          rw [hread] at h
          cases h
          obtain ⟨more, others, htakes, hends⟩ := ih hread
          obtain ⟨segment, hsegment⟩ := takes_segment hname after
          exact ⟨[], ⟨segment, more⟩ :: others, (hsegment.append htakes).cons rfl offset, hends⟩
  | case9 parents current offset lexeme after hends =>
      cases h
      refine ⟨[], [], takes_nil _, ?_⟩
      rw [Bool.not_eq_true, Bool.or_eq_false_iff] at hends
      obtain ⟨rfl, hopens⟩ := hends
      rw [endsGroup, List.head?_cons, Option.any_some, hopens]
      rfl
  | case10 parents current input hdot hpipe =>
      cases h
      refine ⟨[], [], takes_nil _, ?_⟩
      rw [endsGroup.eq_def]
      split
      · exact (hdot _ _ rfl).elim
      · exact (hpipe _ _ rfl).elim
      · rfl
  | _ => cases h

/-- What is read as selectors is a group, parentheses apart. -/
theorem exists_of_readFirst {inParens : Bool} {input rest : List Lexeme} {group : List Selector}
    (h : readFirst stop depth inParens input = .ok (group, rest)) :
    ∃ first more, Takes (Group.inner ⟨inParens, first, more⟩) input rest
      ∧ endsGroup inParens rest = true := by
  rw [readFirst.eq_def] at h
  split at h
  · cases h
  · split at h
    · cases h
    · split at h
      · cases h
      · next lexeme after _ _ name hname =>
        obtain ⟨more, others, htakes, hends⟩ := exists_of_readSelectors h
        obtain ⟨segment, hsegment⟩ := takes_segment hname after
        exact ⟨⟨segment, more⟩, others, hsegment.append htakes, hends⟩

/-- What is read as a group is one, and nothing goes on with it. -/
theorem exists_of_readGroup {input rest : List Lexeme} {group : List Selector}
    (h : readGroup stop depth input = .ok (group, rest)) :
    ∃ group : Group, Takes group.tokens input rest
      ∧ (group.inParens = false → endsGroup false rest = true) := by
  rw [readGroup.eq_def] at h
  split at h
  · next offset after =>
    split at h
    · cases h
    · next hfirst =>
      cases h
      obtain ⟨first, more, htakes, -⟩ := exists_of_readFirst hfirst
      exact ⟨⟨true, first, more⟩, (htakes.append ((takes_nil _).cons rfl _)).cons rfl offset, nofun⟩
    · cases h
  · obtain ⟨first, more, htakes, hends⟩ := exists_of_readFirst h
    exact ⟨⟨false, first, more⟩, htakes, fun _ => hends⟩

theorem takes_readSign (input : List Lexeme) :
    Takes (Phrase.sign (readSign input).1) input (readSign input).2 := by
  rw [readSign.eq_def]
  split
  · exact (takes_nil _).cons rfl _
  · exact takes_nil _

/-- Whatever is read as terms from an input below a bound was written as a sentence, up to the end
or to a closing brace. -/
def ReadsSentences (stop bound : Nat) : Prop :=
  ∀ {input : List Lexeme}, input.length < bound → ∀ {depth : Nat} {terms : List Term}
    {rest : List Lexeme}, terms? stop depth input = some (terms, rest) →
      ∃ sentence : Sentence, Takes sentence.tokens input rest
        ∧ (rest = [] ∨ tokenOf rest = some .closeBrace)

/-- No token of an input goes on with a term: no dot, no bar before a selector and no block. -/
def EndsPhrase : Phrase → List Lexeme → Prop
  | .mk _ group .absent, rest =>
    (group.inParens = false → endsGroup false rest = true) ∧ tokenOf rest ≠ some .openBrace
  | _, _ => True

/-- What is read as a block is one, if what is read within it is a sentence. -/
theorem exists_of_block? {input rest : List Lexeme} {block : Option (List Term)}
    (hinner : ReadsSentences stop input.length)
    (h : block? stop depth input = some (block, rest)) :
    ∃ block : Block, Takes block.tokens input rest
      ∧ (block.terms? = none → tokenOf rest ≠ some .openBrace) := by
  rcases input with _ | ⟨⟨token, opening⟩, after⟩
  · have habsent : ([] : List Lexeme).head?.map (·.token) ≠ some .openBrace := nofun
    rw [block?_absent habsent] at h
    cases h
    exact ⟨.absent, takes_nil _, fun _ => habsent⟩
  · by_cases hopen : token = .openBrace
    · subst hopen
      by_cases hclose : after.head?.map (·.token) = some .closeBrace
      · obtain ⟨⟨_, closing⟩, hhead, rfl⟩ := Option.map_eq_some_iff.1 hclose
        obtain ⟨after, rfl⟩ := List.head?_eq_some_iff.1 hhead
        rw [block?_empty] at h
        cases h
        exact ⟨.empty, ((takes_nil _).cons rfl _).cons rfl _, nofun⟩
      · rw [block?_openBrace opening hclose] at h
        obtain ⟨⟨inner, left⟩, hread, hleft⟩ := Option.bind_eq_some_iff.1 h
        obtain ⟨sentence, htakes, -⟩ := hinner (Nat.lt_succ_self _) hread
        rcases left with _ | ⟨⟨token, closing⟩, left⟩
        · cases hleft
        · cases token with
          | closeBrace =>
              cases hleft
              exact ⟨.of sentence, (htakes.append ((takes_nil _).cons rfl _)).cons rfl _, nofun⟩
          | _ => cases hleft
    · have habsent : (⟨token, opening⟩ :: after : List Lexeme).head?.map (·.token)
          ≠ some .openBrace := fun hsome => hopen (Option.some.inj hsome)
      rw [block?_absent habsent] at h
      cases h
      exact ⟨.absent, takes_nil _, fun _ => habsent⟩

/-- What is read as a term is one, if what is read within its block is a sentence, and nothing goes
on with it. -/
theorem exists_of_term? {input rest : List Lexeme} {term : Term}
    (hinner : ReadsSentences stop input.length)
    (h : term? stop depth input = some (term, rest)) :
    rest.length < input.length
      ∧ ∃ phrase : Phrase, Takes phrase.tokens input rest ∧ EndsPhrase phrase rest := by
  rw [term?] at h
  obtain ⟨⟨selectors, afterGroup⟩, hgroup, hblock⟩ := Option.bind_eq_some_iff.1 h
  obtain ⟨⟨block, after⟩, hblock, hterm⟩ := Option.map_eq_some_iff.1 hblock
  cases hterm
  rw [toOption_eq_some] at hgroup
  have hshorter : afterGroup.length < input.length :=
    Nat.lt_of_lt_of_le (length_of_readGroup hgroup) (length_readSign input)
  have hwithin : ReadsSentences stop afterGroup.length :=
    fun hlength => hinner (Nat.lt_trans hlength hshorter)
  obtain ⟨group, htakesGroup, hends⟩ := exists_of_readGroup hgroup
  obtain ⟨block, htakesBlock, habsent⟩ := exists_of_block? hwithin hblock
  have hleft : rest.length ≤ afterGroup.length := by
    obtain ⟨-, front, rfl, -⟩ := htakesBlock
    rw [List.length_append]
    exact Nat.le_add_left _ _
  refine ⟨Nat.lt_of_le_of_lt hleft hshorter, .mk (readSign input).1 group block,
    ((takes_readSign input).append htakesGroup).append htakesBlock, ?_⟩
  cases block with
  | absent =>
      obtain ⟨-, front, hfront, htokens⟩ := htakesBlock
      obtain rfl := List.map_eq_nil_iff.1 htokens
      obtain rfl := hfront
      exact ⟨hends, habsent rfl⟩
  | empty => trivial
  | of sentence => trivial

/-- What is read from an input was written as a sentence, if that holds of shorter ones. -/
theorem readsSentences_succ {bound : Nat} (ih : ReadsSentences stop bound) :
    ReadsSentences stop (bound + 1) := by
  intro input hlength depth terms rest h
  have hinner : ReadsSentences stop input.length :=
    fun hshorter => ih (Nat.lt_of_lt_of_le hshorter (Nat.le_of_lt_succ hlength))
  rw [terms?_eq] at h
  obtain ⟨⟨term, after⟩, hterm, hrest⟩ := Option.bind_eq_some_iff.1 h
  obtain ⟨hshorter, phrase, hphrase, -⟩ := exists_of_term? hinner hterm
  rcases after with _ | ⟨⟨token, offset⟩, others⟩
  · cases hrest
    exact ⟨.last phrase, hphrase, Or.inl rfl⟩
  · dsimp only at hrest
    split at hrest
    · next hseparator =>
      obtain ⟨read, hread, hcons⟩ := Option.map_eq_some_iff.1 hrest
      cases hcons
      have hothers : others.length < input.length :=
        Nat.lt_trans (Nat.lt_succ_self _) hshorter
      obtain ⟨sentence, htakes, hends⟩ := hinner hothers hread
      rcases hseparator with rfl | rfl
      · exact ⟨.cons phrase false sentence, hphrase.append (htakes.cons rfl offset), hends⟩
      · exact ⟨.cons phrase true sentence, hphrase.append (htakes.cons rfl offset), hends⟩
    · split at hrest
      · next hclosing =>
        subst hclosing
        cases hrest
        exact ⟨.last phrase, hphrase, Or.inr rfl⟩
      · cases hrest

/-- By induction on the number of lexemes, whatever is read was written. -/
theorem readsSentences (stop bound : Nat) : ReadsSentences stop bound := by
  induction bound with
  | zero => exact fun hlength => absurd hlength (Nat.not_lt_zero _)
  | succ bound ih => exact readsSentences_succ ih

/-- **What is read was written as a sentence**, up to the end or to a closing brace. -/
theorem exists_sentence {input rest : List Lexeme} {terms : List Term}
    (h : terms? stop depth input = some (terms, rest)) :
    ∃ sentence : Sentence, Takes sentence.tokens input rest
      ∧ (rest = [] ∨ tokenOf rest = some .closeBrace) :=
  readsSentences stop (input.length + 1) (Nat.lt_succ_self _) h

end Term

end FieldFilter
