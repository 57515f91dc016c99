import FieldFilter.Proofs.Grammar
import Mathlib.Data.List.Induction

/-!
# Beginnings of sentences

Whether tokens are the beginning of a sentence can be told from left to right, without looking
ahead.  It is enough to keep what came last and how many blocks are open: parentheses do not nest,
and a block that is closed leaves a whole term behind, whatever the group in front of it was.

* `Stage`, `Stage.step`, `Stage.run` — what came last, and what each further token makes of it.
* `Sentence.run_tokens` — the run over the tokens of a tree.
* `AwaitsTerm` — tokens after which a term comes next, put together from whole trees.
* `Stage.Stands`, `Stage.Stands.step` — the trees that a stage stands for.
* **`viable_iff`** — tokens begin a sentence just if there is a run over them.
* **`admits_iff`** — what can come next is what the stage takes.
-/

namespace FieldFilter

/-- Tokens that some sentence begins with. -/
def Viable (tokens : List Token) : Prop :=
  ∃ (sentence : Sentence) (more : List Token), sentence.tokens = tokens ++ more

/-- Whether tokens can be gone on with by a token, or can end. -/
def Admits (tokens : List Token) : Option Token → Prop
  | some token => Viable (tokens ++ [token])
  | none => ∃ sentence : Sentence, sentence.tokens = tokens

theorem Viable.of_append {tokens more : List Token} (h : Viable (tokens ++ more)) :
    Viable tokens := by
  obtain ⟨sentence, others, hsentence⟩ := h
  exact ⟨sentence, more ++ others, by rw [hsentence, List.append_assoc]⟩

/-! ## Stages -/

/-- Whether a token can be a segment of a selector. -/
def Token.isSegment : Token → Bool
  | .word _ => true
  | .quoted text => !text.isEmpty
  | _ => false

theorem Segment.isSegment_token (segment : Segment) : segment.token.isSegment = true := by
  cases segment with
  | word text => rfl
  | quoted text nonempty => rw [token, Token.isSegment, nonempty, Bool.not_false]

theorem Token.exists_of_isSegment {token : Token} (h : token.isSegment = true) :
    ∃ segment : Segment, segment.token = token := by
  cases token with
  | word text => exact ⟨.word text, rfl⟩
  | quoted text => exact ⟨.quoted text (by rwa [isSegment, Bool.not_eq_true'] at h), rfl⟩
  | _ => cases h

/-- What came last, as far as it matters to what can come next. -/
inductive Mode where
  /-- Nothing of the term that comes next.  A block that was just opened may be closed instead. -/
  | term (opened : Bool)
  /-- The sign of a term. -/
  | signed
  /-- A dot or a bar within a group. -/
  | segment (inParens : Bool)
  | selector (inParens : Bool)
  /-- A group in parentheses. -/
  | group
  | block
  deriving DecidableEq, Repr

/-- What came last, and the number of blocks that are open. -/
structure Stage where
  mode : Mode
  depth : Nat
  deriving DecidableEq, Repr

/-- Whether a group comes next. -/
def Mode.opensGroup : Mode → Bool
  | term _ | signed => true
  | _ => false

/-- Whether what came last may be the end of a term. -/
def Mode.endsTerm : Mode → Bool
  | selector inParens => !inParens
  | group | block => true
  | _ => false

namespace Stage

def start : Stage := ⟨.term false, 0⟩

/-- A segment, where one comes next. -/
def intoSelector (inParens : Bool) (depth : Nat) (token : Token) : Option Stage :=
  if token.isSegment then some ⟨.selector inParens, depth⟩ else none

/-- The first token of a group, where one comes next. -/
def intoGroup (depth : Nat) : Token → Option Stage
  | .openParen => some ⟨.segment true, depth⟩
  | token => intoSelector false depth token

/-- What comes after a block or in place of one. -/
def afterTerm (depth : Nat) : Token → Option Stage
  | .comma | .pipe => some ⟨.term false, depth⟩
  | .closeBrace =>
    match depth with
    | 0 => none
    | depth + 1 => some ⟨.block, depth⟩
  | _ => none

/-- What comes after a group. -/
def afterGroup (depth : Nat) : Token → Option Stage
  | .openBrace => some ⟨.term true, depth + 1⟩
  | token => afterTerm depth token

/-- What comes after a segment. -/
def afterSegment (inParens : Bool) (depth : Nat) : Token → Option Stage
  | .dot => some ⟨.segment inParens, depth⟩
  | .pipe => some ⟨if inParens then .segment true else .term false, depth⟩
  | .closeParen => if inParens then some ⟨.group, depth⟩ else none
  | token => if inParens then none else afterGroup depth token

/-- The stage after one more token, if a sentence can go on with it. -/
def step : Stage → Token → Option Stage
  | ⟨.term _, depth⟩, .minus => some ⟨.signed, depth⟩
  | ⟨.term true, depth⟩, .closeBrace => afterTerm depth .closeBrace
  | ⟨.term _, depth⟩, token => intoGroup depth token
  | ⟨.signed, depth⟩, token => intoGroup depth token
  | ⟨.segment inParens, depth⟩, token => intoSelector inParens depth token
  | ⟨.selector inParens, depth⟩, token => afterSegment inParens depth token
  | ⟨.group, depth⟩, token => afterGroup depth token
  | ⟨.block, depth⟩, token => afterTerm depth token

def run (stage : Stage) (tokens : List Token) : Option Stage :=
  tokens.foldlM step stage

/-- Whether a sentence can go on with a token, or end. -/
def takes (stage : Stage) : Option Token → Bool
  | some token => (stage.step token).isSome
  | none => stage.mode.endsTerm && stage.depth == 0

@[simp]
theorem run_nil (stage : Stage) : stage.run [] = some stage := rfl

theorem run_cons (stage : Stage) (token : Token) (rest : List Token) :
    stage.run (token :: rest) = (stage.step token).bind (run · rest) := rfl

theorem run_append (stage : Stage) (tokens more : List Token) :
    stage.run (tokens ++ more) = (stage.run tokens).bind (run · more) :=
  List.foldlM_append

/-! ## Runs over trees -/

variable {inParens opened : Bool} {mode : Mode} {depth : Nat}

theorem intoSelector_segment (segment : Segment) :
    intoSelector inParens depth segment.token = some ⟨.selector inParens, depth⟩ :=
  if_pos segment.isSegment_token

/-- A group can start with a segment. -/
theorem step_segment (h : mode.opensGroup = true) (segment : Segment) :
    step ⟨mode, depth⟩ segment.token = some ⟨.selector false, depth⟩ := by
  have hgroup : intoGroup depth segment.token = some ⟨.selector false, depth⟩ := by
    cases segment with
    | word text => rfl
    | quoted text nonempty => exact intoSelector_segment (.quoted text nonempty)
  cases mode with
  | term opened => cases segment <;> exact hgroup
  | signed => exact hgroup
  | _ => cases h

theorem run_dots (more : List Segment) :
    run ⟨.selector inParens, depth⟩ (Dotted.dots more) = some ⟨.selector inParens, depth⟩ := by
  induction more with
  | nil => rfl
  | cons segment more ih =>
    have hstep : step ⟨.segment inParens, depth⟩ segment.token
        = some ⟨.selector inParens, depth⟩ := intoSelector_segment segment
    have htokens : Dotted.dots (segment :: more)
        = .dot :: segment.token :: Dotted.dots more := rfl
    rw [htokens, run_cons, step, afterSegment, Option.bind_some, run_cons, hstep, Option.bind_some,
      ih]

/-- A bar before a segment goes on with a group, or with the terms: that comes to the same. -/
theorem run_bar (segment : Segment) :
    run ⟨.selector inParens, depth⟩ [.pipe, segment.token]
      = some ⟨.selector inParens, depth⟩ := by
  have hstep : step ⟨if inParens then .segment true else .term false, depth⟩ segment.token
      = some ⟨.selector inParens, depth⟩ := by
    cases inParens with
    | true => exact intoSelector_segment segment
    | false => exact step_segment rfl segment
  rw [run_cons, step, afterSegment, Option.bind_some, run_cons, hstep]
  rfl

theorem run_bars (more : List Dotted) :
    run ⟨.selector inParens, depth⟩ (Group.bars more) = some ⟨.selector inParens, depth⟩ := by
  induction more with
  | nil => rfl
  | cons dotted more ih =>
    have htokens : Group.bars (dotted :: more)
        = [.pipe, dotted.first.token] ++ (Dotted.dots dotted.more ++ Group.bars more) := rfl
    rw [htokens, run_append, run_bar, Option.bind_some, run_append, run_dots, Option.bind_some, ih]

/-- A group is run over from where its first segment comes next, parentheses apart. -/
theorem run_inner {stage : Stage} (group : Group)
    (h : stage.step group.first.first.token = some ⟨.selector inParens, depth⟩) :
    stage.run group.inner = some ⟨.selector inParens, depth⟩ := by
  have htokens : group.inner
      = group.first.first.token :: (Dotted.dots group.first.more ++ Group.bars group.more) := rfl
  rw [htokens, run_cons, h, Option.bind_some, run_append, run_dots, Option.bind_some, run_bars]

end Stage

/-- What a group leaves behind. -/
def Group.mode (group : Group) : Mode :=
  if group.inParens then .group else .selector false

/-- What a term leaves behind. -/
def Phrase.mode : Phrase → Mode
  | mk _ group .absent => group.mode
  | mk _ _ _ => .block

def Sentence.mode : Sentence → Mode
  | last phrase => phrase.mode
  | cons _ _ rest => rest.mode

theorem Group.endsTerm_mode (group : Group) : group.mode.endsTerm = true := by
  rcases group with ⟨_ | _, first, more⟩ <;> rfl

theorem Phrase.endsTerm_mode (phrase : Phrase) : phrase.mode.endsTerm = true := by
  rcases phrase with ⟨negated, group, _ | _ | _⟩
  · exact group.endsTerm_mode
  · rfl
  · rfl

theorem Sentence.endsTerm_mode (sentence : Sentence) : sentence.mode.endsTerm = true := by
  cases sentence with
  | last phrase => exact phrase.endsTerm_mode
  | cons phrase bar rest => exact rest.endsTerm_mode

namespace Stage

variable {opened : Bool} {mode : Mode} {depth : Nat}

/-- A term that may have ended has ended where a comma, a bar or a closing brace comes next. -/
theorem step_of_endsTerm (h : mode.endsTerm = true) {token : Token}
    (htoken : token = .comma ∨ token = .pipe ∨ token = .closeBrace) :
    step ⟨mode, depth⟩ token = afterTerm depth token := by
  cases mode with
  | selector inParens =>
    obtain rfl : inParens = false := by rwa [Mode.endsTerm, Bool.not_eq_true'] at h
    rcases htoken with rfl | rfl | rfl <;> rfl
  | group => rcases htoken with rfl | rfl | rfl <;> rfl
  | block => rfl
  | _ => cases h

theorem step_separator (h : mode.endsTerm = true) (bar : Bool) :
    step ⟨mode, depth⟩ (Sentence.separator bar) = some ⟨.term false, depth⟩ := by
  cases bar with
  | false => exact step_of_endsTerm h (Or.inl rfl)
  | true => exact step_of_endsTerm h (Or.inr (Or.inl rfl))

theorem step_closeBrace (h : mode.endsTerm = true) :
    step ⟨mode, depth + 1⟩ .closeBrace = some ⟨.block, depth⟩ :=
  step_of_endsTerm h (Or.inr (Or.inr rfl))

theorem step_openBrace (group : Group) :
    step ⟨group.mode, depth⟩ .openBrace = some ⟨.term true, depth + 1⟩ := by
  rcases group with ⟨_ | _, first, more⟩ <;> rfl

theorem run_sign (negated : Bool) :
    ∃ mode, mode.opensGroup = true
      ∧ run ⟨.term opened, depth⟩ (Phrase.sign negated) = some ⟨mode, depth⟩ := by
  cases negated with
  | true => exact ⟨.signed, rfl, rfl⟩
  | false => exact ⟨.term opened, rfl, rfl⟩

theorem step_openParen (h : mode.opensGroup = true) :
    step ⟨mode, depth⟩ .openParen = some ⟨.segment true, depth⟩ := by
  cases mode with
  | term opened => rfl
  | signed => rfl
  | _ => cases h

/-- A group is run over from where one comes next. -/
theorem run_group (h : mode.opensGroup = true) (group : Group) :
    run ⟨mode, depth⟩ group.tokens = some ⟨group.mode, depth⟩ := by
  rcases group with ⟨_ | _, first, more⟩
  · exact run_inner ⟨false, first, more⟩ (step_segment h first.first)
  · have htokens : Group.tokens ⟨true, first, more⟩
        = .openParen :: (Group.inner ⟨true, first, more⟩ ++ [.closeParen]) := rfl
    have hinner : run ⟨.segment true, depth⟩ (Group.inner ⟨true, first, more⟩)
        = some ⟨.selector true, depth⟩ :=
      run_inner ⟨true, first, more⟩ (intoSelector_segment first.first)
    rw [htokens, run_cons, step_openParen h, Option.bind_some, run_append, hinner]
    rfl

theorem run_signedGroup (negated : Bool) (group : Group) :
    run ⟨.term opened, depth⟩ (Phrase.sign negated ++ group.tokens)
      = some ⟨group.mode, depth⟩ := by
  obtain ⟨mode, hopens, hsign⟩ := @run_sign opened depth negated
  rw [run_append, hsign, Option.bind_some, run_group hopens]

end Stage

mutual

/-- A term is run over from where one comes next. -/
theorem Phrase.run_tokens (phrase : Phrase) (opened : Bool) (depth : Nat) :
    Stage.run ⟨.term opened, depth⟩ phrase.tokens = some ⟨phrase.mode, depth⟩ := by
  rcases phrase with ⟨negated, group, block⟩
  rw [Phrase.tokens, Stage.run_append, Stage.run_signedGroup, Option.bind_some,
    block.run_tokens negated group depth]

/-- A block is run over from after a group. -/
theorem Block.run_tokens (block : Block) (negated : Bool) (group : Group) (depth : Nat) :
    Stage.run ⟨group.mode, depth⟩ block.tokens
      = some ⟨(Phrase.mk negated group block).mode, depth⟩ := by
  cases block with
  | absent => rfl
  | empty =>
    rw [Block.tokens, Stage.run_cons, Stage.step_openBrace]
    rfl
  | of inner =>
    rw [Block.tokens, List.cons_append, Stage.run_cons, Stage.step_openBrace, Option.bind_some,
      Stage.run_append, inner.run_tokens true (depth + 1), Option.bind_some, Stage.run_cons,
      Stage.step_closeBrace inner.endsTerm_mode]
    rfl

/-- **A sentence is run over from where a term comes next.** -/
theorem Sentence.run_tokens (sentence : Sentence) (opened : Bool) (depth : Nat) :
    Stage.run ⟨.term opened, depth⟩ sentence.tokens = some ⟨sentence.mode, depth⟩ := by
  cases sentence with
  | last phrase =>
    rw [Sentence.tokens, Sentence.mode]
    exact phrase.run_tokens opened depth
  | cons phrase bar rest =>
    rw [Sentence.tokens, Sentence.mode, Stage.run_append, phrase.run_tokens opened depth,
      Option.bind_some, Stage.run_cons, Stage.step_separator phrase.endsTerm_mode,
      Option.bind_some, rest.run_tokens false depth]

end

/-! ## Trees that are not finished -/

/-- After certain tokens a term comes next, in the innermost of so many open blocks.  All that came
before are whole terms, and the groups that the open blocks belong to. -/
inductive AwaitsTerm : Nat → List Token → Prop where
  | start : AwaitsTerm 0 []
  | next {depth : Nat} {before : List Token} (h : AwaitsTerm depth before) (phrase : Phrase)
    (bar : Bool) : AwaitsTerm depth (before ++ phrase.tokens ++ [Sentence.separator bar])
  | opened {depth : Nat} {before : List Token} (h : AwaitsTerm depth before) (negated : Bool)
    (group : Group) :
    AwaitsTerm (depth + 1) (before ++ Phrase.sign negated ++ group.tokens ++ [.openBrace])

namespace AwaitsTerm

variable {depth : Nat} {before : List Token}

/-- With the terms that come next and all blocks closed after them, there is a whole sentence. -/
theorem exists_whole (h : AwaitsTerm depth before) (sentence : Sentence) :
    ∃ whole : Sentence,
      whole.tokens = before ++ sentence.tokens ++ List.replicate depth .closeBrace := by
  induction h generalizing sentence with
  | start => exact ⟨sentence, (List.append_nil _).symm⟩
  | next _ phrase bar ih =>
    obtain ⟨whole, hwhole⟩ := ih (.cons phrase bar sentence)
    exact ⟨whole, by simp [hwhole, Sentence.tokens]⟩
  | opened _ negated group ih =>
    obtain ⟨whole, hwhole⟩ := ih (.last (.mk negated group (.of sentence)))
    exact ⟨whole, by simp [hwhole, Sentence.tokens, Phrase.tokens, Block.tokens,
      List.replicate_succ]⟩

/-- What comes before within the innermost open block, and the terms that come next, are a sentence
after the brace that opens the block. -/
theorem exists_block (h : AwaitsTerm (depth + 1) before) :
    ∃ (outer : List Token) (negated : Bool) (group : Group), AwaitsTerm depth outer
      ∧ ∀ sentence : Sentence, ∃ inner : Sentence, before ++ sentence.tokens
          = outer ++ Phrase.sign negated ++ group.tokens ++ .openBrace :: inner.tokens := by
  generalize hdeeper : depth + 1 = deeper at h
  induction h with
  | start => cases hdeeper
  | next _ phrase bar ih =>
    obtain ⟨outer, negated, group, houter, hinner⟩ := ih hdeeper
    refine ⟨outer, negated, group, houter, fun sentence => ?_⟩
    obtain ⟨inner, hinner⟩ := hinner (.cons phrase bar sentence)
    exact ⟨inner, by simpa [Sentence.tokens] using hinner⟩
  | opened h negated group _ =>
    cases hdeeper
    exact ⟨_, negated, group, h, fun sentence => ⟨sentence, by simp⟩⟩

end AwaitsTerm

/-- After certain tokens a group comes next: there may be a sign of its term. -/
def AwaitsGroup (depth : Nat) (tokens : List Token) : Prop :=
  ∃ before negated, AwaitsTerm depth before ∧ tokens = before ++ Phrase.sign negated

/-- Certain tokens end with a group. -/
def AfterGroup (depth : Nat) (tokens : List Token) : Prop :=
  ∃ before group, AwaitsGroup depth before ∧ tokens = before ++ Group.tokens group

/-- Certain tokens end with a term. -/
def AfterTerm (depth : Nat) (tokens : List Token) : Prop :=
  ∃ before phrase, AwaitsTerm depth before ∧ tokens = before ++ Phrase.tokens phrase

/-- The parenthesis in front of a group. -/
def Group.opening (inParens : Bool) : List Token :=
  if inParens then [.openParen] else []

/-- Certain tokens end with the selectors of a group, in parentheses or not. -/
def InGroup (inParens : Bool) (depth : Nat) (tokens : List Token) : Prop :=
  ∃ before group, AwaitsGroup depth before
    ∧ tokens = before ++ Group.opening inParens ++ Group.inner group

/-- After certain tokens a segment of a group comes next. -/
def AwaitsSegment (inParens : Bool) (depth : Nat) (tokens : List Token) : Prop :=
  ∀ segment : Segment, InGroup inParens depth (tokens ++ [segment.token])

section Unfinished

variable {inParens : Bool} {depth : Nat} {tokens : List Token}

theorem AwaitsTerm.awaitsGroup (h : AwaitsTerm depth tokens) : AwaitsGroup depth tokens :=
  ⟨tokens, false, h, (List.append_nil _).symm⟩

theorem AwaitsGroup.awaitsSegment (h : AwaitsGroup depth tokens) (inParens : Bool) :
    AwaitsSegment inParens depth (tokens ++ Group.opening inParens) :=
  fun segment => ⟨tokens, ⟨inParens, ⟨segment, []⟩, []⟩, h, rfl⟩

/-- A group goes on with a dot and a segment: the last selector is longer then. -/
theorem Group.exists_inner_dot (group : Group) (segment : Segment) :
    ∃ longer : Group, longer.inner = group.inner ++ [.dot, segment.token] := by
  obtain ⟨inParens, first, more⟩ := group
  rcases List.eq_nil_or_concat more with rfl | ⟨others, dotted, rfl⟩
  · refine ⟨⟨inParens, ⟨first.first, first.more ++ [segment]⟩, []⟩, ?_⟩
    simp [Group.inner, Group.bars, Dotted.tokens, Dotted.dots]
  · refine ⟨⟨inParens, first, others ++ [⟨dotted.first, dotted.more ++ [segment]⟩]⟩, ?_⟩
    simp [Group.inner, Group.bars, Dotted.tokens, Dotted.dots]

theorem Group.exists_inner_pipe (group : Group) (segment : Segment) :
    ∃ longer : Group, longer.inner = group.inner ++ [.pipe, segment.token] := by
  refine ⟨⟨group.inParens, group.first, group.more ++ [⟨segment, []⟩]⟩, ?_⟩
  simp [Group.inner, Group.bars, Dotted.tokens, Dotted.dots]

theorem InGroup.awaitsSegment (h : InGroup inParens depth tokens) {mark : Token}
    (hmark : mark = .dot ∨ mark = .pipe) : AwaitsSegment inParens depth (tokens ++ [mark]) := by
  obtain ⟨before, group, hbefore, rfl⟩ := h
  intro segment
  obtain ⟨longer, hlonger⟩ : ∃ longer : Group,
      longer.inner = group.inner ++ [mark, segment.token] := by
    rcases hmark with rfl | rfl
    · exact group.exists_inner_dot segment
    · exact group.exists_inner_pipe segment
  exact ⟨before, longer, hbefore, by simp [hlonger]⟩

/-- Selectors without parentheses are a group. -/
theorem InGroup.afterGroup (h : InGroup false depth tokens) : AfterGroup depth tokens := by
  obtain ⟨before, group, hbefore, rfl⟩ := h
  refine ⟨before, ⟨false, group.first, group.more⟩, hbefore, ?_⟩
  simp [Group.opening, Group.tokens, Group.inner]

/-- Selectors in parentheses are a group with the one that closes them. -/
theorem InGroup.close (h : InGroup true depth tokens) :
    AfterGroup depth (tokens ++ [.closeParen]) := by
  obtain ⟨before, group, hbefore, rfl⟩ := h
  refine ⟨before, ⟨true, group.first, group.more⟩, hbefore, ?_⟩
  simp [Group.opening, Group.tokens, Group.inner]

theorem AfterGroup.opened (h : AfterGroup depth tokens) :
    AwaitsTerm (depth + 1) (tokens ++ [.openBrace]) := by
  obtain ⟨_, group, ⟨before, negated, hbefore, rfl⟩, rfl⟩ := h
  exact hbefore.opened negated group

theorem AfterGroup.afterTerm (h : AfterGroup depth tokens) : AfterTerm depth tokens := by
  obtain ⟨_, group, ⟨before, negated, hbefore, rfl⟩, rfl⟩ := h
  exact ⟨before, .mk negated group .absent, hbefore, by simp [Phrase.tokens, Block.tokens]⟩

/-- A group with an empty block is a term. -/
theorem AfterGroup.empty (h : AfterGroup depth tokens) :
    AfterTerm depth (tokens ++ [.openBrace] ++ [.closeBrace]) := by
  obtain ⟨_, group, ⟨before, negated, hbefore, rfl⟩, rfl⟩ := h
  exact ⟨before, .mk negated group .empty, hbefore, by simp [Phrase.tokens, Block.tokens]⟩

theorem AfterTerm.next (h : AfterTerm depth tokens) (bar : Bool) :
    AwaitsTerm depth (tokens ++ [Sentence.separator bar]) := by
  obtain ⟨before, phrase, hbefore, rfl⟩ := h
  exact hbefore.next phrase bar

/-- A block that is closed after a term is part of a term. -/
theorem AfterTerm.close (h : AfterTerm (depth + 1) tokens) :
    AfterTerm depth (tokens ++ [.closeBrace]) := by
  obtain ⟨before, phrase, hbefore, rfl⟩ := h
  obtain ⟨outer, negated, group, houter, hinner⟩ := hbefore.exists_block
  obtain ⟨inner, hinner⟩ := hinner (.last phrase)
  rw [Sentence.tokens] at hinner
  exact ⟨outer, .mk negated group (.of inner), houter, by
    simp [hinner, Phrase.tokens, Block.tokens]⟩

/-- After a term, the open blocks can be closed. -/
theorem AfterTerm.exists_whole (h : AfterTerm depth tokens) :
    ∃ whole : Sentence, whole.tokens = tokens ++ List.replicate depth .closeBrace := by
  obtain ⟨before, phrase, hbefore, rfl⟩ := h
  exact hbefore.exists_whole (.last phrase)

theorem AfterTerm.viable (h : AfterTerm depth tokens) : Viable tokens := by
  obtain ⟨whole, hwhole⟩ := h.exists_whole
  exact ⟨whole, _, hwhole⟩

theorem InGroup.viable (h : InGroup inParens depth tokens) : Viable tokens := by
  cases inParens with
  | true => exact h.close.afterTerm.viable.of_append
  | false => exact h.afterGroup.afterTerm.viable

theorem AwaitsSegment.viable (h : AwaitsSegment inParens depth tokens) : Viable tokens :=
  (h (.word "a")).viable.of_append

theorem AwaitsGroup.viable (h : AwaitsGroup depth tokens) : Viable tokens :=
  (h.awaitsSegment false).viable.of_append

end Unfinished

/-! ## What a stage stands for -/

namespace Stage

/-- The trees that a stage stands for, as the tokens come from them. -/
def Stands (tokens : List Token) : Stage → Prop
  | ⟨.term false, depth⟩ => AwaitsTerm depth tokens
  | ⟨.term true, depth⟩ => ∃ outer before, depth = outer + 1 ∧ AfterGroup outer before
      ∧ tokens = before ++ [.openBrace]
  | ⟨.signed, depth⟩ => AwaitsGroup depth tokens
  | ⟨.segment inParens, depth⟩ => AwaitsSegment inParens depth tokens
  | ⟨.selector inParens, depth⟩ => InGroup inParens depth tokens
  | ⟨.group, depth⟩ => AfterGroup depth tokens
  | ⟨.block, depth⟩ => AfterTerm depth tokens

variable {tokens : List Token} {stage later : Stage} {token : Token} {depth : Nat}

theorem stands_intoSelector {inParens : Bool} (h : AwaitsSegment inParens depth tokens)
    (hlater : intoSelector inParens depth token = some later) :
    later.Stands (tokens ++ [token]) := by
  rw [intoSelector] at hlater
  split at hlater
  · next hsegment =>
    obtain ⟨segment, rfl⟩ := Token.exists_of_isSegment hsegment
    cases hlater
    exact h segment
  · cases hlater

theorem stands_intoGroup (h : AwaitsGroup depth tokens)
    (hlater : intoGroup depth token = some later) : later.Stands (tokens ++ [token]) := by
  rw [intoGroup.eq_def] at hlater
  split at hlater
  · cases hlater
    exact h.awaitsSegment true
  · have hsegment := h.awaitsSegment false
    rw [Group.opening, if_neg Bool.false_ne_true, List.append_nil] at hsegment
    exact stands_intoSelector hsegment hlater

theorem stands_afterTerm (h : AfterTerm depth tokens)
    (hlater : afterTerm depth token = some later) : later.Stands (tokens ++ [token]) := by
  rw [afterTerm.eq_def] at hlater
  split at hlater
  · cases hlater
    exact h.next false
  · cases hlater
    exact h.next true
  · split at hlater
    · cases hlater
    · cases hlater
      exact h.close
  · cases hlater

theorem stands_afterGroup (h : AfterGroup depth tokens)
    (hlater : afterGroup depth token = some later) : later.Stands (tokens ++ [token]) := by
  rw [afterGroup.eq_def] at hlater
  split at hlater
  · cases hlater
    exact ⟨depth, tokens, rfl, h, rfl⟩
  · exact stands_afterTerm h.afterTerm hlater

theorem stands_afterSegment {inParens : Bool} (h : InGroup inParens depth tokens)
    (hlater : afterSegment inParens depth token = some later) :
    later.Stands (tokens ++ [token]) := by
  rw [afterSegment.eq_def] at hlater
  split at hlater
  · cases hlater
    exact h.awaitsSegment (Or.inl rfl)
  · cases hlater
    cases inParens with
    | true => exact h.awaitsSegment (Or.inr rfl)
    | false => exact h.afterGroup.afterTerm.next true
  · cases inParens with
    | true =>
      cases hlater
      exact h.close
    | false => cases hlater
  · cases inParens with
    | true => cases hlater
    | false => exact stands_afterGroup h.afterGroup hlater

/-- **A stage goes on standing for the trees that the tokens come from.** -/
theorem Stands.step (h : stage.Stands tokens) (hlater : stage.step token = some later) :
    later.Stands (tokens ++ [token]) := by
  rw [Stage.step.eq_def] at hlater
  split at hlater
  · next opened depth =>
    cases hlater
    cases opened with
    | false => exact ⟨tokens, true, h, rfl⟩
    | true =>
      obtain ⟨outer, before, rfl, hbefore, rfl⟩ := h
      exact ⟨_, true, hbefore.opened, rfl⟩
  · obtain ⟨outer, before, rfl, hbefore, rfl⟩ := h
    cases hlater
    exact hbefore.empty
  · next opened depth _ _ =>
    cases opened with
    | false => exact stands_intoGroup (AwaitsTerm.awaitsGroup h) hlater
    | true =>
      obtain ⟨outer, before, rfl, hbefore, rfl⟩ := h
      exact stands_intoGroup hbefore.opened.awaitsGroup hlater
  · exact stands_intoGroup h hlater
  · exact stands_intoSelector h hlater
  · exact stands_afterSegment h hlater
  · exact stands_afterGroup h hlater
  · exact stands_afterTerm h hlater

/-- Every stage that a run comes to stands for the tokens of the run. -/
theorem stands_of_run (h : start.run tokens = some stage) : stage.Stands tokens := by
  induction tokens using List.reverseRecOn generalizing stage with
  | nil =>
    cases h
    exact AwaitsTerm.start
  | append_singleton before token ih =>
    rw [run_append] at h
    obtain ⟨earlier, hearlier, hstep⟩ := Option.bind_eq_some_iff.1 h
    rw [run_cons] at hstep
    obtain ⟨later, hlater, hdone⟩ := Option.bind_eq_some_iff.1 hstep
    cases hdone
    exact (ih hearlier).step hlater

theorem Stands.viable (h : stage.Stands tokens) : Viable tokens := by
  obtain ⟨mode, depth⟩ := stage
  cases mode with
  | term opened =>
    cases opened with
    | false => exact (AwaitsTerm.awaitsGroup h).viable
    | true =>
      obtain ⟨outer, before, rfl, hbefore, rfl⟩ := h
      exact hbefore.opened.awaitsGroup.viable
  | signed => exact AwaitsGroup.viable h
  | segment inParens => exact AwaitsSegment.viable h
  | selector inParens => exact InGroup.viable h
  | group => exact (AfterGroup.afterTerm h).viable
  | block => exact AfterTerm.viable h

theorem Stands.afterTerm {mode : Mode} (h : Stands tokens ⟨mode, depth⟩)
    (hends : mode.endsTerm = true) : AfterTerm depth tokens := by
  cases mode with
  | selector inParens =>
    obtain rfl : inParens = false := by rwa [Mode.endsTerm, Bool.not_eq_true'] at hends
    exact (InGroup.afterGroup h).afterTerm
  | group => exact AfterGroup.afterTerm h
  | block => exact h
  | _ => cases hends

end Stage

/-! ## Beginnings -/

/-- **Tokens begin a sentence just if there is a run over them.** -/
theorem viable_iff (tokens : List Token) :
    Viable tokens ↔ (Stage.start.run tokens).isSome = true := by
  constructor
  · rintro ⟨sentence, more, hsentence⟩
    have hrun := sentence.run_tokens false 0
    rw [hsentence, Stage.run_append] at hrun
    obtain ⟨stage, hstage, -⟩ := Option.bind_eq_some_iff.1 hrun
    exact Option.isSome_iff_exists.2 ⟨stage, hstage⟩
  · intro h
    obtain ⟨stage, hstage⟩ := Option.isSome_iff_exists.1 h
    exact (Stage.stands_of_run hstage).viable

instance (tokens : List Token) : Decidable (Viable tokens) :=
  decidable_of_iff _ (viable_iff tokens).symm

/-- What can come after the tokens of a run is what the stage takes that the run comes to. -/
theorem admits_iff_of_run {tokens : List Token} {stage : Stage}
    (h : Stage.start.run tokens = some stage) (next : Option Token) :
    Admits tokens next ↔ stage.takes next = true := by
  cases next with
  | some token =>
    rw [Admits, viable_iff, Stage.run_append, h, Option.bind_some, Stage.run_cons, Stage.takes]
    cases stage.step token <;> rfl
  | none =>
    obtain ⟨mode, depth⟩ := stage
    rw [Stage.takes, Bool.and_eq_true, beq_iff_eq]
    constructor
    · rintro ⟨sentence, rfl⟩
      cases h.symm.trans (sentence.run_tokens false 0)
      exact ⟨sentence.endsTerm_mode, rfl⟩
    · rintro ⟨hends, hdepth⟩
      dsimp only at hends hdepth
      subst hdepth
      obtain ⟨whole, hwhole⟩ := ((Stage.stands_of_run h).afterTerm hends).exists_whole
      exact ⟨whole, hwhole.trans (List.append_nil _)⟩

theorem Admits.viable {tokens : List Token} {next : Option Token} (h : Admits tokens next) :
    Viable tokens := by
  cases next with
  | some token => exact h.of_append
  | none =>
    obtain ⟨sentence, rfl⟩ := h
    exact ⟨sentence, [], (List.append_nil _).symm⟩

/-- **What can come after tokens**, if there is a run over them, is what its stage takes. -/
theorem admits_iff (tokens : List Token) (next : Option Token) :
    Admits tokens next ↔ (Stage.start.run tokens).any (·.takes next) = true := by
  cases hrun : Stage.start.run tokens with
  | some stage => exact admits_iff_of_run hrun next
  | none =>
    refine iff_of_false (fun h => ?_) Bool.false_ne_true
    have hsome := (viable_iff tokens).1 h.viable
    rw [hrun] at hsome
    cases hsome

instance (tokens : List Token) (next : Option Token) : Decidable (Admits tokens next) :=
  decidable_of_iff _ (admits_iff tokens next).symm

/-- After a dot a sentence can neither end nor go on with a block. -/
example : Viable [.word "a", .dot] ∧ ¬ Admits [.word "a", .dot] none
    ∧ ¬ Admits [.word "a", .dot] (some .openBrace) := by
  decide

end FieldFilter
