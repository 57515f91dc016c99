import FieldFilter.Proofs.Acceptance
import FieldFilter.Proofs.Viable

/-!
# Where a refused text is at fault

A text that is refused is refused at a place.  If it cannot be cut into tokens, the place is that of
the first character that starts no token, or of a quote that is never closed.  Otherwise the tokens
before the place begin a sentence, and what is wrong is told by the flaw: that no sentence goes on
with the next token, that something was opened at the place and is not closed where it must be, or
that the next token is a pattern that is refused, with which the sentence could go on.

The reader decides by looking at the next token, or at two where a bar may go on with a group.  So
it is enough to know, for everything the reader is about to read, the stage that the tokens before
it have come to: what it takes is in `Proofs.Viable`, and what it refuses is a token that the stage
does not take.

* `Flaw.Stops`, `Flaw.Blames` — what a flaw says of its place, in a text and among tokens.
* **`Token.stops_of_scan`** — where cutting a text into tokens stops.
* `Term.Located` — a defect among tokens that come after others.
* `Term.readAll_error`, `Term.readBlock_error` — the ways in which reading fails.
* **`Term.located_of_read`** — where reading fails.
* **`Expression.located_of_parse`** — where a text is at fault.
* `Expression.not_stopped_stars` — a pattern that is refused is no fault of the sentence.
-/

namespace FieldFilter

/-! ## Characters -/

/-- What a flaw says of the character at its place and of the text after it: no token starts with
the character, or it is a quote that is never closed. -/
def Flaw.Stops : Flaw → Char → List Char → Prop
  | unexpectedCharacter found, c, _ => found = c ∧ Text.isBlank c = false
    ∧ ∀ (token : Token) (written : List Char), token.Spells written → written.head? ≠ some c
  | unterminatedQuote, c, rest => Token.isQuote c = true
    ∧ ∀ written body after, Token.Unescapes c written body → rest ≠ written ++ c :: after
  | _, _, _ => False

namespace Token

variable {offset : Nat} {text : List Char} {lexemes : List Lexeme}

/-- A token is not read where none starts, or where it does not end. -/
theorem stops_of_next {c : Char} {rest : List Char} {flaw : Flaw}
    (hblank : Text.isBlank c = false) (h : next c rest = .error flaw) : flaw.Stops c rest := by
  unfold next at h
  split at h
  · cases h
  · next hmark =>
    split at h
    · next hquote =>
      split at h
      · cases h
      · next hopen =>
        cases h
        refine ⟨hquote, fun written body after hwritten hrest => ?_⟩
        rw [(unquote_eq_some_iff (isQuote_apart hquote).2.2.2).2 ⟨written, hrest, rfl, hwritten⟩]
          at hopen
        cases hopen
    · next hquote =>
      split at h
      · cases h
      · next hstarts =>
        cases h
        refine ⟨rfl, hblank, fun token written hspells hhead => ?_⟩
        cases hspells with
        | word hword =>
          obtain ⟨d, more, rfl, hd, -⟩ := hword
          cases hhead
          exact hstarts hd
        | quoted hd _ =>
          cases hhead
          exact hquote hd
        | mark hd =>
          cases hhead
          exact absurd (hmark.symm.trans hd) nofun

/-- **Where cutting a text into tokens stops**, everything before is cut. -/
theorem stops_of_scan {defect : Defect} (h : scan offset text = .error defect) :
    ∃ before c rest lexemes, text = before ++ c :: rest
      ∧ defect.offset = offset + before.length ∧ Spelling none offset before lexemes
      ∧ defect.flaw.Stops c rest := by
  fun_induction scan offset text with
  | case1 => cases h
  | case2 offset c rest hblank ih =>
    obtain ⟨before, d, after, lexemes, rfl, hoffset, hbefore, hstops⟩ := ih h
    refine ⟨c :: before, d, after, lexemes, rfl, ?_, hbefore.cons hblank none, hstops⟩
    rw [hoffset, List.length_cons, Nat.add_assoc, Nat.add_comm 1]
  | case3 offset c rest hblank flaw hnext =>
    cases h
    exact ⟨[], c, rest, [], rfl, rfl, .blank rfl, stops_of_next (Bool.eq_false_iff.2 hblank) hnext⟩
  | case4 offset c rest hblank scanned hnext ih =>
    obtain ⟨token, taken, after⟩ := scanned
    obtain ⟨more, rfl, rfl, hwritten, hends⟩ := next_eq_ok_iff.1 hnext
    have hlength : offset + 1 + more.length = offset + 0 + (c :: more).length := by
      simp only [List.length_cons]
      omega
    dsimp only at h ih
    rw [hlength] at h ih
    cases hafter : scan (offset + 0 + (c :: more).length) after with
    | ok lexemes =>
      rw [hafter] at h
      cases h
    | error other =>
      rw [hafter] at h
      cases h
      obtain ⟨before, d, others, lexemes, rfl, hoffset, hbefore, hstops⟩ := ih hafter
      have hfollows : token.endsBefore before = true := by
        cases before with
        | nil => cases token <;> rfl
        | cons e before => cases token <;> exact hends
      have hgap : Text.isAllBlank [] = true := rfl
      refine ⟨c :: more ++ before, d, others, _, by simp, ?_,
        .token hgap (by simp) hwritten (hbefore.follow hfollows), hstops⟩
      rw [hoffset, List.length_append, Nat.add_zero, Nat.add_assoc]

/-- Every token of a text is found within it. -/
theorem offset_lt_of_scan (h : scan offset text = .ok lexemes) :
    ∀ lexeme ∈ lexemes, lexeme.offset < offset + text.length := by
  have hspelling := spelling_of_scan h
  clear h
  generalize (none : Option Token) = before at hspelling
  induction hspelling with
  | blank hgap => exact List.forall_mem_nil _
  | @token _ offset gap written text token lexemes _ _ hwritten _ ih =>
    obtain ⟨c, more, rfl, -⟩ := hwritten.exists_cons
    refine List.forall_mem_cons.2 ⟨?_, fun lexeme hlexeme => ?_⟩
    · simp only [List.length_append, List.length_cons]
      omega
    · have hlater := ih lexeme hlexeme
      simp only [List.length_append] at hlater ⊢
      omega

end Token

/-! ## Tokens -/

/-- What is opened by the first of some lexemes, after certain tokens, is not closed where it must
be.  What stands in it is whole and could be closed, but something else follows with which no
sentence goes on. -/
def Unclosed (opening closing : Token) (Whole : List Token → Prop) (before : List Token)
    (rest : List Lexeme) : Prop :=
  ∃ offset inner after, rest = ⟨opening, offset⟩ :: (inner ++ after)
    ∧ Whole (inner.map (·.token))
    ∧ Admits (before ++ opening :: inner.map (·.token)) (some closing)
    ∧ ¬ Admits (before ++ opening :: inner.map (·.token)) (Term.tokenOf after)

/-- What a flaw says of its place: of the tokens before it, and of the lexemes that are left.  A
pattern that is refused is no fault of the sentence, which could go on with it. -/
def Flaw.Blames [Glob.Engine] : Flaw → List Token → List Lexeme → Prop
  | emptySelector found, before, rest => Term.tokenOf rest = found ∧ ¬ Admits before found
  | expectedComma found, before, rest =>
    Term.tokenOf rest = some found ∧ ¬ Admits before (some found)
  | strayBrace, before, rest =>
    Term.tokenOf rest = some .closeBrace ∧ ¬ Admits before (some .closeBrace)
  | unclosedParen, before, rest =>
    Unclosed .openParen .closeParen (fun tokens => ∃ group : Group, group.inner = tokens) before rest
  | unclosedBrace, before, rest =>
    Unclosed .openBrace .closeBrace (fun tokens => ∃ sentence : Sentence, sentence.tokens = tokens)
      before rest
  | emptyQuotedName, _, rest => Term.tokenOf rest = some (.quoted "")
  | invalidPattern reason, before, rest => ∃ text, Term.tokenOf rest = some (.word text)
    ∧ Token.isPattern text = true ∧ Glob.Engine.refusal? text = some reason
    ∧ Admits before (some (.word text))
  | tooDeep, _, _ => True
  | unexpectedCharacter _, _, _ | unterminatedQuote, _, _ => False

/-! ### What stages do not take -/

namespace Stage

variable {inParens : Bool} {levels : Nat} {next : Option Token}

/-- Where a segment comes next, no mark and no end does. -/
theorem takes_segment (h : next.any (·.opensSelector) = false) :
    takes ⟨.segment inParens, levels⟩ next = false := by
  cases next with
  | none => rfl
  | some token =>
    cases token with
    | word => cases h
    | quoted => cases h
    | _ => rfl

/-- Where a group comes next, no mark does but a parenthesis, unless a sign can come before it or a
block can be closed. -/
theorem takes_opensGroup {mode : Mode} (hmode : mode.opensGroup = true)
    (h : next.any (·.opensSelector) = false) (hparen : next ≠ some .openParen)
    (hminus : mode ≠ .signed → next ≠ some .minus)
    (hclose : mode = .term true → next ≠ some .closeBrace) : takes ⟨mode, levels⟩ next = false := by
  cases next with
  | none =>
    cases mode with
    | term | signed => rfl
    | _ => cases hmode
  | some token =>
    cases mode with
    | term opened =>
      cases token with
      | word | quoted => cases h
      | minus => exact absurd rfl (hminus nofun)
      | openParen => exact absurd rfl hparen
      | closeBrace =>
        cases opened with
        | true => exact absurd rfl (hclose rfl)
        | false => rfl
      | _ => cases opened <;> rfl
    | signed =>
      cases token with
      | word | quoted => cases h
      | openParen => exact absurd rfl hparen
      | _ => rfl
    | _ => cases hmode

/-- Where nothing goes on with a group in parentheses, they have to be closed. -/
theorem takes_selector {rest : List Lexeme} (h : Term.endsGroup true rest = true)
    (hclose : Term.tokenOf rest ≠ some .closeParen) :
    takes ⟨.selector true, levels⟩ (Term.tokenOf rest) = false := by
  rcases rest with _ | ⟨⟨token, offset⟩, rest⟩
  · rfl
  · cases token with
    | dot | pipe => cases h
    | closeParen => exact absurd rfl hclose
    | _ => rfl

theorem takes_of_step {stage : Stage} {token : Token} (h : stage.step token = none) :
    stage.takes (some token) = false := by
  rw [takes, h]
  rfl

/-- Where nothing goes on with a term, it has to end. -/
theorem takes_phrase {phrase : Phrase} {token : Token} {offset : Nat} {rest : List Lexeme}
    (h : Term.EndsPhrase phrase (⟨token, offset⟩ :: rest))
    (hseparator : ¬ (token = .comma ∨ token = .pipe)) (hclose : token ≠ .closeBrace) :
    takes ⟨phrase.mode, levels⟩ (some token) = false := by
  have hterm : afterTerm levels token = none := by
    cases token with
    | comma => exact absurd (Or.inl rfl) hseparator
    | pipe => exact absurd (Or.inr rfl) hseparator
    | closeBrace => exact absurd rfl hclose
    | _ => rfl
  have hgroup : token ≠ .openBrace → afterGroup levels token = none := by
    intro hopen
    cases token with
    | openBrace => exact absurd rfl hopen
    | _ => exact hterm
  rcases phrase with ⟨negated, ⟨inParens, first, more⟩, block⟩
  cases block with
  | absent =>
    obtain ⟨hends, hopen⟩ := h
    have hopen : token ≠ .openBrace := fun htoken => hopen (congrArg some htoken)
    cases inParens with
    | true => exact takes_of_step (hgroup hopen)
    | false =>
      have hends := hends rfl
      cases token with
      | dot => cases hends
      | pipe => exact absurd (Or.inr rfl) hseparator
      | closeParen => rfl
      | _ => exact takes_of_step (hgroup hopen)
  | empty | of => exact takes_of_step hterm

end Stage

namespace Term

variable {stop depth : Nat} {before : List Token} {input rest : List Lexeme} {defect : Defect}
  {stage : Stage} {inParens : Bool} {levels : Nat}

/-- What the next token is, is told by the first lexeme. -/
theorem exists_of_tokenOf {token : Token} (h : tokenOf input = some token) :
    ∃ offset after, input = ⟨token, offset⟩ :: after := by
  rcases input with _ | ⟨⟨next, offset⟩, after⟩
  · cases h
  · cases h
    exact ⟨offset, after, rfl⟩

theorem viable_of_run (h : Stage.start.run before = some stage) : Viable before :=
  (viable_iff before).2 (Option.isSome_iff_exists.2 ⟨stage, h⟩)

theorem not_admits (h : Stage.start.run before = some stage) {next : Option Token}
    (hnext : stage.takes next = false) : ¬ Admits before next := by
  rw [admits_iff_of_run h, hnext]
  exact Bool.false_ne_true

/-- A run goes on over further tokens. -/
theorem run_trans (h : Stage.start.run before = some stage) {tokens : List Token} {later : Stage}
    (hlater : stage.run tokens = some later) : Stage.start.run (before ++ tokens) = some later := by
  rw [Stage.run_append, h, Option.bind_some, hlater]

theorem run_single (h : Stage.start.run before = some stage) (token : Token) {later : Stage}
    (hlater : stage.step token = some later) :
    Stage.start.run (before ++ [token]) = some later :=
  run_trans h (by rw [Stage.run_cons, hlater, Option.bind_some, Stage.run_nil])

variable [Glob.Engine]

/-- A defect has its place among lexemes that come after certain tokens.  The tokens before the
place begin a sentence, and the flaw says what is wrong there. -/
def Located (stop : Nat) (before : List Token) (input : List Lexeme) (defect : Defect) : Prop :=
  ∃ front rest, input = front ++ rest ∧ defect.offset = offsetOf stop rest
    ∧ Viable (before ++ front.map (·.token))
    ∧ defect.flaw.Blames (before ++ front.map (·.token)) rest

/-- The place of a defect is where the reader is. -/
theorem Located.here (hviable : Viable before) {flaw : Flaw} (hblames : flaw.Blames before input) :
    Located stop before input ⟨flaw, offsetOf stop input⟩ := by
  refine ⟨[], input, rfl, rfl, ?_, ?_⟩
  · rwa [List.map_nil, List.append_nil]
  · rwa [List.map_nil, List.append_nil]

/-- The place of a defect is after what was taken. -/
theorem Located.after {tokens : List Token} (htakes : Takes tokens input rest)
    (h : Located stop (before ++ tokens) rest defect) : Located stop before input defect := by
  obtain ⟨-, taken, rfl, rfl⟩ := htakes
  obtain ⟨front, rest, rfl, hoffset, hviable, hblames⟩ := h
  rw [List.append_assoc, ← List.map_append] at hviable hblames
  exact ⟨taken ++ front, rest, (List.append_assoc ..).symm, hoffset, hviable, hblames⟩

/-! ### Groups -/

/-- A token is refused as a segment if it is none, and the sentence cannot go on with it, or if it
is a pattern that is refused. -/
theorem located_of_segment (hrun : Stage.start.run before = some stage) {lexeme : Lexeme}
    (h : Term.segment lexeme = .error defect)
    (htakes : ∀ segment : Segment, Viable (before ++ [segment.token]))
    (hrefuses : lexeme.token.opensSelector = false → stage.takes (some lexeme.token) = false) :
    Located stop before (lexeme :: rest) defect := by
  obtain ⟨token, offset⟩ := lexeme
  cases token with
  | word text =>
    rw [Term.segment] at h
    dsimp only at h
    rw [classify.eq_def] at h
    split at h
    · next reason hreason =>
      cases h
      obtain ⟨hpattern, hrefused⟩ := Token.refusal?_ofWord_eq_some.1 hreason
      exact .here (viable_of_run hrun) ⟨text, rfl, hpattern, hrefused, htakes (.word text)⟩
    · cases h
  | quoted text =>
    rw [Term.segment] at h
    dsimp only at h
    split at h
    · next hempty =>
      cases h
      obtain rfl := String.isEmpty_iff.1 hempty
      exact .here (viable_of_run hrun) rfl
    · cases h
  | _ =>
    cases h
    exact .here (viable_of_run hrun) ⟨rfl, not_admits hrun (hrefuses rfl)⟩

theorem located_of_checkDepth (hrun : Stage.start.run before = some stage)
    (h : checkDepth stop depth input = .error defect) : Located stop before input defect := by
  rw [checkDepth] at h
  split at h
  · cases h
    exact .here (viable_of_run hrun) trivial
  · cases h

/-- What follows the first segment of a group is refused at its place. -/
theorem located_of_readSelectors {parents : List Name} {current : Name}
    (hrun : Stage.start.run before = some ⟨.selector inParens, levels⟩)
    (h : readSelectors stop depth inParens parents current input = .error defect) :
    Located stop before input defect := by
  fun_induction readSelectors stop depth inParens parents current input generalizing before with
  | case1 parents current offset rest other hdeep =>
    cases h
    exact .after ((takes_nil rest).cons rfl offset)
      (located_of_checkDepth (run_single hrun .dot rfl) hdeep)
  | case2 parents current offset hdepth =>
    cases h
    have hdot := run_single hrun .dot rfl
    exact .after ((takes_nil []).cons rfl offset)
      (.here (viable_of_run hdot) ⟨rfl, not_admits hdot (Stage.takes_segment rfl)⟩)
  | case3 parents current offset hdepth lexeme after other hsegment =>
    cases h
    have hdot := run_single hrun .dot rfl
    exact .after ((takes_nil (lexeme :: after)).cons rfl offset)
      (located_of_segment hdot hsegment (fun segment => viable_of_run
        (run_single hdot segment.token (Stage.intoSelector_segment segment)))
        fun hmark => Stage.takes_segment hmark)
  | case4 parents current offset hdepth lexeme after name hname hdeep ih =>
    obtain ⟨segment, hsegment⟩ := takes_segment hname after
    have hnext := run_single (run_single hrun .dot rfl) segment.token
      (Stage.intoSelector_segment segment)
    rw [List.append_assoc] at hnext
    exact .after (hsegment.cons rfl offset) (ih hnext h)
  | case5 parents current offset hparens =>
    cases h
    obtain rfl : inParens = true := hparens
    have hpipe := run_single hrun .pipe rfl
    exact .after ((takes_nil []).cons rfl offset)
      (.here (viable_of_run hpipe) ⟨rfl, not_admits hpipe (Stage.takes_segment rfl)⟩)
  | case6 => cases h
  | case7 parents current offset lexeme after hopens other hsegment =>
    cases h
    refine .after ((takes_nil (lexeme :: after)).cons rfl offset)
      (located_of_segment (run_single hrun .pipe rfl) hsegment (fun segment => ?_) fun hmark => ?_)
    · rw [List.append_assoc]
      exact viable_of_run (run_trans hrun (Stage.run_bar segment))
    · -- outside of parentheses the bar is only taken if a segment follows
      obtain rfl : inParens = true := by rwa [hmark, Bool.or_false] at hopens
      exact Stage.takes_segment hmark
  | case8 parents current offset lexeme after hopens name hname ih =>
    cases hread : readSelectors stop depth inParens [] name after with
    | ok read =>
      rw [hread] at h
      cases h
    | error other =>
      rw [hread] at h
      cases h
      obtain ⟨segment, hsegment⟩ := takes_segment hname after
      have hnext := run_trans hrun (Stage.run_bar segment)
      exact .after (hsegment.cons rfl offset) (ih hnext hread)
  | case9 => cases h
  | case10 => cases h

/-- The selectors of a group are refused at their place, where one comes next. -/
theorem located_of_readFirst (hrun : Stage.start.run before = some stage)
    (hopens : ∀ segment : Segment,
      stage.step segment.token = some ⟨.selector inParens, levels⟩)
    (hrefuses : (tokenOf input).any (·.opensSelector) = false →
      stage.takes (tokenOf input) = false)
    (h : readFirst stop depth inParens input = .error defect) :
    Located stop before input defect := by
  rw [readFirst.eq_def] at h
  split at h
  · next other hdeep =>
    cases h
    exact located_of_checkDepth hrun hdeep
  · split at h
    · cases h
      exact .here (viable_of_run hrun) ⟨rfl, not_admits hrun (hrefuses rfl)⟩
    · next lexeme after _ =>
      split at h
      · next other hsegment =>
        cases h
        exact located_of_segment hrun hsegment (fun segment => viable_of_run
          (run_single hrun segment.token (hopens segment))) hrefuses
      · next name hname =>
        obtain ⟨segment, hsegment⟩ := takes_segment hname after
        exact .after hsegment
          (located_of_readSelectors (run_single hrun segment.token (hopens segment)) h)

/-- A group is refused at its place, where one comes next. -/
theorem located_of_readGroup {mode : Mode} (hrun : Stage.start.run before = some ⟨mode, levels⟩)
    (hopens : mode.opensGroup = true)
    (hrefuses : (tokenOf input).any (·.opensSelector) = false → tokenOf input ≠ some .openParen →
      Stage.takes ⟨mode, levels⟩ (tokenOf input) = false)
    (h : readGroup stop depth input = .error defect) : Located stop before input defect := by
  rw [readGroup.eq_def] at h
  split at h
  · next offset rest =>
    have hparen := run_single hrun .openParen (Stage.step_openParen hopens)
    split at h
    · next other hfirst =>
      cases h
      exact .after ((takes_nil rest).cons rfl offset)
        (located_of_readFirst hparen Stage.intoSelector_segment Stage.takes_segment hfirst)
    · cases h
    · next read hclose hfirst =>
      cases h
      obtain ⟨selectors, after⟩ := read
      obtain ⟨first, more, ⟨-, inner, rfl, hinner⟩, hends⟩ := exists_of_readFirst hfirst
      have hgroup := run_trans hparen (Stage.run_inner ⟨true, first, more⟩
        (Stage.intoSelector_segment first.first))
      rw [← hinner, List.append_assoc, List.singleton_append] at hgroup
      have hnext : tokenOf after ≠ some .closeParen := by
        intro hnext
        obtain ⟨closing, rest, rfl⟩ := exists_of_tokenOf hnext
        exact hclose _ _ _ rfl
      exact .here (viable_of_run hrun) ⟨offset, inner, after, rfl, ⟨_, hinner.symm⟩,
        (admits_iff_of_run hgroup _).2 rfl, not_admits hgroup (Stage.takes_selector hends hnext)⟩
  · next hparen =>
    refine located_of_readFirst hrun (Stage.step_segment hopens) (fun hmark => ?_) h
    refine hrefuses hmark fun hopen => ?_
    obtain ⟨offset, rest, rfl⟩ := exists_of_tokenOf hopen
    exact hparen _ _ rfl

/-! ### Blocks and terms -/

/-- The ways in which reading a block fails: within it, or because it is not closed. -/
theorem readBlock_error (h : readBlock stop depth input = .error defect) :
    ∃ offset rest, input = ⟨.openBrace, offset⟩ :: rest ∧ tokenOf rest ≠ some .closeBrace
      ∧ (readAll stop depth rest = .error defect
        ∨ ∃ terms left, terms? stop depth rest = some (terms, left)
            ∧ tokenOf left ≠ some .closeBrace ∧ defect = ⟨.unclosedBrace, offset⟩) := by
  rw [readBlock.eq_def] at h
  split at h
  · cases h
  · next offset rest hempty =>
    refine ⟨offset, rest, rfl, fun hclose => ?_, ?_⟩
    · obtain ⟨closing, after, rfl⟩ := exists_of_tokenOf hclose
      exact hempty _ _ rfl
    · split at h
      · next other hread =>
        cases h
        exact Or.inl hread
      · cases h
      · next reading hclose hread =>
        cases h
        obtain ⟨terms, left, hshorter⟩ := reading
        refine Or.inr ⟨terms, left, by rw [terms?, hread]; rfl, fun hnext => ?_, rfl⟩
        obtain ⟨closing, after, rfl⟩ := exists_of_tokenOf hnext
        exact hclose _ _ _ _ rfl
  · cases h

/-- The ways in which reading terms fails: within the group or the block of the first one, after it,
or because something stands there that cannot follow a term. -/
theorem readAll_error (h : readAll stop depth input = .error defect) :
    readGroup stop depth (readSign input).2 = .error defect
    ∨ (∃ group afterGroup, readGroup stop depth (readSign input).2 = .ok (group, afterGroup)
        ∧ readBlock stop (depth + Selector.groupDepth group) afterGroup = .error defect)
    ∨ ∃ term token offset rest, term? stop depth input = some (term, ⟨token, offset⟩ :: rest)
        ∧ ((token = .comma ∨ token = .pipe) ∧ readAll stop depth rest = .error defect
          ∨ ¬ (token = .comma ∨ token = .pipe) ∧ token ≠ .closeBrace
            ∧ defect = ⟨.expectedComma token, offset⟩) := by
  rw [readAll.eq_def] at h
  split at h
  · next other hgroup =>
    cases h
    exact Or.inl hgroup
  · next group afterGroup hgroup =>
    refine Or.inr ?_
    dsimp only at h
    split at h
    · next other hblock =>
      cases h
      exact Or.inl ⟨group, afterGroup, hgroup, hblock⟩
    · next block afterTerm hshorter hblock =>
      have hterm : term? stop depth input
          = some (⟨(readSign input).1, group, block⟩, afterTerm) := by
        rw [term?, hgroup, Except.toOption, Option.bind_some]
        dsimp only
        rw [block?, hblock]
        rfl
      refine Or.inr ?_
      split at h
      · cases h
      · next token offset rest _ =>
        refine ⟨_, token, offset, rest, hterm, ?_⟩
        split at h
        · next hseparator =>
          split at h
          · next other hread =>
            cases h
            exact Or.inl ⟨hseparator, hread⟩
          · cases h
        · next hseparator =>
          split at h
          · cases h
          · next hclose =>
            cases h
            exact Or.inr ⟨hseparator, hclose, rfl⟩

/-- Whatever is refused as terms in an input below a bound is refused at its place, if a term comes
next there and no empty block is closed. -/
def LocatesDefects (stop bound : Nat) : Prop :=
  ∀ {input : List Lexeme}, input.length < bound → ∀ {depth : Nat} {defect : Defect},
    readAll stop depth input = .error defect →
      ∀ {before : List Token} {opened : Bool} {levels : Nat},
        Stage.start.run before = some ⟨.term opened, levels⟩ →
          (opened = true → tokenOf input ≠ some .closeBrace) → Located stop before input defect

/-- A block is refused at its place after a group, if what is within it is. -/
theorem located_of_readBlock (hinner : LocatesDefects stop input.length) {group : Group}
    (hrun : Stage.start.run before = some ⟨group.mode, levels⟩)
    (h : readBlock stop depth input = .error defect) : Located stop before input defect := by
  obtain ⟨offset, rest, rfl, hempty, hread | ⟨terms, left, hread, hclose, rfl⟩⟩ := readBlock_error h
  · exact .after ((takes_nil rest).cons rfl offset) (hinner (Nat.lt_succ_self _) hread
      (run_single hrun .openBrace (Stage.step_openBrace group)) fun _ => hempty)
  · obtain ⟨sentence, ⟨-, inner, rfl, hsentence⟩, hend⟩ := exists_sentence hread
    obtain rfl : left = [] := hend.resolve_right hclose
    have hblock := run_trans (run_single hrun .openBrace (Stage.step_openBrace group))
      (sentence.run_tokens true (levels + 1))
    rw [← hsentence, List.append_assoc, List.singleton_append] at hblock
    have hcloses : Stage.takes ⟨sentence.mode, levels + 1⟩ (some .closeBrace) = true := by
      rw [Stage.takes, Stage.step_closeBrace sentence.endsTerm_mode]
      rfl
    have hends : Stage.takes ⟨sentence.mode, levels + 1⟩ none = false :=
      Bool.and_false _
    exact .here (viable_of_run hrun) ⟨offset, inner, [], rfl, ⟨sentence, hsentence.symm⟩,
      (admits_iff_of_run hblock _).2 hcloses, not_admits hblock hends⟩

/-- The group of a term is refused at its place, after the sign if there is one. -/
theorem located_of_signedGroup {opened : Bool}
    (hrun : Stage.start.run before = some ⟨.term opened, levels⟩)
    (hclose : opened = true → tokenOf input ≠ some .closeBrace)
    (h : readGroup stop depth (readSign input).2 = .error defect) :
    Located stop before input defect := by
  rw [readSign.eq_def] at h
  split at h
  · next offset rest =>
    refine .after ((takes_nil rest).cons rfl offset) ?_
    exact located_of_readGroup (run_single hrun .minus rfl) rfl
      (fun hmark hparen => Stage.takes_opensGroup rfl hmark hparen
        (absurd rfl) (fun hterm => absurd hterm (by decide))) h
  · next hminus =>
    refine located_of_readGroup hrun rfl (fun hmark hparen => ?_) h
    refine Stage.takes_opensGroup rfl hmark hparen (fun _ hnext => ?_) fun hopened => ?_
    · obtain ⟨offset, rest, rfl⟩ := exists_of_tokenOf hnext
      exact hminus _ _ rfl
    · exact hclose (Mode.term.inj hopened)

/-- What is refused in an input is refused at its place, if that holds of shorter ones. -/
theorem locatesDefects_succ {bound : Nat} (ih : LocatesDefects stop bound) :
    LocatesDefects stop (bound + 1) := by
  intro input hlength depth defect h before opened levels hrun hclose
  have hinner : LocatesDefects stop input.length :=
    fun hshorter => ih (Nat.lt_of_lt_of_le hshorter (Nat.le_of_lt_succ hlength))
  obtain hgroup | ⟨selectors, afterGroup, hgroup, hblock⟩ | ⟨term, token, offset, rest, hterm, hrest⟩
    := readAll_error h
  · exact located_of_signedGroup hrun hclose hgroup
  · obtain ⟨group, htakes, -⟩ := exists_of_readGroup hgroup
    have hshorter : afterGroup.length ≤ input.length :=
      Nat.le_of_lt (Nat.lt_of_lt_of_le (length_of_readGroup hgroup) (length_readSign input))
    have hwithin : LocatesDefects stop afterGroup.length :=
      fun hlength => hinner (Nat.lt_of_lt_of_le hlength hshorter)
    exact .after ((takes_readSign input).append htakes) (located_of_readBlock hwithin
      (run_trans hrun (Stage.run_signedGroup _ group)) hblock)
  · obtain ⟨hshorter, phrase, htakes, hends⟩ := exists_of_term? (readsSentences stop _) hterm
    have hphrase := run_trans hrun (phrase.run_tokens opened levels)
    refine .after htakes ?_
    obtain ⟨hseparator, hread⟩ | ⟨hseparator, hbrace, rfl⟩ := hrest
    · obtain ⟨bar, rfl⟩ : ∃ bar, token = Sentence.separator bar := by
        rcases hseparator with rfl | rfl
        · exact ⟨false, rfl⟩
        · exact ⟨true, rfl⟩
      have hnext := run_single hphrase (Sentence.separator bar)
        (Stage.step_separator phrase.endsTerm_mode bar)
      exact .after ((takes_nil rest).cons (Sentence.compiles_separator bar) offset)
        (hinner (Nat.lt_trans (Nat.lt_succ_self _) hshorter) hread hnext
          fun hopened => absurd hopened Bool.false_ne_true)
    · exact .here (viable_of_run hphrase)
        ⟨rfl, not_admits hphrase (Stage.takes_phrase hends hseparator hbrace)⟩

/-- By induction on the number of lexemes, whatever is refused is refused at its place. -/
theorem locatesDefects (stop bound : Nat) : LocatesDefects stop bound := by
  induction bound with
  | zero => exact fun hlength => absurd hlength (Nat.not_lt_zero _)
  | succ bound ih => exact locatesDefects_succ ih

/-- **Where reading fails.** -/
theorem located_of_read (h : read stop input = .error defect) : Located stop [] input defect := by
  rw [read] at h
  split at h
  · next other hread =>
    cases h
    exact locatesDefects stop _ (Nat.lt_succ_self _) hread rfl
      fun hopened => absurd hopened Bool.false_ne_true
  · cases h
  · next terms lexeme rest hshorter hread =>
    cases h
    have hterms : terms? stop 0 input = some (terms, lexeme :: rest) := by
      rw [terms?, hread]
      rfl
    obtain ⟨sentence, htakes, hend⟩ := exists_sentence hterms
    have hbrace : tokenOf (lexeme :: rest) = some .closeBrace := hend.resolve_left (List.cons_ne_nil _ _)
    have hrun := sentence.run_tokens false 0
    have hrefuses : Stage.takes ⟨sentence.mode, 0⟩ (some .closeBrace) = false := by
      rw [Stage.takes, Stage.step_of_endsTerm sentence.endsTerm_mode (Or.inr (Or.inr rfl))]
      rfl
    exact .after htakes (.here (viable_of_run hrun) ⟨hbrace, not_admits hrun hrefuses⟩)

end Term

/-! ## Texts -/

/-- **Where a text is at fault.**  The fault carries the text, and its place lies within the text or
at its end.  Either the text before the place is cut into tokens and the character there starts no
token or is a quote that is never closed; or the whole text is cut into tokens, those before the
place begin a sentence, and the flaw says what is wrong with what is left. -/
theorem Expression.located_of_parse [Glob.Engine] {source : String} {fault : SyntaxFault}
    (h : Expression.parse source = .error fault) :
    fault.source = source ∧ fault.defect.offset ≤ source.length
      ∧ ((∃ before c rest lexemes, source.toList = before ++ c :: rest
            ∧ fault.defect.offset = before.length ∧ Spelling none 0 before lexemes
            ∧ fault.defect.flaw.Stops c rest)
        ∨ ∃ front rest, Token.scan 0 source.toList = .ok (front ++ rest)
            ∧ fault.defect.offset = Term.offsetOf source.length rest
            ∧ Viable (front.map (·.token))
            ∧ fault.defect.flaw.Blames (front.map (·.token)) rest) := by
  have hlength : source.toList.length = source.length := String.length_toList
  rw [parse] at h
  split at h
  · next defect hterms =>
    cases h
    refine ⟨rfl, ?_⟩
    dsimp only
    rw [terms] at hterms
    split at hterms
    · next other hscan =>
      cases hterms
      obtain ⟨before, c, rest, lexemes, htext, hoffset, hbefore, hstops⟩ :=
        Token.stops_of_scan hscan
      rw [Nat.zero_add] at hoffset
      refine ⟨?_, Or.inl ⟨before, c, rest, lexemes, htext, hoffset, hbefore, hstops⟩⟩
      rw [← hlength, htext, hoffset, List.length_append]
      exact Nat.le_add_right _ _
    · cases hterms
    · next lexemes _ hscan =>
      rw [hlength] at hterms
      obtain ⟨front, rest, rfl, hoffset, hviable, hblames⟩ := Term.located_of_read hterms
      refine ⟨?_, Or.inr ⟨front, rest, hscan, hoffset, hviable, hblames⟩⟩
      rw [hoffset]
      cases rest with
      | nil => exact Nat.le_refl _
      | cons lexeme rest =>
        have hwithin := Token.offset_lt_of_scan hscan lexeme (by simp)
        rw [Nat.zero_add, hlength] at hwithin
        exact Nat.le_of_lt hwithin
  · cases h

/-- No segment comes after the dot, and it is the brace that is at fault. -/
theorem Expression.located_dotBlock :
    ∃ fault, Expression.parse "a.\x7bb\x7d" = .error fault ∧ fault.source = "a.\x7bb\x7d"
      ∧ fault.defect = ⟨.emptySelector (some .openBrace), 2⟩
      ∧ ∃ front rest, Token.scan 0 "a.\x7bb\x7d".toList = .ok (front ++ rest)
          ∧ Term.offsetOf 5 rest = 2 ∧ Viable (front.map (·.token))
          ∧ Term.tokenOf rest = some .openBrace
          ∧ ¬ Admits (front.map (·.token)) (some .openBrace) := by
  have hparse : Expression.parse "a.\x7bb\x7d"
      = .error ⟨"a.\x7bb\x7d", ⟨.emptySelector (some .openBrace), 2⟩⟩ := by decide +kernel
  refine ⟨_, hparse, rfl, rfl, ?_⟩
  obtain ⟨-, -, ⟨_, _, _, _, _, _, _, hstops⟩ | ⟨front, rest, hscan, hoffset, hviable, hblames⟩⟩ :=
    Expression.located_of_parse hparse
  · exact hstops.elim
  · exact ⟨front, rest, hscan, hoffset.symm, hviable, hblames⟩

/-- **A pattern that is refused is no fault of the sentence.**  Of two commas the second is at
fault, as no sentence goes on with it.  But the text is refused where the stars before them are,
with which a sentence can begin. -/
theorem Expression.not_stopped_stars :
    (∃ reason, Expression.parse (stars 100000 ++ ",,")
      = .error ⟨stars 100000 ++ ",,", ⟨.invalidPattern reason, 0⟩⟩)
    ∧ ¬ ∃ front rest, Token.scan 0 (stars 100000 ++ ",,").toList = .ok (front ++ rest)
        ∧ Term.offsetOf (stars 100000 ++ ",,").length rest = 0
        ∧ Viable (front.map (·.token)) ∧ ¬ Admits (front.map (·.token)) (Term.tokenOf rest) := by
  -- the number is too large to be looked into
  obtain ⟨count, hcount, heq⟩ : ∃ count, 50000 < count ∧ 100000 = count := ⟨_, by decide, rfl⟩
  rw [heq]
  have hcomma : ∀ offset text, Token.scan offset (',' :: text)
      = (Token.scan (offset + 1) text).map (⟨.comma, offset⟩ :: ·) :=
    fun _ _ => @Token.scan_token _ _ .comma [','] (.mark rfl) rfl
  have hscan : Token.scan 0 (stars count ++ ",,").toList
      = .ok [⟨.word (stars count), 0⟩, ⟨.comma, count⟩, ⟨.comma, count + 1⟩] := by
    have hcommas : ",,".toList = [',', ','] := rfl
    rw [String.toList_append, Token.scan_stars (Nat.zero_lt_of_lt hcount) rfl, hcommas, hcomma,
      hcomma, Token.scan]
    rfl
  refine ⟨⟨_, parse_of_refusal hscan (Name.refusal?_stars hcount)⟩, ?_⟩
  rintro ⟨front, rest, hcut, hoffset, -, hrefused⟩
  rw [hscan] at hcut
  rcases front with _ | ⟨lexeme, front⟩
  · cases hcut
    exact hrefused ((admits_iff _ _).2 rfl)
  · have hlater : ∀ lexeme ∈ rest, lexeme.offset ≠ 0 := by
      intro lexeme hlexeme
      have hmem : lexeme ∈ [⟨.comma, count⟩, ⟨.comma, count + 1⟩] :=
        (List.cons.inj (Except.ok.inj hcut)).2 ▸ List.mem_append_right _ hlexeme
      rcases List.mem_pair.1 hmem with rfl | rfl
      · exact Nat.ne_zero_of_lt hcount
      · exact Nat.succ_ne_zero count
    cases rest with
    | nil => simp [Term.offsetOf] at hoffset
    | cons lexeme rest => exact hlater lexeme List.mem_cons_self hoffset

end FieldFilter
