import FieldFilter.Token.Spelling

/-!
# Scanning undoes spelling

A text is cut into tokens in the one way in which it spells them.  The facts this rests on come in
four groups.

**Characters.**  No character can be two things: blanks, marks, quotes and the first characters of
words are told apart, and of all the marks only the minus sign can stand inside a word.

**One token.**  `Token.next_eq_ok_iff` says what is cut off the front of a text: a spelling of the
token, and a word as far as it goes.  `Spelling.endsBefore` and `Spelling.follow` turn the condition
on blanks, which looks at two tokens, into this one, which looks at the next character.

**A whole text.**  `Token.scan_eq_ok_iff` follows by induction, on the spelling one way and on the
scan the other.

**Written tokens.**  `Written.spelling` says that tokens are spelled as they are written;
**`Token.scanText_spelling`** collects what follows for written tokens, for spelled texts and for
all others.
-/

namespace FieldFilter

/-! ## Characters -/

/-- No blank is a letter or a digit: the ranges of the two tables have nothing in common. -/
theorem Text.isAlphanumeric_of_isBlank {c : Char} (h : isBlank c = true) :
    isAlphanumeric c = false := by
  have hapart : ∀ blank ∈ blankRanges, ∀ range ∈ alphanumericRanges,
      blank.2 < range.1 ∨ range.2 < blank.1 := by decide +kernel
  rw [Bool.eq_false_iff]
  intro halphanumeric
  obtain ⟨range, hrange, hlow, hhigh⟩ := mem_range_of_isAlphanumeric halphanumeric
  simp only [isBlank, List.any_eq_true, Bool.and_eq_true, decide_eq_true_eq] at h
  obtain ⟨blank, hblank, hlow', hhigh'⟩ := h
  have := hapart blank hblank range hrange
  omega

namespace Token

/-- The quotes are two characters. -/
theorem isQuote_iff {c : Char} : isQuote c = true ↔ c = '\x27' ∨ c = '\x22' := by
  simp [isQuote]

/-- A blank ends a word. -/
theorem continuesWord_of_isBlank {c : Char} (h : Text.isBlank c = true) :
    continuesWord c = false := by
  have hmark : ∀ d : Char, Text.isBlank d = false → c ≠ d := by
    rintro d hd rfl
    simp [hd] at h
  simp [continuesWord, startsWord, Text.isAlphanumeric_of_isBlank h, hmark '_' (by decide),
    hmark '$' (by decide), hmark '@' (by decide), hmark '*' (by decide), hmark '-' (by decide)]

/-- A mark is no blank, no quote and no first character of a word, and a word goes on with it just
if it sticks to words. -/
theorem ofMark?_apart {c : Char} {token : Token} (h : ofMark? c = some token) :
    Text.isBlank c = false ∧ isQuote c = false ∧ startsWord c = false
      ∧ ∀ text : String, continuesWord c = (word text).sticks token := by
  unfold ofMark? at h
  split at h
  case h_9 => simp at h
  all_goals
    cases h
    exact ⟨by decide, by decide, by decide, fun text => by simp only [sticks]; decide⟩

/-- A quote is no blank and no mark, and does not stand in a word. -/
theorem isQuote_apart {c : Char} (h : isQuote c = true) :
    Text.isBlank c = false ∧ ofMark? c = none ∧ continuesWord c = false ∧ c ≠ '\\' := by
  rcases isQuote_iff.1 h with rfl | rfl <;> decide

/-- The first character of a word is no blank, no mark and no quote. -/
theorem startsWord_apart {c : Char} (h : startsWord c = true) :
    Text.isBlank c = false ∧ ofMark? c = none ∧ isQuote c = false := by
  have hcontinues : continuesWord c = true := by simp [continuesWord, h]
  refine ⟨?_, ?_, ?_⟩
  · rw [Bool.eq_false_iff]
    intro hblank
    simp [continuesWord_of_isBlank hblank] at hcontinues
  · cases hmark : ofMark? c with
    | none => rfl
    | some token => simp [(ofMark?_apart hmark).2.2.1] at h
  · rw [Bool.eq_false_iff]
    intro hquote
    simp [(isQuote_apart hquote).2.2.1] at hcontinues

/-! ## One token -/

/-- What stands between quotes is read up to the first quote without a backslash. -/
theorem unquote_eq_some_iff {quote : Char} (hquote : quote ≠ '\\') {text body after : List Char}
    {taken : Nat} :
    unquote quote text = some (body, taken, after)
      ↔ ∃ written, text = written ++ quote :: after ∧ taken = written.length + 1
          ∧ Unescapes quote written body := by
  constructor
  · intro h
    fun_induction unquote quote text generalizing body taken with
    | case1 => simp at h
    | case2 c rest ih =>
      obtain ⟨⟨body', taken', after'⟩, hrest, hsame⟩ := Option.map_eq_some_iff.1 h
      simp only [Prod.mk.injEq] at hsame
      obtain ⟨rfl, rfl, rfl⟩ := hsame
      obtain ⟨written, rfl, rfl, hwritten⟩ := ih hrest
      exact ⟨'\\' :: c :: written, rfl, by simp, .escaped hwritten⟩
    | case3 rest =>
      simp only [Option.some.injEq, Prod.mk.injEq] at h
      obtain ⟨rfl, rfl, rfl⟩ := h
      exact ⟨[], rfl, rfl, .nil⟩
    | case4 c rest hbackslash hne ih =>
      obtain ⟨⟨body', taken', after'⟩, hrest, hsame⟩ := Option.map_eq_some_iff.1 h
      simp only [Prod.mk.injEq] at hsame
      obtain ⟨rfl, rfl, rfl⟩ := hsame
      obtain ⟨written, rfl, rfl, hwritten⟩ := ih hrest
      refine ⟨c :: written, rfl, by simp, .plain hne ?_ hwritten⟩
      -- a backslash has a character after it, as the closing quote is still to come
      rintro rfl
      cases written with
      | nil => exact hbackslash quote after' rfl rfl
      | cons d written => exact hbackslash d (written ++ quote :: after') rfl rfl
  · rintro ⟨written, rfl, rfl, hwritten⟩
    induction hwritten with
    | nil =>
      rw [List.nil_append, unquote]
      · simp
      · simp [hquote]
    | plain hne hbackslash _ ih =>
      rw [List.cons_append, unquote]
      · simp [hne, ih]
      · simp [hbackslash]
    | escaped _ ih =>
      rw [List.cons_append, List.cons_append, unquote, ih]
      simp

/-- Whether a token ends before a text: a word goes on as far as it can. -/
def endsBefore : Token → List Char → Bool
  | .word _, d :: _ => !continuesWord d
  | _, _ => true

/-- A word is cut off up to the first character that does not go on with it. -/
theorem span_word {more after : List Char} {text : String}
    (hmore : ∀ d ∈ more, continuesWord d = true)
    (hafter : (word text).endsBefore after = true) :
    (more ++ after).takeWhile continuesWord = more
      ∧ (more ++ after).dropWhile continuesWord = after := by
  rw [List.takeWhile_append_of_pos hmore, List.dropWhile_append_of_pos hmore]
  cases after with
  | nil => simp
  | cons d after =>
    simp only [endsBefore, Bool.not_eq_true'] at hafter
    simp [hafter]

/-- A mark has ended whatever follows. -/
theorem endsBefore_of_ofMark? {c : Char} {token : Token} (h : ofMark? c = some token)
    (after : List Char) : token.endsBefore after = true := by
  unfold ofMark? at h
  split at h
  case h_9 => simp at h
  all_goals
    cases h
    simp [endsBefore]

/-- **One token is cut off a text** as its spelling goes, and a word as far as it goes. -/
theorem next_eq_ok_iff {c : Char} {rest after : List Char} {token : Token} {taken : Nat} :
    next c rest = .ok ⟨token, taken, after⟩
      ↔ ∃ more, rest = more ++ after ∧ taken = more.length ∧ token.Spells (c :: more)
          ∧ token.endsBefore after = true := by
  constructor
  · intro h
    unfold next at h
    split at h
    · next mark hmark =>
      simp only [Except.ok.injEq, Scanned.mk.injEq] at h
      obtain ⟨rfl, rfl, rfl⟩ := h
      exact ⟨[], rfl, rfl, .mark hmark, endsBefore_of_ofMark? hmark rest⟩
    · split at h
      · next hquote =>
        split at h
        · next body taken' after' hbody =>
          simp only [Except.ok.injEq, Scanned.mk.injEq] at h
          obtain ⟨rfl, rfl, rfl⟩ := h
          obtain ⟨written, rfl, rfl, hwritten⟩ :=
            (unquote_eq_some_iff (isQuote_apart hquote).2.2.2).1 hbody
          exact ⟨written ++ [c], by simp, by simp, .quoted hquote hwritten, rfl⟩
        · simp at h
      · split at h
        · next hstarts =>
          simp only [Except.ok.injEq, Scanned.mk.injEq] at h
          obtain ⟨rfl, rfl, rfl⟩ := h
          refine ⟨rest.takeWhile continuesWord, List.takeWhile_append_dropWhile.symm, rfl,
            .word ⟨c, _, rfl, hstarts, List.all_eq_true.1 List.all_takeWhile⟩, ?_⟩
          cases hafter : rest.dropWhile continuesWord with
          | nil => rfl
          | cons d after =>
            have hd := List.head?_dropWhile_not continuesWord rest
            rw [hafter] at hd
            simpa [endsBefore] using hd
        · simp at h
  · rintro ⟨more, rfl, rfl, hspells, hends⟩
    generalize htext : c :: more = text at hspells
    cases hspells with
    | word hword =>
      obtain ⟨d, rest, rfl, hstarts, hrest⟩ := hword
      simp only [List.cons.injEq] at htext
      obtain ⟨rfl, rfl⟩ := htext
      obtain ⟨htake, hdrop⟩ := span_word hrest hends
      obtain ⟨-, hmark, hquote⟩ := startsWord_apart hstarts
      simp [next, hmark, hquote, hstarts, htake, hdrop]
    | @quoted quote written body hquote hwritten =>
      simp only [List.cons_append, List.cons.injEq] at htext
      obtain ⟨rfl, rfl⟩ := htext
      obtain ⟨-, hmark, -, hbackslash⟩ := isQuote_apart hquote
      have hread : unquote c (written ++ c :: after) = some (body, written.length + 1, after) :=
        (unquote_eq_some_iff hbackslash).2 ⟨written, rfl, rfl, hwritten⟩
      simp [next, hmark, hquote, hread]
    | mark hmark =>
      simp only [List.cons.injEq] at htext
      obtain ⟨rfl, rfl⟩ := htext
      simp [next, hmark]

end Token

/-! ## A whole text -/

namespace Token

variable {offset : Nat} {text : List Char}

/-- Every spelling of a token has a first character, and that is no blank. -/
theorem Spells.exists_cons {token : Token} {written : List Char} (h : token.Spells written) :
    ∃ c more, written = c :: more ∧ Text.isBlank c = false := by
  cases h with
  | word hword =>
    obtain ⟨c, rest, rfl, hstarts, -⟩ := hword
    exact ⟨c, rest, rfl, (startsWord_apart hstarts).1⟩
  | quoted hquote _ => exact ⟨_, _, rfl, (isQuote_apart hquote).1⟩
  | mark hmark => exact ⟨_, [], rfl, (ofMark?_apart hmark).1⟩

/-- Blanks are counted and dropped. -/
theorem scan_gap {gap : List Char} (hgap : Text.isAllBlank gap = true) :
    scan offset (gap ++ text) = scan (offset + gap.length) text := by
  induction gap generalizing offset with
  | nil => rfl
  | cons c gap ih =>
    simp only [Text.isAllBlank, List.all_cons, Bool.and_eq_true] at hgap
    rw [List.cons_append, scan, if_pos hgap.1, ih hgap.2, List.length_cons]
    congr 1
    omega

/-- A token is scanned off the front of a text, if it ends there. -/
theorem scan_token {token : Token} {written : List Char} (hwritten : token.Spells written)
    (hends : token.endsBefore text = true) :
    scan offset (written ++ text)
      = (scan (offset + written.length) text).map (⟨token, offset⟩ :: ·) := by
  obtain ⟨c, more, rfl, hblank⟩ := hwritten.exists_cons
  have hnext : next c (more ++ text) = .ok ⟨token, more.length, text⟩ :=
    next_eq_ok_iff.2 ⟨more, rfl, rfl, hwritten, hends⟩
  have hlength : offset + 1 + more.length = offset + (c :: more).length := by
    simp only [List.length_cons]
    omega
  rw [List.cons_append, scan, if_neg (by simp [hblank])]
  split
  · next flaw hflaw => simp [hnext] at hflaw
  · next scanned hscanned =>
    simp only [hnext, Except.ok.injEq] at hscanned
    subst hscanned
    rw [hlength]

end Token

/-! ### Blanks between tokens

A token ends before the next one just if it does not stick to it, and a blank between them always
ends it.  So a spelling with blanks in the right places is one in which every token ends. -/

namespace Token

/-- **Sticking together is about one character:** a token would go on with a word just if its
spelling starts with a character that does. -/
theorem Spells.endsBefore {token : Token} {written : List Char} (h : token.Spells written)
    (before : Token) (more : List Char) :
    before.endsBefore (written ++ more) = !before.sticks token := by
  cases before with
  | word text =>
    cases h with
    | word hword =>
      obtain ⟨c, rest, rfl, hstarts, -⟩ := hword
      simp [Token.endsBefore, sticks, continuesWord, hstarts]
    | quoted hquote _ => simp [Token.endsBefore, sticks, (isQuote_apart hquote).2.2.1]
    | mark hmark => simp [Token.endsBefore, (ofMark?_apart hmark).2.2.2 text]
  | _ => cases token <;> rfl

/-- A blank ends every token. -/
theorem endsBefore_gap {gap : List Char} (hgap : Text.isAllBlank gap = true) (hne : gap ≠ [])
    (token : Token) (text : List Char) : token.endsBefore (gap ++ text) = true := by
  cases gap with
  | nil => simp at hne
  | cons c gap =>
    simp only [Text.isAllBlank, List.all_cons, Bool.and_eq_true] at hgap
    cases token with
    | word => simp [endsBefore, continuesWord_of_isBlank hgap.1]
    | _ => rfl

end Token

namespace Spelling

variable {offset : Nat} {text : List Char} {lexemes : List Lexeme} {token : Token}

/-- In a spelling every token ends where its spelling does. -/
theorem endsBefore (h : Spelling (some token) offset text lexemes) :
    token.endsBefore text = true := by
  cases h with
  | blank hgap =>
    cases text with
    | nil => cases token <;> rfl
    | cons c gap =>
      have hends := Token.endsBefore_gap hgap (List.cons_ne_nil c gap) token []
      rwa [List.append_nil] at hends
  | @token _ _ gap written text next lexemes hgap hapart hwritten h =>
    rw [List.append_assoc]
    cases gap with
    | nil =>
      rw [List.nil_append, hwritten.endsBefore, Bool.not_eq_true', Bool.eq_false_iff]
      intro hsticks
      exact hapart hsticks rfl
    | cons c gap => exact Token.endsBefore_gap hgap (List.cons_ne_nil c gap) token _

/-- A spelling can come after a token that ends before it. -/
theorem follow (h : Spelling none offset text lexemes) (hends : token.endsBefore text = true) :
    Spelling (some token) offset text lexemes := by
  cases h with
  | blank hgap => exact .blank hgap
  | @token _ _ gap written text next lexemes hgap _ hwritten h =>
    refine .token hgap ?_ hwritten h
    rintro hsticks rfl
    rw [List.nil_append, hwritten.endsBefore, Bool.not_eq_true'] at hends
    exact Bool.false_ne_true (hends.symm.trans hsticks)

/-- A spelling can have one more blank in front, and then it can come after anything. -/
theorem cons {c : Char} (hc : Text.isBlank c = true) (before : Option Token)
    (h : Spelling none (offset + 1) text lexemes) : Spelling before offset (c :: text) lexemes := by
  have hgrown : ∀ {gap : List Char}, Text.isAllBlank gap = true →
      Text.isAllBlank (c :: gap) = true := by
    intro gap hgap
    simpa [Text.isAllBlank, hc] using hgap
  cases h with
  | blank hgap => exact .blank (hgrown hgap)
  | @token _ _ gap written text next lexemes hgap _ hwritten h =>
    have hlength : offset + 1 + gap.length = offset + (c :: gap).length := by
      simp only [List.length_cons]
      omega
    rw [hlength] at h ⊢
    exact .token (hgrown hgap) (fun _ => List.cons_ne_nil c gap) hwritten h

end Spelling

namespace Token

variable {offset : Nat} {text : List Char} {lexemes : List Lexeme}

/-- A spelling is scanned as what it spells. -/
theorem scan_of_spelling {before : Option Token} (h : Spelling before offset text lexemes) :
    scan offset text = .ok lexemes := by
  induction h with
  | @blank before offset gap hgap =>
    have hscan := @scan_gap offset [] gap hgap
    rw [List.append_nil] at hscan
    rw [hscan, scan]
  | token hgap hapart hwritten h ih =>
    rw [List.append_assoc, scan_gap hgap, scan_token hwritten h.endsBefore, ih]
    rfl

/-- What is scanned is a spelling. -/
theorem spelling_of_scan (h : scan offset text = .ok lexemes) :
    Spelling none offset text lexemes := by
  fun_induction scan offset text generalizing lexemes with
  | case1 offset =>
    cases h
    exact .blank rfl
  | case2 offset c rest hblank ih => exact .cons hblank none (ih h)
  | case3 offset c rest hblank flaw hnext => simp at h
  | case4 offset c rest hblank scanned hnext ih =>
    obtain ⟨token, taken, after⟩ := scanned
    obtain ⟨more, rfl, rfl, hwritten, hends⟩ := next_eq_ok_iff.1 hnext
    have hlength : offset + 1 + more.length = offset + 0 + (c :: more).length := by
      simp only [List.length_cons]
      omega
    rw [hlength] at h ih
    cases hafter : scan (offset + 0 + (c :: more).length) after with
    | error defect =>
      rw [hafter] at h
      simp [Except.map] at h
    | ok lexemes =>
      rw [hafter] at h
      simp only [Except.map, Except.ok.injEq] at h
      subst h
      have hgap : Text.isAllBlank [] = true := rfl
      exact .token hgap (by simp) hwritten ((ih hafter).follow hends)

/-- **Scanning and spelling are the same.** -/
theorem scan_eq_ok_iff : scan offset text = .ok lexemes ↔ Spelling none offset text lexemes :=
  ⟨spelling_of_scan, scan_of_spelling⟩

end Token

/-! ## Written tokens -/

namespace Token

/-- Putting backslashes before quotes and backslashes is undone by dropping them. -/
theorem unescapes_escape (quote : Char) (body : List Char) :
    Unescapes quote (escape quote body) body := by
  induction body with
  | nil => exact .nil
  | cons c body ih =>
    rw [escape, List.flatMap_cons, ← escape]
    split
    · exact .escaped ih
    · next hplain =>
      rw [not_or] at hplain
      exact .plain hplain.1 hplain.2 ih

/-- A token is spelled as it is written. -/
theorem spells_write {quote : Char} {token : Token} (hquote : isQuote quote = true)
    (hwritable : token.IsWritable) : token.Spells (token.write quote) := by
  cases token with
  | word text =>
    have hspells := Spells.word hwritable
    rwa [String.ofList_toList] at hspells
  | quoted text =>
    have hspells := Spells.quoted hquote (unescapes_escape quote text.toList)
    rwa [String.ofList_toList] at hspells
  | _ => exact .mark rfl

end Token

/-- Tokens are spelled as they are written, where they are. -/
theorem Written.spelling {before : Option Token} {offset : Nat} {pieces : List Written}
    {ending : List Char} (hlegible : Legible before pieces)
    (hending : Text.isAllBlank ending = true) :
    Spelling before offset (text ending pieces) (lexemes offset pieces) := by
  induction pieces generalizing before offset with
  | nil => exact .blank hending
  | cons first rest ih =>
    obtain ⟨hgap, hquote, hwritable, hapart, hrest⟩ := hlegible
    exact .token hgap hapart (Token.spells_write hquote hwritable) (ih hrest)

/-- Tokens written without blanks, in double quotes where they are quoted. -/
def Written.compact (tokens : List Token) : List Written :=
  tokens.map fun token => ⟨[], '\x22', token⟩

theorem Written.text_compact (tokens : List Token) :
    text [] (compact tokens) = tokens.flatMap (Token.write '\x22') := by
  induction tokens with
  | nil => rfl
  | cons token rest ih => simpa [compact, text] using ih

theorem Written.tokens_compact (tokens : List Token) (offset : Nat) :
    (lexemes offset (compact tokens)).map (·.token) = tokens := by
  induction tokens generalizing offset with
  | nil => rfl
  | cons token rest ih => simpa [compact, lexemes] using ih _

namespace Token

/-- Tokens that can be told apart without blanks are scanned off their text. -/
theorem scan_compact {tokens : List Token} (h : Written.Legible none (Written.compact tokens)) :
    ∃ lexemes, scan 0 (tokens.flatMap (write '\x22')) = .ok lexemes
      ∧ lexemes.map (·.token) = tokens := by
  refine ⟨_, ?_, Written.tokens_compact tokens 0⟩
  rw [← Written.text_compact]
  exact scan_of_spelling (Written.spelling h rfl)

/-- **Cutting a text into tokens undoes spelling them.**  What is written legibly is cut into just
the tokens it was written from, each at the offset where it was written.  What is accepted at all
is a spelling of what it is cut into, and every other text is rejected. -/
theorem scanText_spelling :
    (∀ (pieces : List Written) (ending : List Char), Written.Legible none pieces →
      Text.isAllBlank ending = true →
      scanText (String.ofList (Written.text ending pieces))
        = .ok (withEnd (Written.lexemes 0 pieces) (Written.text ending pieces).length))
    ∧ (∀ (source : String) (found : List (Option Token × Nat)), scanText source = .ok found
        ↔ ∃ lexemes, Spelling none 0 source.toList lexemes
            ∧ found = withEnd lexemes source.length)
    ∧ ∀ source : String, (¬ ∃ lexemes, Spelling none 0 source.toList lexemes) →
        ∃ defect, scanText source = .error defect := by
  refine ⟨?written, ?accepted, ?rejected⟩
  case written =>
    intro pieces ending hlegible hending
    have hscan : scan 0 (Written.text ending pieces) = .ok (Written.lexemes 0 pieces) :=
      scan_of_spelling (Written.spelling hlegible hending)
    simp [scanText, hscan, Except.map]
  case accepted =>
    intro source found
    simp only [← scan_eq_ok_iff]
    cases hscan : scan 0 source.toList with
    | error defect => simp [scanText, hscan, Except.map]
    | ok lexemes => simp [scanText, hscan, Except.map, eq_comm]
  case rejected =>
    intro source hnone
    cases hscan : scan 0 source.toList with
    | error defect => exact ⟨defect, by simp [scanText, hscan, Except.map]⟩
    | ok lexemes => exact absurd ⟨lexemes, scan_eq_ok_iff.1 hscan⟩ hnone

/-- A word, a minus sign apart from it, and a name between quotes. -/
def writtenFields : List Written :=
  [⟨[], '\x27', .word "id"⟩, ⟨[' '], '\x27', .minus⟩, ⟨[], '\x27', .quoted "o'clock"⟩]

/-- The quote inside quotes is escaped where it is written, and stands for itself where it is
read. -/
theorem scanText_writtenFields :
    scanText "id -'o\\'clock'" = .ok
      [(some (.word "id"), 0), (some .minus, 3), (some (.quoted "o'clock"), 4), (none, 14)] := by
  have htext : "id -'o\\'clock'" = String.ofList (Written.text [] writtenFields) := by
    decide +kernel
  have hfound : withEnd (Written.lexemes 0 writtenFields) (Written.text [] writtenFields).length
      = [(some (.word "id"), 0), (some .minus, 3), (some (.quoted "o'clock"), 4), (none, 14)] := by
    decide +kernel
  rw [htext, ← hfound]
  exact scanText_spelling.1 writtenFields [] (by decide +kernel) rfl

end Token

end FieldFilter
