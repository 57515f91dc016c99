import FieldFilter.Proofs.Meaning
import FieldFilter.Proofs.Memoryless

/-!
# Blanks around a filter

Blanks before and after a filter text do not change its tokens.  With them the text is accepted just
if it is without them, and stands for the same nodes, so what is decided about paths and what a walk
leaves of values is the same.

A pass under the filter that asks for everything is no walk: the value is handed over as it is,
hidden fields and all.  Whether a filter is that one is asked in two ways.  A parsed expression
answers by its text without the blanks around it; a bound filter and a source answer by the text as
it stands.  So blanks around the wildcard make a walk of what was none, and that shows wherever a
walk under a filter that includes everything takes something away.

* `Expression.tokens_of_pads`, **`Expression.nodes?_of_pads`** — they do not change what it stands
  for.
* `Simulation.outcomes`, **`Schema.prune_of_pads`** — nor what a walk leaves of a value.
* **`Session.pruneFrom_of_pads`** — where they change what a source leaves of a value.
* `Session.pruneFrom_padded_ne` — a hidden field that is seen without a blank and not with one.
-/

namespace FieldFilter

/-! ## Tokens and nodes -/

/-- Every spelling of a token has a last character, and that is no blank. -/
theorem Token.Spells.exists_concat {token : Token} {written : List Char} (h : token.Spells written) :
    ∃ more c, written = more ++ [c] ∧ Text.isBlank c = false := by
  cases h with
  | word hword =>
    obtain ⟨c, rest, rfl, hstarts, hrest⟩ := hword
    rcases List.eq_nil_or_concat rest with rfl | ⟨more, d, rfl⟩
    · exact ⟨[], c, rfl, (startsWord_apart hstarts).1⟩
    · refine ⟨c :: more, d, by simp, Bool.eq_false_iff.2 fun hblank => ?_⟩
      have hcontinues := hrest d (by simp)
      rw [continuesWord_of_isBlank hblank] at hcontinues
      cases hcontinues
  | quoted hquote _ => exact ⟨_, _, rfl, (isQuote_apart hquote).1⟩
  | mark hmark => exact ⟨[], _, rfl, (ofMark?_apart hmark).1⟩

/-- A text spells what it spells with blanks after it: no token ends with a blank. -/
theorem Spelling.of_append {before : Option Token} {offset : Nat} {whole text ending : List Char}
    {lexemes : List Lexeme} (h : Spelling before offset whole lexemes)
    (hending : Text.isAllBlank ending = true) (hwhole : whole = text ++ ending) :
    Spelling before offset text lexemes := by
  induction h generalizing text with
  | blank hgap =>
    rw [hwhole, Text.isAllBlank, List.all_append, Bool.and_eq_true] at hgap
    exact .blank hgap.1
  | @token before offset gap written rest token lexemes hgap hapart hwritten hrest ih =>
    rcases List.append_eq_append_iff.1 hwhole with ⟨between, rfl, rfl⟩ | ⟨between, hsplit, rfl⟩
    · exact .token hgap hapart hwritten (ih rfl)
    · obtain ⟨more, c, rfl, hc⟩ := hwritten.exists_concat
      rcases List.eq_nil_or_concat between with rfl | ⟨blanks, d, rfl⟩
      · rw [List.append_nil] at hsplit
        have hdone := Spelling.token hgap hapart hwritten (@ih [] rfl)
        rwa [List.append_nil, hsplit] at hdone
      · rw [← List.append_assoc, List.concat_eq_append, ← List.append_assoc] at hsplit
        obtain ⟨-, hlast⟩ := List.append_inj' hsplit rfl
        obtain rfl := List.singleton_inj.1 hlast
        have hblank : Text.isBlank c = true := List.all_eq_true.1 hending c (by simp)
        exact absurd (hc.symm.trans hblank) Bool.false_ne_true

namespace Expression

variable {source padded : String}

/-- Blanks around a text do not change how it is cut into tokens. -/
theorem cuts_iff_of_pads {text padded : List Char} (h : Text.Pads text padded)
    (tokens : List Token) : Cuts padded tokens ↔ Cuts text tokens := by
  obtain ⟨gap, ending, hgap, hending, rfl⟩ := h
  have hskip : ∀ {offset : Nat} {lexemes : List Lexeme},
      Spelling none offset (gap ++ text ++ ending) lexemes
        ↔ Spelling none (offset + gap.length) (text ++ ending) lexemes := by
    intro offset lexemes
    rw [List.append_assoc, ← Token.scan_eq_ok_iff, ← Token.scan_eq_ok_iff, Token.scan_gap hgap]
  constructor
  · intro hcuts offset
    obtain ⟨lexemes, hlexemes, rfl⟩ := hcuts 0
    exact ((hskip.1 hlexemes).of_append hending rfl).exists_shift offset
  · intro hcuts offset
    obtain ⟨lexemes, hlexemes, rfl⟩ := hcuts (offset + gap.length)
    have happend : Spelling none (offset + gap.length) (text ++ ending) (lexemes ++ []) :=
      hlexemes.append fun _ => .blank hending
    rw [List.append_nil] at happend
    exact ⟨lexemes, hskip.2 happend, rfl⟩

/-- Blanks around a text do not change its tokens. -/
theorem tokens_of_pads (h : Text.Pads source.toList padded.toList) (tokens : List Token) :
    Expression.tokens padded = .ok tokens ↔ Expression.tokens source = .ok tokens := by
  rw [tokens_eq_ok_iff, tokens_eq_ok_iff, cuts_iff_of_pads h]

/-- What stands for nodes has tokens, and a text with the same tokens stands for the same nodes. -/
theorem nodes?_of_tokens_imp [Glob.Engine] {other : String}
    (h : ∀ tokens, Expression.tokens source = .ok tokens → Expression.tokens other = .ok tokens)
    {nodes : List Node} (hnodes : nodes? source = some nodes) : nodes? other = some nodes := by
  cases hblank : Text.isAllBlank source.toList with
  | true =>
    have hnone := parse_of_isAllBlank hblank
    have hother : Expression.tokens other = .ok [] :=
      h [] (tokens_eq_ok_iff.2 fun _ => ⟨[], .blank hblank, rfl⟩)
    obtain ⟨lexemes, hscan, hlexemes⟩ := exists_of_tokens hother
    obtain rfl := List.map_eq_nil_iff.1 hlexemes
    rw [nodes?, hnone] at hnodes
    rw [nodes?_eq, terms, hscan]
    exact hnodes
  | false =>
    have haccepted : (parse source).isOk = true := by
      rw [← isSome_nodes?, hnodes]
      rfl
    obtain ⟨sentence, hsentence, -⟩ := exists_sentence haccepted hblank
    rwa [nodes?_of_tokens (h _ hsentence), ← nodes?_of_tokens hsentence]

/-- **Blanks around a text do not change the nodes it stands for**, nor whether it is accepted. -/
theorem nodes?_of_pads [Glob.Engine] (h : Text.Pads source.toList padded.toList) :
    nodes? padded = nodes? source :=
  Option.ext fun _ => ⟨nodes?_of_tokens_imp fun tokens => (tokens_of_pads h tokens).1,
    nodes?_of_tokens_imp fun tokens => (tokens_of_pads h tokens).2⟩

/-- An expression keeps its text. -/
theorem source_of_parse [Glob.Engine] {expression : Expression}
    (h : parse source = .ok expression) : expression.source = source := by
  have hnodes : nodes? source = some expression.nodes := by
    rw [nodes?, h]
    rfl
  rw [← Except.ok.inj ((parse_of_nodes? hnodes).symm.trans h)]

/-- An expression asks for everything if its text does with blanks around it. -/
theorem isEverything_iff (expression : Expression) :
    expression.isEverything = true
      ↔ Text.Pads everything.toList expression.source.toList := by
  rw [isEverything, beq_iff_eq]
  constructor
  · intro htrim
    rw [← htrim]
    exact Text.pads_trim _
  · intro h
    rw [h.trim_eq]
    rfl

end Expression

/-! ## Decisions and walks -/

/-- Computations that both fail, or give the same. -/
def Simulation.outcomes (ε ε' : Type) : Simulation (Except ε) (Except ε') where
  Rel computation other := computation.toOption = other.toOption
  pure _ := rfl
  bind := by
    rintro α β (fault | a) (fault' | a') next next' h hnext
    · rfl
    · cases h
    · cases h
    · obtain rfl := Option.some.inj h
      exact hnext a

namespace Schema

variable [Glob.Engine] {schema : Schema} {policy : ViewPolicy} {filter padded : String}

/-- Texts that stand for the same nodes decide alike about every path. -/
theorem judge_of_nodes? (h : Expression.nodes? padded = Expression.nodes? filter) (path : Path) :
    (schema.judge policy padded path).toOption = (schema.judge policy filter path).toOption := by
  cases hfilter : Expression.nodes? filter with
  | some nodes =>
    rw [judge_of_parse (Expression.parse_of_nodes? (h.trans hfilter)),
      judge_of_parse (Expression.parse_of_nodes? hfilter)]
    rfl
  | none =>
    have hmalformed : ∀ text : String, Expression.nodes? text = none → path ≠ [] →
        (schema.judge policy text path).toOption = none := by
      intro text htext hpath
      cases hparse : Expression.parse text with
      | ok expression =>
        rw [Expression.nodes?, hparse] at htext
        cases htext
      | error fault =>
        rw [judge_of_malformed hparse hpath]
        rfl
    cases path with
    | nil => rfl
    | cons element rest =>
      rw [hmalformed _ (h.trans hfilter) (List.cons_ne_nil _ _),
        hmalformed _ hfilter (List.cons_ne_nil _ _)]

/-- **Blanks around a filter do not change what a walk leaves of a value**, nor whether it
fails. -/
theorem prune_of_pads (h : Text.Pads filter.toList padded.toList) (placeholder : Option Json)
    (root : Owner) (value : Json) :
    (value.prune (schema.guide policy padded placeholder) root).toOption
      = (value.prune (schema.guide policy filter placeholder) root).toOption := by
  have hguides : (Simulation.outcomes Fault Fault).Guides (.ofRegion (.all schema))
      (schema.guide policy padded placeholder) (schema.guide policy filter placeholder) := by
    refine ⟨fun type _ _ _ _ write write' hwrite => ?describe, fun _ path _ _ _ => ?includes, rfl⟩
    case describe =>
      cases hinfo : schema.find? type with
      | none =>
        simp only [guide, describe, hinfo]
        rfl
      | some info =>
        simp only [guide, describe, hinfo]
        exact hwrite info hinfo
    case includes => exact judge_of_nodes? (Expression.nodes?_of_pads h) path
  have hpair : (Pairing.ofRegion (.all schema)).Rel (Json.rootType root) [] value value :=
    ⟨rfl, True.intro⟩
  exact Simulation.prune hguides hpair

end Schema

/-! ## Sources -/

/-- A source of one fixed text hands over the value as it is if the text asks for everything, and
otherwise there is a walk. -/
theorem Session.pruneFrom_fixed [Glob.Engine] {settings : Settings}
    (hdisabled : settings.decisionCache.isDisabled = true) (types : List TypeDecl) (filter : String)
    (placeholder : Option Json) (root : Owner) (value : Json) :
    ((ofSettings settings types).pruneFrom (.fixed (some filter)) () placeholder root value).1
      = if filter = Expression.everything then .ok value
        else value.prune ((ofSettings settings types).registry.schema.guide settings.policy filter
          placeholder) root := by
  have hwalk := prune_of_isDisabled (truthful_ofSettings settings types) hdisabled
    (BoundFilter.truthful_ofFilter filter (some root)) placeholder root value
  by_cases hfilter : filter = Expression.everything
  · rw [if_pos hfilter, pruneFrom, if_neg]
    simp [FilterSource.fixed, FilterSource.isActive, hfilter]
  · rw [if_neg hfilter, pruneFrom, if_pos]
    · exact hwalk
    · simp [FilterSource.fixed, FilterSource.isActive, hfilter]

/-- **What blanks around a filter change.**  A bound filter asks for everything with blanks just if
it does without, unless blanks are added to the wildcard; it agrees with its expression unless it is
the wildcard with blanks around it.  Without a cache of decisions, a source leaves the same of a
value, or fails both times, unless blanks are added to the wildcard and a walk that includes
everything does not give the value back as it was. -/
theorem Session.pruneFrom_of_pads [Glob.Engine] {settings : Settings}
    (hdisabled : settings.decisionCache.isDisabled = true) (types : List TypeDecl)
    {filter padded : String} (hpads : Text.Pads filter.toList padded.toList)
    (contextRoot : Option Owner) :
    ((BoundFilter.ofFilter padded contextRoot).isEverything
          = (BoundFilter.ofFilter filter contextRoot).isEverything
        ↔ (filter = Expression.everything → padded = Expression.everything))
      ∧ (∀ expression, Expression.parse filter = .ok expression →
          ((BoundFilter.ofFilter filter contextRoot).isEverything = expression.isEverything
            ↔ (Text.Pads Expression.everything.toList filter.toList →
                filter = Expression.everything)))
      ∧ ∀ (placeholder : Option Json) (root : Owner) (value : Json),
          ((ofSettings settings types).pruneFrom (.fixed (some padded)) () placeholder root
                value).1.toOption
              = ((ofSettings settings types).pruneFrom (.fixed (some filter)) () placeholder root
                value).1.toOption
            ↔ (filter = Expression.everything → padded = Expression.everything)
              ∨ value.prune ((ofSettings settings types).registry.schema.guide settings.policy
                  Expression.everything placeholder) root = .ok value := by
  have hsame : padded = Expression.everything → filter = Expression.everything := by
    rintro rfl
    exact String.toList_inj.1 (hpads.eq_of_trim_eq rfl).symm
  refine ⟨?bound, fun expression hparse => ?expression, fun placeholder root value => ?outcome⟩
  case bound =>
    rw [BoundFilter.isEverything, BoundFilter.isEverything, Bool.eq_iff_iff, beq_iff_eq, beq_iff_eq]
    exact ⟨fun h => h.2, fun h => ⟨hsame, h⟩⟩
  case expression =>
    have hpads' : filter = Expression.everything →
        Text.Pads Expression.everything.toList filter.toList := by
      rintro rfl
      exact ⟨[], [], rfl, rfl, rfl⟩
    rw [Bool.eq_iff_iff, expression.isEverything_iff, Expression.source_of_parse hparse,
      BoundFilter.isEverything, beq_iff_eq]
    exact ⟨fun h => h.2, fun h => ⟨hpads', h⟩⟩
  case outcome =>
    have hwalks := @Schema.prune_of_pads _ (ofSettings settings types).registry.schema
      settings.policy filter padded hpads placeholder root value
    rw [pruneFrom_fixed hdisabled, pruneFrom_fixed hdisabled]
    by_cases hpadded : padded = Expression.everything
    · rw [if_pos hpadded, if_pos (hsame hpadded)]
      exact iff_of_true rfl (Or.inl fun _ => hpadded)
    · rw [if_neg hpadded]
      by_cases hfilter : filter = Expression.everything
      · rw [if_pos hfilter, hwalks, hfilter, or_iff_right fun h => hpadded (h rfl)]
        exact Term.toOption_eq_some
      · rw [if_neg hfilter]
        exact iff_of_true hwalks (Or.inl fun h => absurd h hfilter)

/-- An order has a note that is hidden. -/
def notedOrder : List TypeDecl :=
  [⟨"Order", [⟨"id", [], false, false, .untyped⟩, ⟨"note", [], true, false, .untyped⟩]⟩]

/-- Without a blank, the wildcard hands over an order with its note, and with one it does not. -/
theorem Session.pruneFrom_padded_ne :
    let session := ofSettings { Settings.default with decisionCache := .ofSize 0 } notedOrder
    let order := Json.object [("id", .number 1 0), ("note", .string "n")]
    (BoundFilter.ofFilter "**" none).isEverything = true
      ∧ (BoundFilter.ofFilter " **" none).isEverything = false
      ∧ (Expression.parse " **").map Expression.isEverything = .ok true
      ∧ (session.pruneFrom (.fixed (some "**")) () none (.described "Order") order).1 = .ok order
      ∧ (session.pruneFrom (.fixed (some " **")) () none (.described "Order") order).1
          = .ok (.object [("id", .number 1 0)]) := by
  decide +kernel

/-- Blanks do not matter around the name of a field.  Around the wildcard they do not matter either
for an order without a note, as a walk leaves it as it is. -/
theorem Session.pruneFrom_paddedField :
    let settings : Settings := { Settings.default with decisionCache := .ofSize 0 }
    let session := ofSettings settings notedOrder
    let order := Json.object [("id", .number 1 0)]
    (session.pruneFrom (.fixed (some " id\n")) () none (.described "Order") order).1.toOption
        = (session.pruneFrom (.fixed (some "id")) () none (.described "Order") order).1.toOption
      ∧ (session.pruneFrom (.fixed (some " **")) () none (.described "Order") order).1.toOption
        = (session.pruneFrom (.fixed (some "**")) () none (.described "Order") order).1.toOption := by
  intro settings session order
  have hfield : Text.Pads "id".toList " id\n".toList := ⟨[' '], ['\n'], rfl, rfl, rfl⟩
  have hwildcard : Text.Pads "**".toList " **".toList := ⟨[' '], [], rfl, rfl, rfl⟩
  have hdisabled : settings.decisionCache.isDisabled = true := rfl
  obtain ⟨-, -, hfields⟩ := Session.pruneFrom_of_pads hdisabled notedOrder hfield none
  obtain ⟨-, -, hwildcards⟩ := Session.pruneFrom_of_pads hdisabled notedOrder hwildcard none
  exact ⟨(hfields none (.described "Order") order).2 (Or.inl (by decide +kernel)),
    (hwildcards none (.described "Order") order).2 (Or.inr (by decide +kernel))⟩

end FieldFilter
