import FieldFilter.Proofs.Complement
import FieldFilter.Proofs.Projection
import FieldFilter.Proofs.Spliced

/-!
# Taking fields away

A filter that only takes names away starts from everything: `-a,-b` asks for all fields but `a` and
`b`.  A path is excluded if it starts with one of the names, and included otherwise, however deep
it is, as the wildcard settles everything below the fields that it matches.

* `Expression.negation` — the filter that takes some names away, and what it is read as.
* `Schema.judge_negation` — the decision about a path, by its first name.
* **`Session.prune_negation`** — the names that are taken away are not written, apart from those of
  objects that are spliced in for another field.
* `Session.prune_spliced_ne` — these are written.
-/

namespace FieldFilter

/-! ## The filter text -/

/-- The node that takes a name away. -/
def Node.negation (name : String) : Node :=
  ⟨.exact name, true, false, false, []⟩

/-- The filter that takes names away. -/
def Expression.negation (names : List String) : Expression :=
  ⟨",".intercalate (names.map ("-" ++ ·)), Node.everything :: names.map Node.negation⟩

/-- A term that takes a name away. -/
def Phrase.negation (name : String) : Phrase :=
  .mk true ⟨false, ⟨.word name, []⟩, []⟩ .absent

/-- The terms that take names away, with commas between them. -/
def Sentence.negation (name : String) : List String → Sentence
  | [] => .last (Phrase.negation name)
  | next :: rest => .cons (Phrase.negation name) false (negation next rest)

namespace Sentence

/-- No bar goes on with a group, as there is none. -/
theorem greedy_negation (name : String) (rest : List String) :
    (negation name rest).greedy = negation name rest := by
  induction rest generalizing name with
  | nil => rfl
  | cons next rest ih =>
    rw [negation, greedy, ih, prepend, goesOn, Bool.false_and, Bool.false_and,
      if_neg Bool.false_ne_true]
    rfl

/-- Names take one level. -/
theorem height_negation (name : String) (rest : List String) :
    (negation name rest).height = 1 := by
  induction rest generalizing name with
  | nil => rfl
  | cons next rest ih =>
    rw [negation, height, ih]
    rfl

/-- The tokens of names that are taken away. -/
theorem tokens_negation_cons (name next : String) (rest : List String) :
    (negation name (next :: rest)).tokens
      = .minus :: .word name :: .comma :: (negation next rest).tokens := rfl

/-- Names that are taken away hold no pattern. -/
theorem allCompile_negation [Glob.Engine] {name : String} {rest : List String}
    (h : ∀ other ∈ name :: rest, Name.IsBare other) :
    Token.AllCompile (negation name rest).tokens := by
  induction rest generalizing name with
  | nil => exact Token.allCompile_cons.2 ⟨rfl, Token.allCompile_cons.2
      ⟨(h name (by simp)).compiles, Token.allCompile_nil⟩⟩
  | cons next rest ih =>
    obtain ⟨hname, hrest⟩ := List.forall_mem_cons.1 h
    rw [tokens_negation_cons, Token.allCompile_cons, Token.allCompile_cons, Token.allCompile_cons]
    exact ⟨rfl, hname.compiles, rfl, ih hrest⟩

/-- The nodes of the terms are those of their names. -/
theorem nodesAll_negation {name : String} {rest : List String}
    (h : ∀ other ∈ name :: rest, Name.IsBare other) :
    Term.nodesAll (negation name rest).terms = (name :: rest).map Node.negation := by
  have hphrase : ∀ {name : String}, Name.IsBare name →
      Term.nodes (Phrase.negation name).term = [Node.negation name] := by
    intro name hname
    have hword := Name.ofWord_of_isBare hname
    simp [Phrase.negation, Phrase.term, Term.nodes, Group.selectors, Group.dotteds,
      Dotted.selector, Dotted.extend, Segment.name, hword, Selector.node, Node.negation,
      Block.terms?, Term.isEmptyBlock, Term.blockLevel]
  induction rest generalizing name with
  | nil => simpa [negation, terms, Term.nodesAll] using hphrase (h name (by simp))
  | cons next rest ih =>
    obtain ⟨hname, hrest⟩ := List.forall_mem_cons.1 h
    rw [negation, terms, Term.nodesAll, hphrase hname, ih hrest, List.map_cons]
    rfl

/-- Names that are taken away can be written without blanks. -/
theorem legible_negation {name : String} {rest : List String}
    (h : ∀ other ∈ name :: rest, Name.IsBare other) {before : Option Token}
    (hbefore : before.any (·.sticks .minus) = false) :
    Written.Legible before (Written.compact (negation name rest).tokens) := by
  have hminus : before.any (·.sticks .minus) = true → ([] : List Char) ≠ [] := by
    intro hsticks
    simp [hbefore] at hsticks
  induction rest generalizing name before with
  | nil => exact ⟨rfl, rfl, trivial, hminus, rfl, rfl, (h name (by simp)).1, nofun, trivial⟩
  | cons next rest ih =>
    obtain ⟨hname, hrest⟩ := List.forall_mem_cons.1 h
    rw [tokens_negation_cons]
    refine ⟨rfl, rfl, trivial, hminus, rfl, rfl, hname.1, nofun, rfl, rfl, trivial, nofun, ?_⟩
    exact ih hrest rfl nofun

/-- The text of names that are taken away. -/
theorem write_negation (name : String) (rest : List String) :
    (negation name rest).tokens.flatMap (Token.write '\x22')
      = (Expression.negation (name :: rest)).source.toList := by
  induction rest generalizing name with
  | nil =>
    have htokens : (negation name []).tokens = [.minus, .word name] := rfl
    simp [htokens, Token.write, Expression.negation]
  | cons next rest ih =>
    have hsource : (Expression.negation (name :: next :: rest)).source
        = "-" ++ name ++ "," ++ (Expression.negation (next :: rest)).source := by
      simp [Expression.negation, String.append_assoc]
    rw [tokens_negation_cons, hsource, String.toList_append, ← ih next]
    simp [Token.write]

end Sentence

namespace Expression

/-- **A filter that takes names away is read as such.** -/
theorem parse_negation [Glob.Engine] {names : List String} (hne : names ≠ [])
    (h : ∀ name ∈ names, Name.IsBare name) :
    Expression.parse (negation names).source = .ok (negation names) := by
  cases names with
  | nil => exact absurd rfl hne
  | cons name rest =>
    obtain ⟨lexemes, hscan, hlexemes⟩ := Token.scan_compact (Sentence.legible_negation h rfl)
    rw [Sentence.write_negation] at hscan
    have htokens : tokens (negation (name :: rest)).source
        = .ok (Sentence.negation name rest).tokens := by
      rw [tokens, hscan]
      exact congrArg Except.ok hlexemes
    -- nothing is merged, as negated nodes never are
    have hapart : Node.Apart ([] ++ (name :: rest).map Node.negation) :=
      List.pairwise_map.2
        (List.pairwise_of_forall fun _ _ hwanted => absurd hwanted.symm Bool.false_ne_true)
    refine parse_of_nodes? ?_
    rw [nodes?_of_tokens htokens, Sentence.nodes?, Sentence.greedy_negation,
      Sentence.height_negation, if_pos ⟨Sentence.allCompile_negation h, by decide⟩, Term.level,
      Sentence.nodesAll_negation h, Node.level, Node.insertAll_of_apart hapart]
    simp [Node.complete, Node.negation]

end Expression

/-! ## The decision -/

/-- **A path is excluded if it starts with a name that is taken away**, and included otherwise. -/
theorem Schema.judge_negation [Glob.Engine] {schema : Schema} {policy : ViewPolicy}
    {names : List String} (hne : names ≠ []) (h : ∀ name ∈ names, Name.IsBare name)
    (first : Element) (rest : Path) :
    schema.judge policy (Expression.negation names).source (first :: rest) = .ok true
      ↔ first.name ∉ names := by
  have htakes : Node.OnlyTakes (names.map Node.negation) :=
    List.forall_mem_map.2 fun _ _ => rfl
  obtain ⟨included, hfollow, hiff⟩ :=
    Matching.follow_onlyTakes schema.lookup policy htakes [] first rest
  have hincluded : (Expression.negation names).includes schema.lookup policy (first :: rest)
      = .ok included := hfollow
  rw [judge_eq_ok_iff (Expression.parse_negation hne h), hincluded, Except.ok.injEq, hiff,
    List.forall_mem_map]
  simpa [Node.negation, Name.strength] using List.forall_mem_ne'

/-! ## What is written -/

/-- A name comes from an object that is spliced in for a field of a type, with everything below the
field included.  The field is none of the names given. -/
def Schema.Splices (schema : Schema) (names : List String) (type : String)
    (members : Json.Members) (name : String) : Prop :=
  ∃ info field value inner below, schema.find? type = some info ∧ field ∈ info.decl.visible
    ∧ field.name ∉ names ∧ members.lookup field.name = some value
    ∧ field.spliced? value = some (inner, below)
    ∧ schema.Writes (fun _ => True) inner [] below name

/-- A name that is taken away comes from an object that is spliced in, or not at all. -/
theorem Schema.writes_negation [Glob.Engine] {schema : Schema} {policy : ViewPolicy}
    {names : List String} (hne : names ≠ []) (hbare : ∀ name ∈ names, Name.IsBare name)
    {type : String} {members : Json.Members} {name : String} (hname : name ∈ names) :
    schema.Writes (schema.judge policy (Expression.negation names).source · = .ok true) type []
        members name
      ↔ schema.Splices names type members name := by
  have hjudge := @judge_negation _ schema policy names hne hbare
  constructor
  · intro h
    cases h with
    | declared _ _ _ _ hincluded => exact absurd hname ((hjudge _ []).1 hincluded)
    | undeclared _ _ _ hincluded => exact absurd hname ((hjudge _ []).1 hincluded)
    | spliced hinfo hfield hvalue hspliced hbelow =>
      obtain ⟨path, hincluded⟩ := hbelow.exists_included
      exact ⟨_, _, _, _, _, hinfo, hfield, (hjudge _ path).1 hincluded, hvalue, hspliced,
        (hbelow.imp fun _ _ => True.intro).rebase []⟩
  · rintro ⟨info, field, value, inner, below, hinfo, hfield, hother, hvalue, hspliced, hbelow⟩
    exact .spliced hinfo hfield hvalue hspliced
      ((hbelow.rebase _).imp fun path _ => (hjudge _ path).2 hother)

/-- **Names that are taken away are written only where they are spliced in.**  Without a cache of
decisions and without a placeholder, an object of a described type is written without the names
that the filter takes away, be they declared or not.  The exception are the members of an object
that is spliced in for an unwrapped field: the filter reaches the field before it reaches them, so
unless the field is taken away itself, they are included with everything below the field. -/
theorem Session.prune_negation [Glob.Engine] {settings : Settings}
    (hdisabled : settings.decisionCache.isDisabled = true) {types : List TypeDecl}
    {names : List String} (hne : names ≠ []) (hbare : ∀ name ∈ names, Name.IsBare name)
    {contextRoot : Option Owner} {type : String} {members : Json.Members} {out : Json}
    (h : ((ofSettings settings types).prune
      (.ofFilter (",".intercalate (names.map ("-" ++ ·))) contextRoot) none (.described type)
      (.object members)).1 = .ok out) :
    ∃ outs, out = .object outs ∧ ∀ name ∈ names, ((outs.lookup name).isSome = true
      ↔ (ofSettings settings types).registry.schema.Splices names type members name) := by
  rw [prune_of_isDisabled (truthful_ofSettings settings types) hdisabled
    (BoundFilter.truthful_ofFilter _ contextRoot)] at h
  obtain ⟨outs, rfl, hwritten⟩ := Schema.exists_of_write_object h
  refine ⟨outs, rfl, fun name hname => ?_⟩
  have hnames := Guide.isSome_writeDescribed rfl (fun _ _ => Schema.find?_of_describe) members _ _
    _ _ hwritten name
  rw [hnames, ← Schema.writes_negation hne hbare hname]
  exact or_iff_right (by simp)

/-- An order has a note, and an audit whose members stand among its own. -/
def auditedTypes : List TypeDecl :=
  [⟨"Order", [⟨"id", [], false, false, .untyped⟩, ⟨"note", [], false, false, .untyped⟩,
      ⟨"audit", [], false, true, .described "Audit"⟩]⟩,
    ⟨"Audit", [⟨"by", [], false, false, .untyped⟩]⟩]

/-- The members of an order. -/
def auditedOrder : Json.Members :=
  [("audit", .object [("by", .string "x")]), ("id", .number 1 0), ("note", .string "n")]

/-- The order under a filter that takes away its note and the author of its audit. -/
def prunedOrder : Except Fault Json :=
  ((Session.ofSettings { Settings.default with decisionCache := .ofSize 0 } auditedTypes).prune
    (.ofFilter "-by,-note" none) none (.described "Order") (.object auditedOrder)).1

/-- The note is gone, and the author is there just because it is spliced in. -/
theorem Session.prune_auditedOrder :
    prunedOrder = .ok (.object [("by", .string "x"), ("id", .number 1 0)])
      ∧ ∃ outs, Json.object [("by", .string "x"), ("id", .number 1 0)] = .object outs
        ∧ ∀ name ∈ ["by", "note"], ((outs.lookup name).isSome = true
          ↔ ((Schema.empty true).registerAll auditedTypes).Splices ["by", "note"] "Order"
              auditedOrder name) := by
  have hpruned : prunedOrder = .ok (.object [("by", .string "x"), ("id", .number 1 0)]) := by
    decide +kernel
  have hbare : ∀ name ∈ ["by", "note"], Name.IsBare name := by decide +kernel
  exact ⟨hpruned, Session.prune_negation rfl (List.cons_ne_nil _ _) hbare hpruned⟩

/-- **A name that is taken away can be written:** the audit is included for its own name, and its
author with it. -/
theorem Session.prune_spliced_ne :
    ¬ ∀ outs, prunedOrder = .ok (.object outs) →
        ∀ name ∈ ["by", "note"], outs.lookup name = none := by
  intro hgone
  have hpruned : prunedOrder = .ok (.object [("by", .string "x"), ("id", .number 1 0)]) := by
    decide +kernel
  have hauthor := hgone _ hpruned "by" (by decide)
  simp at hauthor

end FieldFilter
