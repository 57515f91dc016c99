import FieldFilter.Proofs.Meaning
import FieldFilter.Proofs.NormalForm

/-!
# The patterns of an expression compile

A pattern is compiled where it is read, and one that is refused ends the reading.  So whatever
becomes of the names afterwards, as nodes are merged and levels are completed, no pattern in the
tree of an expression is a refused one.

* `Node.Compiled` — no name of a tree is a refused pattern.
* `Node.Compiled.complete_insertAll` — merging two levels keeps this.
* `Sentence.compiled` — the nodes of a sentence have it if its tokens do.
* **`Expression.compiled_of_parse`** — the expression of a text has it.
-/

namespace FieldFilter

variable [Glob.Engine]

namespace Node

/-- No name of a tree is a refused pattern, at its top or below. -/
inductive Compiled : List Node → Prop where
  | level {nodes : List Node} (hnames : ∀ node ∈ nodes, node.name.refusal? = none)
    (hbelow : ∀ node ∈ nodes, Compiled node.children) : Compiled nodes

variable {nodes others : List Node}

theorem compiled_iff :
    Compiled nodes ↔ ∀ node ∈ nodes, node.name.refusal? = none ∧ Compiled node.children := by
  constructor
  · rintro ⟨hnames, hbelow⟩ node hnode
    exact ⟨hnames node hnode, hbelow node hnode⟩
  · intro h
    exact .level (fun node hnode => (h node hnode).1) fun node hnode => (h node hnode).2

theorem compiled_nil : Compiled [] :=
  compiled_iff.2 (List.forall_mem_nil _)

theorem compiled_cons {node : Node} :
    Compiled (node :: nodes)
      ↔ (node.name.refusal? = none ∧ Compiled node.children) ∧ Compiled nodes := by
  rw [compiled_iff, List.forall_mem_cons, ← compiled_iff]

theorem compiled_append : Compiled (nodes ++ others) ↔ Compiled nodes ∧ Compiled others := by
  rw [compiled_iff, List.forall_mem_append, ← compiled_iff, ← compiled_iff]

/-- The wildcard that completes a level is no pattern. -/
theorem Compiled.complete (h : Compiled nodes) : Compiled (complete nodes) := by
  rw [Node.complete]
  split
  · exact compiled_cons.2 ⟨⟨rfl, compiled_nil⟩, h⟩
  · exact h

/-- A node that is merged into a level brings no other names than its own, if that is true of the
nodes below it. -/
theorem Compiled.insert {node : Node} (h : Compiled nodes)
    (hnode : node.name.refusal? = none ∧ Compiled node.children)
    (hmerge : ∀ {level}, Compiled level →
      Compiled (Node.complete (insertAll node.children level))) :
    Compiled (insert node nodes) := by
  rcases insert_cases node nodes with ⟨hinsert, -⟩ | ⟨before, target, after, rfl, -, -, hinsert⟩
  · rw [hinsert]
    exact compiled_append.2 ⟨h, compiled_cons.2 ⟨hnode, compiled_nil⟩⟩
  · obtain ⟨hbefore, hafter⟩ := compiled_append.1 h
    obtain ⟨⟨htarget, hbelow⟩, hafter⟩ := compiled_cons.1 hafter
    rw [hinsert]
    exact compiled_append.2 ⟨hbefore, compiled_cons.2 ⟨⟨htarget, hmerge hbelow⟩, hafter⟩⟩

/-- **Merging levels brings no other names than theirs.**  The induction is on the level that is
merged in, as the levels below its nodes are merged in turn. -/
theorem Compiled.complete_insertAll (h : Compiled nodes) (hothers : Compiled others) :
    Compiled (Node.complete (insertAll nodes others)) := by
  induction h generalizing others with
  | @level nodes hnames hbelow ih =>
    refine Compiled.complete ?_
    induction nodes generalizing others with
    | nil => simpa [insertAll] using hothers
    | cons node rest ihRest =>
      rw [List.forall_mem_cons] at hnames hbelow ih
      rw [insertAll]
      exact ihRest hnames.2 hbelow.2 ih.2 (hothers.insert ⟨hnames.1, hbelow.1⟩ ih.1)

theorem Compiled.normal (h : Compiled nodes) : Compiled (Node.level nodes) :=
  h.complete_insertAll compiled_nil

/-- The nodes of a selector have the names of its segments. -/
theorem compiled_selectorNode {parents : List Name} {target : Node}
    (hparents : ∀ name ∈ parents, name.refusal? = none)
    (htarget : target.name.refusal? = none ∧ Compiled target.children) :
    (Selector.node parents target).name.refusal? = none
      ∧ Compiled (Selector.node parents target).children := by
  induction parents with
  | nil => exact htarget
  | cons name parents ih =>
    obtain ⟨hname, hparents⟩ := List.forall_mem_cons.1 hparents
    exact ⟨hname, (compiled_cons.2 ⟨ih hparents, compiled_nil⟩).normal⟩

end Node

/-! ## Trees of sentences -/

theorem Segment.refusal?_name {segment : Segment} (h : segment.token.compiles = true) :
    segment.name.refusal? = none := by
  cases segment with
  | word text => rwa [token, Token.compiles_word, Option.isNone_iff_eq_none] at h
  | quoted text _ => rfl

namespace Dotted

/-- No name of a selector is refused if none of its segments is. -/
theorem refusal?_extend {selector : Selector} {more : List Segment}
    (hnames : ∀ name ∈ selector.parents ++ [selector.target], name.refusal? = none)
    (hmore : ∀ segment ∈ more, segment.token.compiles = true) :
    ∀ name ∈ (extend selector more).parents ++ [(extend selector more).target],
      name.refusal? = none := by
  induction more generalizing selector with
  | nil => exact hnames
  | cons segment more ih =>
    obtain ⟨hsegment, hmore⟩ := List.forall_mem_cons.1 hmore
    refine ih (List.forall_mem_append.2 ⟨hnames, ?_⟩) hmore
    exact List.forall_mem_singleton.2 (Segment.refusal?_name hsegment)

theorem refusal?_selector {dotted : Dotted} (h : Token.AllCompile dotted.tokens) :
    (∀ name ∈ dotted.selector.parents, name.refusal? = none)
      ∧ dotted.selector.target.refusal? = none := by
  obtain ⟨hfirst, hmore⟩ := List.forall_mem_cons.1 (allCompile_tokens.1 h)
  have hnames := @refusal?_extend _ ⟨[], dotted.first.name⟩ dotted.more
    (List.forall_mem_singleton.2 (Segment.refusal?_name hfirst)) hmore
  rwa [List.forall_mem_append, List.forall_mem_singleton] at hnames

end Dotted

mutual

theorem Phrase.compiled (phrase : Phrase) (h : Token.AllCompile phrase.tokens) :
    Node.Compiled phrase.term.nodes := by
  rcases phrase with ⟨negated, group, block⟩
  obtain ⟨hgroup, hblock⟩ := Phrase.allCompile_tokens.1 h
  rw [Phrase.term, Term.nodes, Group.selectors, List.map_map, Node.compiled_iff,
    List.forall_mem_map]
  intro dotted hdotted
  obtain ⟨hparents, htarget⟩ := Dotted.refusal?_selector (hgroup dotted hdotted)
  exact Node.compiled_selectorNode hparents ⟨htarget, block.compiled hblock⟩

theorem Block.compiled (block : Block) (h : Token.AllCompile block.tokens) :
    Node.Compiled (Term.blockLevel block.terms?) := by
  cases block with
  | absent => exact Node.compiled_nil
  | empty => exact Node.compiled_nil.normal
  | of inner =>
    rw [Block.terms?, Term.blockLevel]
    exact (inner.compiled (Block.allCompile_of.1 h)).normal

/-- The nodes of a sentence have no other names than its segments, and the wildcard. -/
theorem Sentence.compiled (sentence : Sentence) (h : Token.AllCompile sentence.tokens) :
    Node.Compiled (Term.nodesAll sentence.terms) := by
  cases sentence with
  | last phrase =>
    rw [Sentence.tokens] at h
    rw [Sentence.terms, Term.nodesAll, Term.nodesAll, List.append_nil]
    exact phrase.compiled h
  | cons phrase bar rest =>
    obtain ⟨hphrase, hrest⟩ := Sentence.allCompile_cons.1 h
    rw [Sentence.terms, Term.nodesAll]
    exact Node.compiled_append.2 ⟨phrase.compiled hphrase, rest.compiled hrest⟩

end

/-- **The patterns of an expression compile**, at each level of its tree. -/
theorem Expression.compiled_of_parse {source : String} {expression : Expression}
    (h : parse source = .ok expression) : Node.Compiled expression.nodes := by
  cases hblank : Text.isAllBlank source.toList with
  | true =>
    rw [parse_of_isAllBlank hblank] at h
    cases h
    exact Node.compiled_nil
  | false =>
    have haccepted : (parse source).isOk = true := by
      rw [h]
      rfl
    obtain ⟨sentence, htokens, hcompiles⟩ := exists_sentence haccepted hblank
    have hnodes := nodes?_of_tokens htokens
    rw [nodes?, h, Sentence.nodes?] at hnodes
    split at hnodes
    · have hlevel : expression.nodes = Term.level sentence.greedy.terms := Option.some.inj hnodes
      rw [hlevel]
      exact (sentence.greedy.compiled (sentence.tokens_greedy ▸ hcompiles)).normal
    · cases hnodes

end FieldFilter
