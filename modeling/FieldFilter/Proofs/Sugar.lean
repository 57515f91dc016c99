import FieldFilter.Proofs.Meaning

/-!
# Groups and dots say nothing new

A group of selectors is short for a list of terms, one for each selector, and a dotted selector is
short for a term with a block.  The sign and the block of a group belong to each of its selectors,
and those of a dotted selector to its last segment.

**What has to agree.**  Two sentences say the same if their patterns compile under the same
conditions, and if their greedy readings take as many levels and have the same nodes, as they are
written.  The levels matter because a group puts its block below
the longest of its selectors: for the whole group this is as deep as the deepest block of the list.

**Where the terms stand** does not matter, as long as commas and braces keep them apart from their
surroundings.  Next to a bar a group would go on.

* `Place`, `Place.fill` — a place for terms, and a sentence with terms at that place.
* `Sentence.Agrees`, `Sentence.Agrees.fill` — sentences that say the same, at every place.
* `Sentence.agrees_listed`, `Sentence.agrees_nested` — groups and dots.
* **`Expression.nodes?_sugar`** — what this means for filter texts.
-/

namespace FieldFilter

/-! ## Places -/

/-- A place for terms: a whole text, a place in a list with commas, or the block of a term. -/
inductive Place where
  | whole
  | after (others : Sentence) (place : Place)
  | before (place : Place) (others : Sentence)
  | within (negated : Bool) (group : Group) (place : Place)

/-- The sentence with certain terms at a place. -/
def Place.fill : Place → Sentence → Sentence
  | whole, sentence => sentence
  | after others place, sentence => others.join (place.fill sentence)
  | before place others, sentence => (place.fill sentence).join others
  | within negated group place, sentence => .last (.mk negated group (.of (place.fill sentence)))

namespace Sentence

section Agrees

variable [Glob.Engine]

/-- Two sentences take as many levels in their greedy readings, and have the same nodes and the same
patterns. -/
structure Agrees (sentence other : Sentence) : Prop where
  compiles : Token.AllCompile sentence.tokens ↔ Token.AllCompile other.tokens
  height : sentence.greedy.height = other.greedy.height
  nodes : Term.nodesAll sentence.greedy.terms = Term.nodesAll other.greedy.terms

theorem Agrees.nodes?_eq {sentence other : Sentence} (h : sentence.Agrees other) :
    sentence.nodes? = other.nodes? := by
  simp only [nodes?, h.compiles, h.height, Term.level, h.nodes]

theorem Agrees.join {sentence other rest others : Sentence} (h : sentence.Agrees other)
    (hrest : rest.Agrees others) : (sentence.join rest).Agrees (other.join others) where
  compiles := by
    rw [allCompile_join, allCompile_join, h.compiles, hrest.compiles]
  height := by
    simp only [greedy_join, height_join, h.height, hrest.height]
  nodes := by
    simp only [greedy_join, terms_join, Term.nodesAll_append, h.nodes, hrest.nodes]

theorem agrees_refl (sentence : Sentence) : sentence.Agrees sentence :=
  ⟨Iff.rfl, rfl, rfl⟩

/-- Blocks that say the same make terms that say the same. -/
theorem Agrees.within {sentence other : Sentence} (h : sentence.Agrees other) (negated : Bool)
    (group : Group) :
    (last (.mk negated group (.of sentence))).Agrees (last (.mk negated group (.of other))) where
  compiles := by
    rw [tokens, tokens, Phrase.allCompile_tokens, Phrase.allCompile_tokens, Block.allCompile_of,
      Block.allCompile_of, h.compiles]
  height := by
    simp only [greedy, Phrase.greedy, Block.greedy, Sentence.height, Phrase.height, Block.height,
      h.height]
  nodes := by
    simp only [greedy, Phrase.greedy, Block.greedy, terms, Phrase.term, Block.terms?,
      Term.nodesAll, Term.nodes, Term.blockLevel, isEmptyBlock_terms, h.nodes, Option.isSome_some]

/-- **What says the same does so at every place.** -/
theorem Agrees.fill {sentence other : Sentence} (h : sentence.Agrees other) (place : Place) :
    (place.fill sentence).Agrees (place.fill other) := by
  induction place with
  | whole => exact h
  | after others place ih => exact (agrees_refl others).join ih
  | before place others ih => exact ih.join (agrees_refl others)
  | within negated group place ih => exact ih.within negated group

end Agrees

/-! ## Groups -/

/-- A list of terms, one for each selector, all with the same sign and block. -/
def listed (negated : Bool) (first : Dotted) (more : List Dotted) (block : Block) : Sentence :=
  commas (.single negated block first) (more.map (Phrase.single negated block))

section Group

variable (negated inParens : Bool) (first : Dotted) (more : List Dotted) (block : Block)

/-- The patterns of a block stand once for each term of the list. -/
theorem allCompile_listed [Glob.Engine] :
    Token.AllCompile (listed negated first more block).tokens
      ↔ Token.AllCompile (Phrase.mk negated ⟨inParens, first, more⟩ block).tokens := by
  rw [listed, allCompile_commas, ← List.map_cons, List.forall_mem_map, Phrase.allCompile_tokens,
    Group.dotteds]
  simp only [Phrase.allCompile_single]
  exact ⟨fun h => ⟨fun dotted hdotted => (h dotted hdotted).1, (h first List.mem_cons_self).2⟩,
    fun h dotted hdotted => ⟨h.1 dotted hdotted, h.2⟩⟩

theorem greedy_listed :
    (listed negated first more block).greedy = listed negated first more block.greedy := by
  rw [listed, greedy_commas, List.map_map]
  rfl

/-- The deepest block of a list lies as deep as the block of the group. -/
theorem height_listed :
    (listed negated first more block).height
      = (Phrase.mk negated ⟨inParens, first, more⟩ block).height := by
  have hbounds : ∀ bound, (listed negated first more block).height ≤ bound
      ↔ (Phrase.mk negated ⟨inParens, first, more⟩ block).height ≤ bound := by
    intro bound
    rw [listed, height_commas_le, ← List.map_cons, List.forall_mem_map, Phrase.height,
      Nat.add_comm, Group.add_longest_le]
    simp only [Phrase.height_single, Nat.add_comm _ block.height]
    rfl
  exact Nat.le_antisymm ((hbounds _).2 (Nat.le_refl _)) ((hbounds _).1 (Nat.le_refl _))

theorem nodes_listed :
    Term.nodesAll (listed negated first more block).terms
      = (Phrase.mk negated ⟨inParens, first, more⟩ block).term.nodes := by
  rw [listed, terms_commas, ← List.map_cons, List.map_map, Term.nodesAll_eq_flatMap,
    List.flatMap_map, Phrase.term, Term.nodes, Group.selectors, List.map_map, List.map_eq_flatMap]
  exact List.flatMap_congr fun dotted _ => Phrase.nodes_single negated block dotted

/-- **A group says the same as the list of its selectors,** in parentheses or not. -/
theorem agrees_listed [Glob.Engine] :
    (last (.mk negated ⟨inParens, first, more⟩ block)).Agrees
      (listed negated first more block) where
  compiles := by
    rw [allCompile_listed negated inParens, tokens]
  height := by
    rw [greedy_listed, height_listed negated inParens, greedy, height, Phrase.greedy]
  nodes := by
    rw [greedy_listed, nodes_listed negated inParens, greedy, terms, Phrase.greedy, Term.nodesAll,
      Term.nodesAll, List.append_nil]

end Group

/-! ## Dotted selectors -/

/-- Terms of one segment, each in the block of the one before it.  The sign and the block belong
to the last of them. -/
def nested (negated : Bool) (first : Segment) (more : List Segment) (block : Block) : Sentence :=
  match more with
  | [] => last (.single negated block ⟨first, []⟩)
  | next :: rest => last (.single false (.of (nested negated next rest block)) ⟨first, []⟩)

/-- A selector that starts with a segment is the rest of the selector below that segment. -/
theorem selector_cons (first next : Segment) (rest : List Segment) :
    Dotted.selector ⟨first, next :: rest⟩
      = ⟨first.name :: (Dotted.selector ⟨next, rest⟩).parents,
          (Dotted.selector ⟨next, rest⟩).target⟩ := by
  have hextend : ∀ (parents : List Name) (target : Name),
      Dotted.extend ⟨first.name :: parents, target⟩ rest
        = ⟨first.name :: (Dotted.extend ⟨parents, target⟩ rest).parents,
            (Dotted.extend ⟨parents, target⟩ rest).target⟩ := by
    induction rest with
    | nil => exact fun _ _ => rfl
    | cons segment rest ih => exact fun parents target => ih (parents ++ [target]) segment.name
  exact hextend [] next.name

section Nested

variable (negated : Bool) (first : Segment) (more : List Segment) (block : Block)

theorem allCompile_nested [Glob.Engine] :
    Token.AllCompile (nested negated first more block).tokens
      ↔ Token.AllCompile (Phrase.single negated block ⟨first, more⟩).tokens := by
  induction more generalizing first with
  | nil => rfl
  | cons next rest ih =>
    rw [nested, tokens, Phrase.allCompile_single, Block.allCompile_of, ih,
      Phrase.allCompile_single, Phrase.allCompile_single]
    simp only [Dotted.allCompile_tokens, List.forall_mem_cons, List.not_mem_nil, false_imp_iff,
      implies_true, and_true, and_assoc]

theorem greedy_nested :
    (nested negated first more block).greedy = nested negated first more block.greedy := by
  induction more generalizing first with
  | nil => rfl
  | cons next rest ih => rw [nested, greedy, Phrase.greedy_single, Block.greedy, ih, nested]

theorem height_nested :
    (nested negated first more block).height
      = (Phrase.single negated block ⟨first, more⟩).height := by
  induction more generalizing first with
  | nil => rfl
  | cons next rest ih =>
    rw [nested, height, Phrase.height_single, Block.height, ih, Phrase.height_single,
      Phrase.height_single]
    simp only [Dotted.length, List.length_nil, List.length_cons]
    omega

theorem nodes_nested :
    Term.nodesAll (nested negated first more block).terms
      = (Phrase.single negated block ⟨first, more⟩).term.nodes := by
  induction more generalizing first with
  | nil => rw [nested, terms, Term.nodesAll, Term.nodesAll, List.append_nil]
  | cons next rest ih =>
    have hinner : Term.blockLevel (Block.of (nested negated next rest block)).terms?
        = Node.level (Phrase.single negated block ⟨next, rest⟩).term.nodes := by
      rw [Block.terms?, Term.blockLevel, ih]
    rw [nested, terms, Term.nodesAll, Term.nodesAll, List.append_nil, Phrase.nodes_single, hinner,
      Phrase.nodes_single, Phrase.nodes_single, selector_cons, Block.terms?, isEmptyBlock_terms]
    rfl

/-- **A dotted selector says the same as terms within each other.** -/
theorem agrees_nested [Glob.Engine] :
    (last (.single negated block ⟨first, more⟩)).Agrees (nested negated first more block) where
  compiles := by
    rw [allCompile_nested, tokens]
  height := by
    rw [greedy_nested, height_nested, greedy, height, Phrase.greedy_single]
  nodes := by
    rw [greedy_nested, nodes_nested, greedy, terms, Phrase.greedy_single, Term.nodesAll,
      Term.nodesAll, List.append_nil]

end Nested

end Sentence

/-! ## Filter texts -/

/-- Texts of sentences that say the same stand for the same nodes, or are both refused. -/
theorem Sentence.Agrees.nodes?_of_tokens [Glob.Engine] {sentence other : Sentence}
    (h : sentence.Agrees other) {text otherText : String}
    (htext : Expression.tokens text = .ok sentence.tokens)
    (hother : Expression.tokens otherText = .ok other.tokens) :
    Expression.nodes? text = Expression.nodes? otherText := by
  rw [Expression.nodes?_of_tokens htext, Expression.nodes?_of_tokens hother, h.nodes?_eq]

/-- **Groups and dotted selectors are short for other terms.**  At every place that commas and
braces keep apart, and with or without a sign and a block, three texts stand for the same nodes, or
all of them are refused: a group, the group in parentheses, and the list of its selectors, each
with the sign and the block.  The same is true of a dotted selector and the terms of its segments
within each other, the last of them with the sign and the block. -/
theorem Expression.nodes?_sugar [Glob.Engine] (place : Place) (negated : Bool) (block : Block) :
    (∀ (first : Dotted) (more : List Dotted) (bare grouped listed : String),
      tokens bare = .ok (place.fill (.last (.mk negated ⟨false, first, more⟩ block))).tokens →
      tokens grouped = .ok (place.fill (.last (.mk negated ⟨true, first, more⟩ block))).tokens →
      tokens listed = .ok (place.fill (.listed negated first more block)).tokens →
        nodes? bare = nodes? listed ∧ nodes? grouped = nodes? listed)
    ∧ ∀ (first : Segment) (more : List Segment) (dotted nested : String),
      tokens dotted = .ok (place.fill (.last (.single negated block ⟨first, more⟩))).tokens →
      tokens nested = .ok (place.fill (.nested negated first more block)).tokens →
        nodes? dotted = nodes? nested := by
  constructor
  · intro first more bare grouped listed hbare hgrouped hlisted
    have hagrees : ∀ inParens, (place.fill (.last (.mk negated ⟨inParens, first, more⟩ block))).Agrees
        (place.fill (.listed negated first more block)) := fun inParens =>
      (Sentence.agrees_listed negated inParens first more block).fill place
    exact ⟨(hagrees false).nodes?_of_tokens hbare hlisted,
      (hagrees true).nodes?_of_tokens hgrouped hlisted⟩
  · intro first more dotted nested hdotted hnested
    have hagrees := (Sentence.agrees_nested negated first more block).fill place
    exact hagrees.nodes?_of_tokens hdotted hnested

/-- A place in the block of an owner, between other terms. -/
def ownerPlace : Place :=
  .after (.last (.word false "id" .absent))
    (.within false ⟨false, ⟨.word "owner", []⟩, []⟩
      (.before .whole (.last (.word false "mail" .absent))))

/-- A block with one name. -/
def cityBlock : Block :=
  .of (.last (.word false "city" .absent))

/-- A selector of three segments, and two selectors of different lengths, that are taken away below
an owner. -/
theorem Expression.nodes?_ownerPlace :
    (nodes? "id,owner\x7b-home.'address'.main\x7bcity\x7d,mail\x7d").isSome = true
      ∧ (nodes? "id,owner\x7b-home.address|work\x7bcity\x7d,mail\x7d").isSome = true
      ∧ nodes? "id,owner\x7b-home.'address'.main\x7bcity\x7d,mail\x7d"
        = nodes? "id,owner\x7bhome\x7b'address'\x7b-main\x7bcity\x7d\x7d\x7d,mail\x7d"
      ∧ nodes? "id,owner\x7b-home.address|work\x7bcity\x7d,mail\x7d"
        = nodes? "id,owner\x7b-home.address\x7bcity\x7d,-work\x7bcity\x7d,mail\x7d"
      ∧ nodes? "id,owner\x7b-(home.address|work) \x7bcity\x7d,mail\x7d"
        = nodes? "id,owner\x7b-home.address\x7bcity\x7d,-work\x7bcity\x7d,mail\x7d" := by
  obtain ⟨hgroups, hdots⟩ := nodes?_sugar ownerPlace true cityBlock
  exact ⟨by decide +kernel, by decide +kernel,
    hdots (.word "home") [.quoted "address" rfl, .word "main"] _ _ (by decide +kernel)
      (by decide +kernel),
    hgroups ⟨.word "home", [.word "address"]⟩ [⟨.word "work", []⟩] _ _ _ (by decide +kernel)
      (by decide +kernel) (by decide +kernel)⟩

end FieldFilter
