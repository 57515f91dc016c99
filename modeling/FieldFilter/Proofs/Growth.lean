import FieldFilter.Proofs.Merging
import Mathlib.Algebra.Order.Ring.Basic
import Mathlib.Algebra.Order.Ring.Nat

/-!
# How large the expression of a text can be

A group gives a copy of its block to each of its selectors.  If the block has such a group in it, the
copies have copies in turn, so an expression can have far more nodes than its text has characters.
How many there can be is told by how far *shared blocks*, those with several selectors, stand one
within the other.

**What nodes are paid with.**  A segment pays for its node, and a dot or a minus sign for the
wildcard of a level that only takes away.  Merging does not make nodes, apart from such wildcards; so
they are counted before they are there (`Node.weight`), and then merging adds nothing.  A shared
block has no more copies than its group has tokens, which makes one more factor.

* `Node.count`, `Expression.count` — the number of nodes, all levels counted.
* `Term.sharing`, `Expression.sharing` — the number of shared blocks that stand one within the other.
* `Node.weightAll_insertAll_le` — merging adds nothing to the weight.
* `Sentence.levelWeight_le` — the weight of a sentence, by its tokens.
* **`Expression.count_le_pow_sharing`** — the number of nodes, by the characters of a text: a power
  with one factor for the text and one for each shared block on the way down.
* **`Expression.count_doubled`** — the exponent is needed: texts whose nodes double at each level.
-/

namespace FieldFilter

/-! ## Counting -/

namespace Node

mutual

/-- The number of nodes of a tree. -/
def count : Node → Nat
  | ⟨_, _, _, _, children⟩ => countAll children + 1

/-- The number of nodes of a level and of all levels below it. -/
def countAll : List Node → Nat
  | [] => 0
  | node :: rest => count node + countAll rest

end

end Node

/-- The number of nodes of an expression, all levels counted. -/
def Expression.count (expression : Expression) : Nat :=
  Node.countAll expression.nodes

namespace Term

mutual

/-- The number of shared blocks that stand one within the other in a term.  A block is shared if
its group has two selectors or more, and something is written in it. -/
def sharing : Term → Nat
  | ⟨_, group, block⟩ => blockSharing (decide (2 ≤ group.length)) block

/-- The same for a block, which is shared or not. -/
def blockSharing (shared : Bool) : Option (List Term) → Nat
  | none => 0
  | some terms => sharingAll terms + if shared && !isEmptyBlock (some terms) then 1 else 0

def sharingAll : List Term → Nat
  | [] => 0
  | term :: rest => max (sharing term) (sharingAll rest)

end

end Term

/-- The number of shared blocks that stand one within the other in a text. -/
def Expression.sharing [Glob.Engine] (source : String) : Nat :=
  ((terms source).toOption.map Term.sharingAll).getD 0

/-! ## Merging adds nothing -/

namespace Node

/-- The number of wildcards that a level lacks: one if it only takes away. -/
def lacking (level : List Node) : Nat :=
  if !level.isEmpty && level.all (·.negated) then 1 else 0

mutual

/-- The number of nodes of a tree, with the wildcards that its levels lack. -/
def weight : Node → Nat
  | ⟨_, _, _, _, children⟩ => weightAll children + lacking children + 1

def weightAll : List Node → Nat
  | [] => 0
  | node :: rest => weight node + weightAll rest

end

/-- The number of nodes of a level, with the wildcard that it lacks. -/
def levelWeight (level : List Node) : Nat :=
  weightAll level + lacking level

theorem weight_eq (node : Node) : node.weight = levelWeight node.children + 1 := by
  rcases node with ⟨name, negated, braced, emptyBlock, children⟩
  rw [weight, levelWeight]

mutual

theorem count_le_weight (node : Node) : node.count ≤ node.weight := by
  rcases node with ⟨name, negated, braced, emptyBlock, children⟩
  have hchildren := countAll_le_weightAll children
  rw [count, weight]
  omega

theorem countAll_le_weightAll (level : List Node) : countAll level ≤ weightAll level := by
  cases level with
  | nil => exact Nat.le_refl _
  | cons node rest =>
    rw [countAll, weightAll]
    exact Nat.add_le_add (count_le_weight node) (countAll_le_weightAll rest)

end

theorem weightAll_append (level others : List Node) :
    weightAll (level ++ others) = weightAll level + weightAll others := by
  induction level with
  | nil => rw [List.nil_append, weightAll, Nat.zero_add]
  | cons node rest ih => rw [List.cons_append, weightAll, weightAll, ih, Nat.add_assoc]

theorem lacking_le_one (level : List Node) : lacking level ≤ 1 := by
  rw [lacking]
  split <;> omega

theorem lacking_of_wanted {level : List Node} (h : ∃ node ∈ level, node.negated = false) :
    lacking level = 0 := by
  obtain ⟨node, hnode, hwanted⟩ := h
  refine if_neg ?_
  simp only [Bool.and_eq_true, List.all_eq_true, not_and, not_forall]
  exact fun _ => ⟨node, hnode, by simp [hwanted]⟩

theorem lacking_append_le (level others : List Node) :
    lacking (level ++ others) ≤ lacking level + lacking others := by
  cases level with
  | nil => simp [lacking]
  | cons node rest =>
    cases hnegated : (node :: rest).all (·.negated) with
    | true =>
      have hlacking : lacking (node :: rest) = 1 := by simp only [lacking, hnegated]; rfl
      have := lacking_le_one (node :: rest ++ others)
      omega
    | false =>
      have hnone : lacking (node :: rest ++ others) = 0 := by
        simp only [lacking, List.all_append, hnegated, Bool.false_and, Bool.and_false]
        rfl
      omega

theorem levelWeight_append_le (level others : List Node) :
    levelWeight (level ++ others) ≤ levelWeight level + levelWeight others := by
  have hlacking := lacking_append_le level others
  rw [levelWeight, levelWeight, levelWeight, weightAll_append]
  omega

/-- The wildcard that a level lacks is counted before it is there. -/
theorem levelWeight_complete (level : List Node) :
    levelWeight (complete level) = levelWeight level := by
  cases h : (!level.isEmpty && level.all (·.negated)) with
  | true =>
    have hcomplete : complete level = everything :: level := by rw [complete, h]; rfl
    have hlacking : lacking level = 1 := by rw [lacking, h]; rfl
    have hnone : lacking (everything :: level) = 0 := lacking_of_wanted ⟨everything, by simp, rfl⟩
    have heverything : everything.weight = 1 := rfl
    rw [hcomplete, levelWeight, levelWeight, weightAll, hlacking, hnone, heverything]
    omega
  | false =>
    have hcomplete : complete level = level := by rw [complete, h]; rfl
    rw [hcomplete]

/-- Levels that lack no wildcard lack none after merging. -/
theorem lacking_insertAll_le (nodes level : List Node) :
    lacking (insertAll nodes level) ≤ lacking level + lacking nodes := by
  by_cases h : ∃ node ∈ level ++ nodes, node.negated = false
  · rw [lacking_of_wanted (exists_wanted_insertAll h)]
    exact Nat.zero_le _
  · have htakes : OnlyTakes nodes := by
      simp only [not_exists, not_and, Bool.not_eq_false] at h
      exact fun node hnode => h node (List.mem_append_right _ hnode)
    rw [insertAll_of_onlyTakes htakes]
    exact lacking_append_le level nodes

mutual

/-- **Merging adds nothing to the weight.**  A node that is taken in gives its children to the one
that takes it in, and itself is gone. -/
theorem weightAll_insert_le (node : Node) (level : List Node) :
    weightAll (insert node level) ≤ weight node + weightAll level := by
  rcases node with ⟨name, negated, braced, emptyBlock, children⟩
  rcases insert_cases ⟨name, negated, braced, emptyBlock, children⟩ level with
    ⟨hlast, -⟩ | ⟨before, target, after, rfl, -, -, hinsert⟩
  · rw [hlast, weightAll_append, weightAll, weightAll]
    omega
  · -- the children are merged, so what is saved is the node itself
    have hchildren := weightAll_insertAll_le children target.children
    have hlacking := lacking_insertAll_le children target.children
    have hmerged : (target.merged ⟨name, negated, braced, emptyBlock, children⟩).weight
        = levelWeight (insertAll children target.children) + 1 := by
      rw [weight_eq, merged, levelWeight_complete]
    rw [hinsert, weightAll_append, weightAll_append, weightAll, weightAll, hmerged, weight_eq target,
      weight, levelWeight, levelWeight]
    omega

theorem weightAll_insertAll_le (nodes level : List Node) :
    weightAll (insertAll nodes level) ≤ weightAll nodes + weightAll level := by
  cases nodes with
  | nil =>
    rw [insertAll, weightAll, Nat.zero_add]
  | cons node rest =>
    have hnode := weightAll_insert_le node level
    have hrest := weightAll_insertAll_le rest (insert node level)
    rw [insertAll, weightAll]
    omega

end

/-- The normal form of a level weighs no more than the nodes it is made of. -/
theorem levelWeight_level_le (nodes : List Node) : levelWeight (level nodes) ≤ levelWeight nodes := by
  have hweight := weightAll_insertAll_le nodes []
  have hlacking := lacking_insertAll_le nodes []
  have hnil : weightAll [] = 0 ∧ lacking [] = 0 := ⟨rfl, rfl⟩
  rw [level, levelWeight_complete, levelWeight, levelWeight]
  omega

/-- The segments on the way to a node are one node each, and the last of their blocks may get a
wildcard. -/
theorem weight_selectorNode_le (parents : List Name) (target : Node) :
    (Selector.node parents target).weight ≤ 2 * parents.length + target.weight := by
  induction parents with
  | nil =>
    rw [Selector.node, List.foldr_nil, List.length_nil]
    omega
  | cons name parents ih =>
    have hlevel := levelWeight_level_le [Selector.node parents target]
    have hlacking := lacking_le_one [Selector.node parents target]
    have hone : levelWeight [Selector.node parents target]
        = (Selector.node parents target).weight + lacking [Selector.node parents target] := rfl
    have hcons : (Selector.node (name :: parents) target).weight
        = levelWeight (level [Selector.node parents target]) + 1 := weight_eq _
    rw [hcons, List.length_cons]
    omega

end Node

/-! ## Powers -/

section Powers

variable {x a b m n : Nat}

theorem add_pow_le : x + b ^ (m + 1) ≤ (x + b) ^ (m + 1) :=
  calc x + b ^ (m + 1) ≤ x ^ (m + 1) + b ^ (m + 1) :=
        Nat.add_le_add_right (Nat.le_self_pow (Nat.succ_ne_zero m) x) _
    _ ≤ (x + b) ^ (m + 1) :=
        pow_add_pow_le (Nat.zero_le x) (Nat.zero_le b) (Nat.succ_ne_zero m)

/-- Copies are paid for by one more factor. -/
theorem add_mul_pow_le (h : n ≤ x) : x + n * b ^ (m + 1) ≤ (x + b) ^ (m + 2) :=
  calc x + n * b ^ (m + 1) ≤ x * x + x * b ^ (m + 1) :=
        Nat.add_le_add (Nat.le_mul_self x) (Nat.mul_le_mul_right _ h)
    _ = x * (x + b ^ (m + 1)) := (Nat.mul_add ..).symm
    _ ≤ (x + b) * (x + b) ^ (m + 1) := Nat.mul_le_mul (Nat.le_add_right x b) add_pow_le
    _ = (x + b) ^ (m + 2) := (Nat.pow_succ' ..).symm

theorem pow_le_pow_max (a : Nat) : a ^ (m + 1) ≤ a ^ (max m n + 1) := by
  cases a with
  | zero => simp
  | succ a => exact Nat.pow_le_pow_right (Nat.succ_pos a) (by omega)

theorem pow_add_pow_le_max : a ^ (m + 1) + b ^ (n + 1) ≤ (a + b) ^ (max m n + 1) :=
  calc a ^ (m + 1) + b ^ (n + 1) ≤ a ^ (max m n + 1) + b ^ (max m n + 1) :=
        Nat.add_le_add (pow_le_pow_max a) (Nat.max_comm n m ▸ pow_le_pow_max b)
    _ ≤ (a + b) ^ (max m n + 1) :=
        pow_add_pow_le (Nat.zero_le a) (Nat.zero_le b) (Nat.succ_ne_zero _)

end Powers

/-! ## Sentences -/

theorem Dotted.length_tokens (dotted : Dotted) :
    dotted.tokens.length = 2 * dotted.selector.parents.length + 1 := by
  have hdots : ∀ more : List Segment, (dots more).length = 2 * more.length := by
    intro more
    induction more with
    | nil => rfl
    | cons segment rest ih =>
      have hcons : dots (segment :: rest) = .dot :: segment.token :: dots rest := rfl
      rw [hcons, List.length_cons, List.length_cons, List.length_cons, ih]
      omega
  have hdepth := dotted.depth_selector
  rw [Selector.depth, length] at hdepth
  rw [tokens, List.length_cons, hdots]
  omega

/-- The tokens of a group are as many at least as those of its selectors. -/
theorem Group.sum_length_tokens_le (group : Group) :
    (group.dotteds.map fun dotted => dotted.tokens.length).sum ≤ group.tokens.length := by
  have hbars : ∀ more : List Dotted,
      (more.map fun dotted => dotted.tokens.length).sum ≤ (bars more).length := by
    intro more
    induction more with
    | nil => exact Nat.le_refl _
    | cons dotted rest ih =>
      have hcons : bars (dotted :: rest) = .pipe :: dotted.tokens ++ bars rest := rfl
      rw [hcons, List.map_cons, List.sum_cons, List.length_append, List.length_cons]
      omega
  have hinner : group.inner.length ≤ group.tokens.length := by
    rw [tokens]
    split
    · rw [List.length_append, List.length_cons]
      omega
    · exact Nat.le_refl _
  have hmore := hbars group.more
  rw [inner, List.length_append] at hinner
  rw [dotteds, List.map_cons, List.sum_cons]
  omega

/-- The nodes of selectors with one block for all of them. -/
theorem Dotted.weightAll_le (dotteds : List Dotted) (target : Name → Node) (bound : Nat)
    (h : ∀ name, (target name).weight ≤ bound + 1) :
    Node.weightAll (dotteds.map fun dotted =>
        Selector.node dotted.selector.parents (target dotted.selector.target))
      ≤ (dotteds.map fun dotted => dotted.tokens.length).sum + dotteds.length * bound := by
  induction dotteds with
  | nil => exact Nat.zero_le _
  | cons dotted rest ih =>
    have hnode := Node.weight_selectorNode_le dotted.selector.parents
      (target dotted.selector.target)
    have htarget := h dotted.selector.target
    have hlength := dotted.length_tokens
    rw [List.map_cons, Node.weightAll, List.map_cons, List.sum_cons, List.length_cons,
      Nat.succ_mul]
    omega

/-- A term without a sign does not only take away. -/
theorem Phrase.lacking_le (negated : Bool) (group : Group) (block : Block) :
    Node.lacking (Phrase.mk negated group block).term.nodes ≤ (Phrase.sign negated).length := by
  cases negated with
  | true => exact Node.lacking_le_one _
  | false =>
    refine Nat.le_of_eq (Node.lacking_of_wanted ?_)
    rw [Phrase.term, Term.nodes]
    refine ⟨_, List.mem_map_of_mem (List.mem_map_of_mem (List.mem_cons_self ..)), ?_⟩
    cases group.first.selector.parents <;> rfl

/-- The nodes of a term weigh as much as its selectors, and as the block for each of them. -/
theorem Phrase.levelWeight_nodes_le (negated : Bool) (group : Group) (block : Block) :
    Node.levelWeight (Phrase.mk negated group block).term.nodes
      ≤ (Phrase.sign negated ++ group.tokens).length
        + group.selectors.length * Node.levelWeight (Term.blockLevel block.terms?) := by
  have hlacking := Phrase.lacking_le negated group block
  have htokens := group.sum_length_tokens_le
  have hweight := Dotted.weightAll_le group.dotteds
    (fun name => ⟨name, negated, block.terms?.isSome, Term.isEmptyBlock block.terms?,
      Term.blockLevel block.terms?⟩)
    (Node.levelWeight (Term.blockLevel block.terms?)) fun name => Nat.le_of_eq (Node.weight_eq _)
  have hnodes : (Phrase.mk negated group block).term.nodes
      = group.dotteds.map fun dotted => Selector.node dotted.selector.parents
          ⟨dotted.selector.target, negated, block.terms?.isSome, Term.isEmptyBlock block.terms?,
            Term.blockLevel block.terms?⟩ := by
    rw [Phrase.term, Term.nodes, Group.selectors, List.map_map]
    rfl
  rw [← hnodes] at hweight
  rw [Node.levelWeight, List.length_append, Group.selectors, List.length_map]
  omega

/-- A group has no more selectors than tokens. -/
theorem Group.length_selectors_le (group : Group) :
    group.selectors.length ≤ group.tokens.length := by
  have htokens := group.sum_length_tokens_le
  have hcount : ∀ dotteds : List Dotted,
      dotteds.length ≤ (dotteds.map fun dotted => dotted.tokens.length).sum := by
    intro dotteds
    induction dotteds with
    | nil => exact Nat.le_refl _
    | cons dotted rest ih =>
      rw [List.map_cons, List.sum_cons, List.length_cons, dotted.length_tokens]
      omega
  rw [selectors, List.length_map]
  exact Nat.le_trans (hcount group.dotteds) htokens

/-- A block for several selectors takes one more factor, and a block for one selector does not. -/
theorem Term.add_copies_le {block : Option (List Term)} {written inner selectors : Nat}
    (hblock : Node.levelWeight (blockLevel block) ≤ inner ^ (blockSharing false block + 1))
    (hselectors : selectors ≤ written) :
    written + selectors * Node.levelWeight (blockLevel block)
      ≤ (written + inner) ^ (blockSharing (decide (2 ≤ selectors)) block + 1) := by
  rcases block with _ | _ | ⟨term, rest⟩
  · exact Nat.le_trans (Nat.le_add_right written _) add_pow_le
  · exact Nat.le_trans (Nat.le_add_right written _) add_pow_le
  · by_cases hshared : 2 ≤ selectors
    · have hsharing : blockSharing (decide (2 ≤ selectors)) (some (term :: rest))
          = blockSharing false (some (term :: rest)) + 1 := by
        rw [decide_eq_true hshared, blockSharing, blockSharing]
        rfl
      rw [hsharing]
      exact Nat.le_trans (Nat.add_le_add_left (Nat.mul_le_mul_left _ hblock) _)
        (add_mul_pow_le hselectors)
    · have honce : selectors * Node.levelWeight (blockLevel (some (term :: rest)))
          ≤ 1 * Node.levelWeight (blockLevel (some (term :: rest))) :=
        Nat.mul_le_mul_right _ (by omega)
      rw [Nat.one_mul] at honce
      rw [decide_eq_false hshared]
      exact Nat.le_trans (Nat.add_le_add_left (Nat.le_trans honce hblock) _) add_pow_le

mutual

/-- The nodes of a term weigh no more than a power of its tokens. -/
theorem Phrase.levelWeight_le (phrase : Phrase) :
    Node.levelWeight phrase.term.nodes ≤ phrase.tokens.length ^ (phrase.term.sharing + 1) := by
  rcases phrase with ⟨negated, group, block⟩
  have hblock := block.levelWeight_le
  have hnodes := Phrase.levelWeight_nodes_le negated group block
  have hcount : group.selectors.length ≤ (Phrase.sign negated ++ group.tokens).length := by
    have := group.length_selectors_le
    rw [List.length_append]
    omega
  rw [Phrase.tokens, List.length_append, Phrase.term, Term.sharing]
  rw [Phrase.term] at hnodes
  exact Nat.le_trans hnodes (Term.add_copies_le hblock hcount)

/-- The level of a block weighs no more than a power of its tokens. -/
theorem Block.levelWeight_le (block : Block) :
    Node.levelWeight (Term.blockLevel block.terms?)
      ≤ block.tokens.length ^ (Term.blockSharing false block.terms? + 1) := by
  cases block with
  | absent => exact Nat.zero_le _
  | empty => exact Nat.zero_le _
  | of inner =>
    have hinner := inner.levelWeight_le
    have hlength : inner.tokens.length ≤ (Block.of inner).tokens.length := by
      rw [Block.tokens, List.length_append, List.length_cons]
      omega
    rw [Block.terms?, Term.blockLevel, Term.blockSharing]
    calc Node.levelWeight (Node.level (Term.nodesAll inner.terms))
        ≤ Node.levelWeight (Term.nodesAll inner.terms) := Node.levelWeight_level_le _
      _ ≤ inner.tokens.length ^ (Term.sharingAll inner.terms + 1) := hinner
      _ ≤ _ := Nat.pow_le_pow_left hlength _

theorem Sentence.levelWeight_le (sentence : Sentence) :
    Node.levelWeight (Term.nodesAll sentence.terms)
      ≤ sentence.tokens.length ^ (Term.sharingAll sentence.terms + 1) := by
  cases sentence with
  | last phrase =>
    have hphrase := phrase.levelWeight_le
    rw [Sentence.terms, Term.nodesAll, Term.nodesAll, List.append_nil, Sentence.tokens,
      Term.sharingAll, Term.sharingAll, Nat.max_zero]
    exact hphrase
  | cons phrase bar rest =>
    have hphrase := phrase.levelWeight_le
    have hrest := rest.levelWeight_le
    rw [Sentence.terms, Term.nodesAll, Term.sharingAll, Sentence.tokens, List.length_append,
      List.length_cons]
    calc Node.levelWeight (phrase.term.nodes ++ Term.nodesAll rest.terms)
        ≤ Node.levelWeight phrase.term.nodes + Node.levelWeight (Term.nodesAll rest.terms) :=
          Node.levelWeight_append_le _ _
      _ ≤ phrase.tokens.length ^ (phrase.term.sharing + 1)
          + rest.tokens.length ^ (Term.sharingAll rest.terms + 1) := Nat.add_le_add hphrase hrest
      _ ≤ (phrase.tokens.length + rest.tokens.length)
            ^ (max phrase.term.sharing (Term.sharingAll rest.terms) + 1) := pow_add_pow_le_max
      _ ≤ _ := Nat.pow_le_pow_left (by omega) _

end

mutual

/-- There are fewer shared blocks than levels: the group of each takes one, and so does what is written
in the last of them. -/
theorem Phrase.sharing_lt_height (phrase : Phrase) : phrase.term.sharing < phrase.height := by
  rcases phrase with ⟨negated, group, block⟩
  have hblock := block.blockSharing_le_height (decide (2 ≤ group.selectors.length))
  have hfirst : group.first.length ≤ group.longest :=
    Group.length_le_longest (List.mem_cons_self ..)
  rw [Dotted.length] at hfirst
  rw [Phrase.term, Term.sharing, Phrase.height]
  omega

theorem Block.blockSharing_le_height (block : Block) (shared : Bool) :
    Term.blockSharing shared block.terms? ≤ block.height := by
  cases block with
  | absent => exact Nat.zero_le _
  | empty =>
    rw [Block.terms?, Term.blockSharing, Term.sharingAll, Term.isEmptyBlock, Bool.not_true,
      Bool.and_false]
    exact Nat.zero_le _
  | of inner =>
    have hinner := inner.sharingAll_lt_height
    rw [Block.terms?, Term.blockSharing, Block.height]
    split <;> omega

theorem Sentence.sharingAll_lt_height (sentence : Sentence) :
    Term.sharingAll sentence.terms < sentence.height := by
  cases sentence with
  | last phrase =>
    have hphrase := phrase.sharing_lt_height
    rw [Sentence.terms, Term.sharingAll, Term.sharingAll, Sentence.height, Nat.max_zero]
    exact hphrase
  | cons phrase bar rest =>
    have hphrase := phrase.sharing_lt_height
    have hrest := rest.sharingAll_lt_height
    rw [Sentence.terms, Term.sharingAll, Sentence.height]
    omega

end

/-! ## Texts -/

/-- A text has a character at least for each of its tokens. -/
theorem Spelling.length_le {before : Option Token} {offset : Nat} {text : List Char}
    {lexemes : List Lexeme} (h : Spelling before offset text lexemes) :
    lexemes.length ≤ text.length := by
  induction h with
  | blank => exact Nat.zero_le _
  | token _ _ hwritten _ ih =>
    obtain ⟨c, more, rfl, -⟩ := hwritten.exists_cons
    rw [List.length_cons, List.length_append, List.length_append, List.length_cons]
    omega

namespace Expression

variable {source : String}

theorem length_of_tokens {tokens : List Token} (h : Expression.tokens source = .ok tokens) :
    tokens.length ≤ source.length := by
  obtain ⟨lexemes, hspelling, rfl⟩ := tokens_eq_ok_iff.1 h 0
  rw [List.length_map, ← String.length_toList]
  exact hspelling.length_le

/-- The terms of a text are those of a reading of its tokens that is shallow, or there are none. -/
theorem exists_of_terms [Glob.Engine] {terms : List Term}
    (h : Expression.terms source = .ok terms) :
    terms = [] ∨ ∃ sentence : Sentence, Expression.tokens source = .ok sentence.tokens
      ∧ terms = sentence.terms ∧ sentence.height ≤ Term.depthLimit := by
  cases hscan : Token.scan 0 source.toList with
  | error defect =>
    rw [Expression.terms, hscan] at h
    cases h
  | ok lexemes =>
    cases lexemes with
    | nil =>
      rw [Expression.terms, hscan] at h
      cases h
      exact .inl rfl
    | cons lexeme rest =>
      have hread := h
      rw [Expression.terms, hscan] at hread
      obtain ⟨-, sentence, hsentence⟩ := Term.exists_of_read hread
      have htokens : Expression.tokens source = .ok sentence.tokens := by
        rw [Expression.tokens, hscan]
        exact congrArg Except.ok hsentence.symm
      have hgreedy := terms_of_tokens htokens
      rw [h] at hgreedy
      split at hgreedy
      · next hreads =>
        refine .inr ⟨sentence.greedy, ?_, Option.some.inj hgreedy, hreads.2⟩
        rw [sentence.tokens_greedy]
        exact htokens
      · cases hgreedy

/-- **How large the expression of a text can be.**  It has as many nodes at most as the text has
characters, once for the text and once more for each of the shared blocks that stand one within the
other; of these there are fewer than levels.  So without a shared block within another one the
number of nodes is at most the square of the number of characters. -/
theorem count_le_pow_sharing [Glob.Engine] {expression : Expression}
    (h : parse source = .ok expression) :
    expression.count ≤ source.length ^ (sharing source + 1)
      ∧ sharing source < Term.depthLimit
      ∧ (sharing source ≤ 1 → expression.count ≤ source.length * source.length) := by
  have hboth : expression.count ≤ source.length ^ (sharing source + 1)
      ∧ sharing source < Term.depthLimit := by
    cases hterms : terms source with
    | error defect =>
      rw [parse, hterms] at h
      cases h
    | ok terms =>
      rw [parse, hterms] at h
      cases h
      have hsharing : sharing source = Term.sharingAll terms := by
        rw [sharing, hterms]
        rfl
      rw [hsharing]
      rcases exists_of_terms hterms with rfl | ⟨sentence, htokens, rfl, hheight⟩
      · exact ⟨Nat.zero_le _, by decide⟩
      · refine ⟨?_, Nat.lt_of_lt_of_le sentence.sharingAll_lt_height hheight⟩
        calc Node.countAll (Term.level sentence.terms)
            ≤ Node.levelWeight (Node.level (Term.nodesAll sentence.terms)) :=
              Nat.le_trans (Node.countAll_le_weightAll _) (Nat.le_add_right _ _)
          _ ≤ Node.levelWeight (Term.nodesAll sentence.terms) := Node.levelWeight_level_le _
          _ ≤ sentence.tokens.length ^ (Term.sharingAll sentence.terms + 1) :=
              sentence.levelWeight_le
          _ ≤ _ := Nat.pow_le_pow_left (length_of_tokens htokens) _
  obtain ⟨hcount, hsharing⟩ := hboth
  refine ⟨hcount, hsharing, fun hone => Nat.le_trans hcount ?_⟩
  have hsquare := pow_le_pow_max source.length (m := sharing source) (n := 1)
  rw [Nat.max_eq_right hone, Nat.pow_two] at hsquare
  exact hsquare

/-- A filter text with one shared block, in which a name is taken away. -/
def sharedBlock : String :=
  "(owner|buyer)\x7b-note,-home.city\x7d,tags"

/-- Each of the two names gets the block with its wildcard. -/
theorem count_sharedBlock :
    ∃ expression, parse sharedBlock = .ok expression ∧ sharing sharedBlock = 1
      ∧ expression.count = 11
      ∧ expression.count ≤ sharedBlock.length ^ 2 ∧ 1 < Term.depthLimit
      ∧ expression.count ≤ sharedBlock.length * sharedBlock.length := by
  have hcount : (parse sharedBlock).toOption.map count = some 11 := by decide +kernel
  have hsharing : sharing sharedBlock = 1 := by decide +kernel
  cases hparse : parse sharedBlock with
  | error fault =>
    rw [hparse] at hcount
    cases hcount
  | ok expression =>
    rw [hparse] at hcount
    have hbound := count_le_pow_sharing hparse
    rw [hsharing] at hbound
    exact ⟨expression, rfl, hsharing, Option.some.inj hcount, hbound.1, hbound.2.1,
      hbound.2.2 (Nat.le_refl 1)⟩

end Expression

/-! ## The bound has to grow with the number of shared blocks -/

/-- Two names with a block for both of them. -/
def Phrase.pair (block : Block) : Phrase :=
  .mk false ⟨false, ⟨.word "a", []⟩, [⟨.word "b", []⟩]⟩ block

/-- Two names, with two names in their block, and so on. -/
def Sentence.doubled : Nat → Sentence
  | 0 => last (.pair .absent)
  | depth + 1 => last (.pair (.of (doubled depth)))

namespace Sentence

theorem allCompile_doubled [Glob.Engine] (depth : Nat) :
    Token.AllCompile (doubled depth).tokens := by
  have hpair : ∀ {block : Block}, Token.AllCompile block.tokens →
      Token.AllCompile (Phrase.pair block).tokens := by
    intro block hblock
    have hnames : ∀ name ∈ ["a", "b"], Name.IsBare name := by decide +kernel
    refine Phrase.allCompile_tokens.2 ⟨?_, hblock⟩
    simp [Group.dotteds, Dotted.tokens, Dotted.dots, Segment.token,
      (hnames "a" (by simp)).compiles, (hnames "b" (by simp)).compiles]
  induction depth with
  | zero => exact hpair Token.allCompile_nil
  | succ depth ih => exact hpair (Block.allCompile_of.2 ih)

theorem greedy_doubled (depth : Nat) : (doubled depth).greedy = doubled depth := by
  induction depth with
  | zero => rfl
  | succ depth ih => rw [doubled, Phrase.pair, greedy, Phrase.greedy, Block.greedy, ih]

theorem height_doubled (depth : Nat) : (doubled depth).height = depth + 1 := by
  induction depth with
  | zero => rfl
  | succ depth ih =>
    have hlongest : Group.longest ⟨false, ⟨.word "a", []⟩, [⟨.word "b", []⟩]⟩ = 1 := rfl
    rw [doubled, Phrase.pair, height, Phrase.height, Block.height, ih, hlongest, Nat.add_comm]

/-- The nodes of two names are counted with the level of their block, each for itself. -/
theorem countAll_pair (block : Block) :
    Node.countAll (Term.level (last (.pair block)).terms)
      = 2 * (Node.countAll (Term.blockLevel block.terms?) + 1) := by
  let node (name : String) : Node := ⟨Name.ofWord name, false, block.terms?.isSome,
    Term.isEmptyBlock block.terms?, Term.blockLevel block.terms?⟩
  have hnodes : Term.nodesAll (last (.pair block)).terms = [node "a", node "b"] := by
    rw [terms, Term.nodesAll, Term.nodesAll, List.append_nil, Phrase.pair, Phrase.term, Term.nodes]
    rfl
  have hnames : Name.ofWord "a" ≠ Name.ofWord "b" := by decide +kernel
  have hapart : Node.Apart ([] ++ [node "a", node "b"]) := by
    simpa [Node.Apart, node] using hnames
  have hcount : ∀ name, (node name).count = Node.countAll (Term.blockLevel block.terms?) + 1 :=
    fun name => by rw [Node.count]
  rw [Term.level, hnodes, Node.level, Node.insertAll_of_apart hapart,
    Node.complete_of_wanted ⟨node "a", by simp, rfl⟩, List.nil_append, Node.countAll,
    Node.countAll, Node.countAll, hcount, hcount]
  omega

theorem countAll_doubled (depth : Nat) :
    Node.countAll (Term.level (doubled depth).terms) + 2 = 2 ^ (depth + 2) := by
  induction depth with
  | zero => decide
  | succ depth ih =>
    have hblock : Term.blockLevel (Block.of (doubled depth)).terms?
        = Term.level (doubled depth).terms := by
      rw [Block.terms?, Term.blockLevel, Term.level]
    rw [doubled, countAll_pair, hblock, Nat.pow_succ']
    omega

end Sentence

namespace Expression

/-- A text of two names, with such a text in their block, and so on. -/
def doubled : Nat → String
  | 0 => "a|b"
  | depth + 1 => "a|" ++ inBlock "b" (doubled depth)

theorem length_doubled (depth : Nat) : (doubled depth).length = 5 * depth + 3 := by
  induction depth with
  | zero => rfl
  | succ depth ih =>
    have hmarks : "a|".length + "b".length + "\x7b".length + "\x7d".length = 5 := rfl
    rw [doubled, inBlock, String.length_append, String.length_append, String.length_append,
      String.length_append, ih]
    omega

theorem tokens_doubled (depth : Nat) :
    tokens (doubled depth) = .ok (Sentence.doubled depth).tokens := by
  have hword : ∀ name ∈ ["a", "b"], Token.IsWord name.toList := by decide +kernel
  have hfirst := cuts_word (hword "a" (by simp))
  have hsecond := hword "b" (by simp)
  have hbar : Token.ofMark? '|' = some .pipe := rfl
  induction depth with
  | zero =>
    exact tokens_eq_ok_iff.2
      (hfirst.mark hbar (fun token => by cases token <;> rfl) (cuts_word hsecond))
  | succ depth ih =>
    have hblock := tokens_eq_ok_iff.1 (tokens_inBlock hsecond ih)
    have hcuts := hfirst.mark hbar (fun token => by cases token <;> rfl) hblock
    have htext : (doubled (depth + 1)).toList
        = "a".toList ++ '|' :: (inBlock "b" (doubled depth)).toList := by
      rw [doubled, String.toList_append]
      rfl
    rw [tokens_eq_ok_iff, htext]
    exact hcuts

/-- **Nodes can double at each level.**  With every five characters more, up to the limit on levels,
the number of nodes doubles. -/
theorem count_doubled [Glob.Engine] {depth : Nat} (h : depth < Term.depthLimit) :
    ∃ expression, parse (doubled depth) = .ok expression
      ∧ (doubled depth).length = 5 * depth + 3 ∧ expression.count + 2 = 2 ^ (depth + 2) := by
  have hnodes := nodes?_of_tokens (tokens_doubled depth)
  rw [Sentence.nodes?, Sentence.greedy_doubled, Sentence.height_doubled,
    if_pos ⟨Sentence.allCompile_doubled depth, Nat.succ_le_of_lt h⟩] at hnodes
  exact ⟨_, parse_of_nodes? hnodes, length_doubled depth, Sentence.countAll_doubled depth⟩

/-- A text of eleven levels, with two names at each. -/
def elevenLevels : String :=
  "a|b\x7ba|b\x7ba|b\x7ba|b\x7ba|b\x7ba|b\x7ba|b\x7ba|b\x7ba|b\x7ba|b\x7ba|b\x7d\x7d\x7d\x7d\x7d\x7d\x7d\x7d\x7d\x7d"

/-- Fifty-three characters stand for more nodes than the square of their number. -/
theorem not_count_elevenLevels_le :
    ∃ expression, parse elevenLevels = .ok expression ∧ elevenLevels.length = 53
      ∧ expression.count = 4094
      ∧ ¬ expression.count ≤ elevenLevels.length * elevenLevels.length := by
  have hdoubled : elevenLevels = doubled 10 := by decide +kernel
  obtain ⟨expression, hparse, hlength, hcount⟩ := @count_doubled _ 10 (by decide)
  rw [← hdoubled] at hparse hlength
  exact ⟨expression, hparse, hlength, by omega, by rw [hlength]; omega⟩

end Expression

end FieldFilter
