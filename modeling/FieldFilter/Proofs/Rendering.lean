import FieldFilter.Proofs.Patterns

/-!
# Reading back what is displayed

An expression is displayed by its nodes, with no trace of how it was written: groups, dotted
selectors and merged siblings are spelled out.  The text that comes out is a filter text again, and
it is read as the same nodes.

**Why nothing changes.**  Every level of an expression is in normal form, so nothing is left to be
merged and no wildcard is missing; and every node is a term of one name, so the text takes as many
levels as the tree does.  Both are told by `Node.Fits`, and all proofs are by induction on it.

**What changes.**  A node may have a block without anything in it although no empty block was
written, as in `a,a{}`.  Its text has an empty block.

* `Node.phrase` — the term that a node is displayed as.
* `Node.write_phrase` — the text of a node is that of its term.
* `Node.Fits.legible`, `Node.Fits.height_le`, `Node.Fits.nodesAll` — the text of a level can be cut
  into its tokens, is as deep as the level, and is read as its nodes.
* **`Expression.parse_render`** — an expression is read back from its text.
-/

namespace FieldFilter

/-- A name that can be written without quotes: the word it is written with stands for it. -/
structure Name.IsWritable (name : Name) : Prop where
  word : Token.IsWord name.label.toList
  ofWord : Name.ofWord name.label = name

/-- Exact names without wildcards can be written without quotes, if their characters allow it. -/
theorem Name.isWritable_exact {text : String} (h : Name.IsBare text) :
    (Name.exact text).IsWritable :=
  ⟨h.1, Name.ofWord_of_isBare h⟩

namespace Node

/-! ## Terms of nodes -/

mutual

/-- The term that a node is displayed as: its name, with its children in the block. -/
def phrase : Node → Phrase
  | ⟨name, negated, braced, _, children⟩ =>
    .word negated name.label
      (if braced && !name.isView then Block.commas (phrases children) else .absent)

/-- The terms that a level is displayed as. -/
def phrases : List Node → List Phrase
  | [] => []
  | node :: rest => node.phrase :: phrases rest

end

mutual

/-- A node as it is read back: a block without children is an empty one. -/
def reread : Node → Node
  | ⟨name, negated, braced, emptyBlock, children⟩ =>
    ⟨name, negated, braced, emptyBlock || (braced && children.isEmpty), rereadAll children⟩

/-- A level as it is read back. -/
def rereadAll : List Node → List Node
  | [] => []
  | node :: rest => node.reread :: rereadAll rest

end

theorem phrases_eq_map (nodes : List Node) : phrases nodes = nodes.map phrase := by
  induction nodes with
  | nil => rfl
  | cons node rest ih => rw [phrases, ih, List.map_cons]

theorem rereadAll_eq_map (nodes : List Node) : rereadAll nodes = nodes.map reread := by
  induction nodes with
  | nil => rfl
  | cons node rest ih => rw [rereadAll, ih, List.map_cons]

section Reread

variable (node : Node)

@[simp]
theorem name_reread : node.reread.name = node.name := by
  cases node
  rfl

@[simp]
theorem negated_reread : node.reread.negated = node.negated := by
  cases node
  rfl

@[simp]
theorem braced_reread : node.reread.braced = node.braced := by
  cases node
  rfl

@[simp]
theorem emptyBlock_reread :
    node.reread.emptyBlock = (node.emptyBlock || (node.braced && node.children.isEmpty)) := by
  cases node
  rfl

@[simp]
theorem children_reread : node.reread.children = rereadAll node.children := by
  cases node
  rfl

end Reread

/-! ## The text of a term -/

/-- Tokens as they are written without blanks. -/
def written (tokens : List Token) : List Char :=
  tokens.flatMap (Token.write '\x22')

theorem written_append (tokens others : List Token) :
    written (tokens ++ others) = written tokens ++ written others :=
  List.flatMap_append

theorem written_cons (token : Token) (tokens : List Token) :
    written (token :: tokens) = token.write '\x22' ++ written tokens :=
  List.flatMap_cons

theorem written_sign (negated : Bool) :
    written (Phrase.sign negated) = (if negated then "-" else "").toList := by
  cases negated <;> rfl

mutual

/-- **The text of a node is that of its term.** -/
theorem write_phrase (node : Node) : written node.phrase.tokens = node.render.toList := by
  obtain ⟨name, negated, braced, emptyBlock, children⟩ := node
  rw [phrase, Phrase.tokens_word, render, written_append, written_cons, written_sign,
    String.toList_append, String.toList_append, List.append_assoc]
  congr 2
  split
  · exact write_block children
  · rfl

/-- The text of a block is that of its level in braces. -/
theorem write_block (children : List Node) :
    written (Block.commas (phrases children)).tokens
      = ("\x7b" ++ renderAll children ++ "\x7d").toList := by
  cases children with
  | nil => rfl
  | cons node rest =>
    rw [phrases, Block.commas, Block.tokens, Sentence.tokens_commas, renderAll, written_append,
      written_cons, written_append, write_phrase node, write_rest rest, String.toList_append,
      String.toList_append, String.toList_append]
    rfl

/-- The text of the nodes after the first of a level has a comma before each. -/
theorem write_rest (nodes : List Node) :
    written ((phrases nodes).flatMap fun phrase => .comma :: phrase.tokens)
      = (renderRest nodes).toList := by
  cases nodes with
  | nil => rfl
  | cons node rest =>
    rw [phrases, List.flatMap_cons, written_append, written_cons, write_phrase node,
      write_rest rest, renderRest, String.toList_append, String.toList_append]
    rfl

end

/-! ## The text is cut into its tokens

Only words and minus signs stick to the token before them, and only to words.  In the text of an
expression a word comes after a mark or at the start, and what comes after a word is a mark that
does not stick to it. -/

/-- Tokens that can be written after any token without a blank. -/
def CanFollow (tokens : List Token) : Prop :=
  ∀ before, Written.Legible before (Written.compact tokens)

/-- Tokens that can be written at the start of a text, and after every token that nothing sticks
to. -/
def CanStart (tokens : List Token) : Prop :=
  ∀ before : Option Token, (∀ token, before.any (·.sticks token) = false) →
    Written.Legible before (Written.compact tokens)

theorem canFollow_nil : CanFollow [] :=
  fun _ => True.intro

/-- Commas and braces can follow any token, and anything that can start a text can follow them. -/
theorem CanStart.cons {mark : Token}
    (hmark : mark = .comma ∨ mark = .openBrace ∨ mark = .closeBrace) {tokens : List Token}
    (h : CanStart tokens) : CanFollow (mark :: tokens) := by
  intro before
  have hbefore : before.any (·.sticks mark) = false := by
    cases before with
    | none => rfl
    | some token => rcases hmark with rfl | rfl | rfl <;> cases token <;> rfl
  have hafter : ∀ token, (some mark).any (·.sticks token) = false := by
    rcases hmark with rfl | rfl | rfl <;> exact fun _ => rfl
  have hwritable : mark.IsWritable := by rcases hmark with rfl | rfl | rfl <;> trivial
  exact ⟨rfl, rfl, hwritable, fun hsticks => absurd (hbefore.symm.trans hsticks) Bool.false_ne_true,
    h _ hafter⟩

theorem CanFollow.canStart {tokens : List Token} (h : CanFollow tokens) : CanStart tokens :=
  fun before _ => h before

/-- A term of one word can start a text if its block can follow. -/
theorem canStart_word {negated : Bool} {text : String} (hword : Token.IsWord text.toList)
    {block : Block} {after : List Token} (hblock : CanFollow (block.tokens ++ after)) :
    CanStart ((Phrase.word negated text block).tokens ++ after) := by
  intro before hbefore
  have hapart : ∀ token, before.any (·.sticks token) = true → ([] : List Char) ≠ [] :=
    fun token hsticks => absurd ((hbefore token).symm.trans hsticks) Bool.false_ne_true
  rw [Phrase.tokens_word]
  cases negated with
  | false => exact ⟨rfl, rfl, hword, hapart _, hblock _⟩
  | true => exact ⟨rfl, rfl, trivial, hapart _, rfl, rfl, hword, nofun, hblock _⟩

/-- Terms with commas between them can start a text if each of them can. -/
theorem canStart_commas {phrase : Phrase} {rest : List Phrase}
    (h : ∀ other ∈ phrase :: rest, ∀ after, CanFollow after → CanStart (other.tokens ++ after))
    {after : List Token} (hafter : CanFollow after) :
    CanStart ((Sentence.commas phrase rest).tokens ++ after) := by
  induction rest generalizing phrase with
  | nil => exact h phrase (by simp) after hafter
  | cons next rest ih =>
    obtain ⟨hphrase, hrest⟩ := List.forall_mem_cons.1 h
    rw [Sentence.commas, Sentence.tokens, List.append_assoc]
    exact hphrase _ ((ih hrest).cons (.inl rfl))

/-- The levels below a node are levels of the tree. -/
theorem LevelAt.of_children {top level : List Node} {node : Node} {depth : Nat} (hnode : node ∈ top)
    (h : LevelAt node.children depth level) : LevelAt top (depth + 1) level := by
  induction h with
  | top => exact .children .top hnode
  | children _ hinner ih => exact .children ih hinner

/-- All names of a tree can be written without quotes. -/
def NamesWritable (top : List Node) : Prop :=
  ∀ depth level, LevelAt top depth level → ∀ node ∈ level, node.name.IsWritable

theorem NamesWritable.children {top : List Node} (h : NamesWritable top) {node : Node}
    (hnode : node ∈ top) : NamesWritable node.children :=
  fun _ _ hlevel => h _ _ (.of_children hnode hlevel)

/-- The names of a tree are those of its top, and those below each node. -/
theorem namesWritable_iff {top : List Node} :
    NamesWritable top ↔ ∀ node ∈ top, node.name.IsWritable ∧ NamesWritable node.children := by
  refine ⟨fun h node hnode => ⟨h 0 top .top node hnode, h.children hnode⟩, fun h => ?_⟩
  have hlevel : ∀ depth level, LevelAt top depth level →
      ∀ node ∈ level, node.name.IsWritable ∧ NamesWritable node.children := by
    intro depth level hlevel
    induction hlevel with
    | top => exact h
    | children _ hnode ih =>
      obtain ⟨-, hbelow⟩ := ih _ hnode
      exact fun inner hinner => ⟨hbelow 0 _ .top inner hinner, hbelow.children hinner⟩
  exact fun depth level hat node hnode => (hlevel depth level hat node hnode).1

theorem namesWritable_nil : NamesWritable [] :=
  namesWritable_iff.2 (by simp)

theorem namesWritable_cons {node : Node} {rest : List Node} :
    NamesWritable (node :: rest)
      ↔ node.name.IsWritable ∧ NamesWritable node.children ∧ NamesWritable rest := by
  rw [namesWritable_iff, List.forall_mem_cons, ← namesWritable_iff, and_assoc]

/-- The term of a node can start a text. -/
theorem Fits.canStart {room : Nat} {nodes : List Node} (h : Fits room nodes)
    (hnames : NamesWritable nodes) :
    ∀ phrase ∈ phrases nodes, ∀ after, CanFollow after → CanStart (phrase.tokens ++ after) := by
  induction h with
  | nil => simp [phrases]
  | @level room nodes _ _ ih =>
    rw [phrases_eq_map, List.forall_mem_map]
    intro node hnode after hafter
    have hname : node.name.IsWritable := hnames 0 nodes .top node hnode
    have hchildren := ih node hnode (hnames.children hnode)
    obtain ⟨name, negated, braced, emptyBlock, children⟩ := node
    refine canStart_word hname.word ?_
    split
    · have hclose : CanFollow (.closeBrace :: after) := hafter.canStart.cons (.inr (.inr rfl))
      cases hphrases : phrases children with
      | nil => exact hclose.canStart.cons (.inr (.inl rfl))
      | cons phrase rest =>
        rw [hphrases] at hchildren
        rw [Block.commas, Block.tokens, List.append_assoc]
        exact (canStart_commas hchildren hclose).cons (.inr (.inl rfl))
    · exact hafter

/-- The text of a tree has the patterns of the tree, and no others. -/
theorem Fits.allCompile [Glob.Engine] {room : Nat} {nodes : List Node} (h : Fits room nodes)
    (hnames : NamesWritable nodes) (hcompiled : Compiled nodes) :
    ∀ phrase ∈ phrases nodes, Token.AllCompile phrase.tokens := by
  induction h with
  | nil => simp [phrases]
  | @level room nodes _ _ ih =>
    rw [phrases_eq_map, List.forall_mem_map]
    intro node hnode
    have hname : node.name.IsWritable := hnames 0 nodes .top node hnode
    obtain ⟨hcompiles, hbelow⟩ := compiled_iff.1 hcompiled node hnode
    have hchildren := ih node hnode (hnames.children hnode) hbelow
    obtain ⟨name, negated, braced, emptyBlock, children⟩ := node
    have hword : (Token.word name.label).compiles = true := by
      rw [Token.compiles_word, hname.ofWord]
      exact Option.isNone_iff_eq_none.2 hcompiles
    rw [phrase, Phrase.allCompile_word]
    refine ⟨hword, ?_⟩
    split
    · exact Block.allCompile_commas.2 hchildren
    · exact Token.allCompile_nil

/-! ## The text is as deep as the tree -/

mutual

/-- The term of a node has no group that could go on. -/
theorem greedy_phrase (node : Node) : node.phrase.greedy = node.phrase := by
  obtain ⟨name, negated, braced, emptyBlock, children⟩ := node
  rw [phrase, Phrase.greedy_word]
  congr 1
  split
  · rw [Block.greedy_commas, greedy_phrases children]
  · rfl

theorem greedy_phrases (nodes : List Node) :
    (phrases nodes).map Phrase.greedy = phrases nodes := by
  cases nodes with
  | nil => rfl
  | cons node rest => rw [phrases, List.map_cons, greedy_phrase node, greedy_phrases rest]

end

/-- The terms of a level take as many levels as it does. -/
theorem Fits.height_le {room : Nat} {nodes : List Node} (h : Fits room nodes) :
    ∀ phrase ∈ phrases nodes, phrase.height ≤ room := by
  induction h with
  | nil => simp [phrases]
  | @level room nodes _ _ ih =>
    rw [phrases_eq_map, List.forall_mem_map]
    intro node hnode
    have hchildren := ih node hnode
    obtain ⟨name, negated, braced, emptyBlock, children⟩ := node
    rw [phrase, Phrase.height_word, Nat.add_le_add_iff_right]
    split
    · exact Block.height_commas_le.2 hchildren
    · exact Nat.zero_le _

/-! ## The text is read as the tree -/

/-- Reading a level back leaves it in normal form. -/
theorem IsNormal.reread {nodes : List Node} (h : IsNormal nodes) : IsNormal (rereadAll nodes) := by
  rw [rereadAll_eq_map]
  refine ⟨?apart, ?wanted, ?formed⟩
  case apart =>
    refine h.apart.of_map ?_
    rw [List.map_map]
    exact List.map_congr_left fun node _ => by simp
  case wanted =>
    intro hne
    obtain ⟨node, hnode, hwanted⟩ := h.wanted (by simpa using hne)
    exact ⟨node.reread, List.mem_map_of_mem hnode, by simpa using hwanted⟩
  case formed =>
    rw [List.forall_mem_map]
    intro node hnode
    have hformed := h.formed node hnode
    refine ⟨by simpa using hformed.named, fun hne => ?_, fun hempty => ?_⟩
    · rw [braced_reread]
      exact hformed.braced fun hnil => hne (by simp [hnil, rereadAll])
    · rw [emptyBlock_reread, Bool.or_eq_true, Bool.and_eq_true, List.isEmpty_iff] at hempty
      obtain ⟨hbraced, hnil⟩ := hempty.elim hformed.empty id
      simp [hbraced, hnil, rereadAll]

/-- A node in normal form has an empty block, as it is read back, if it has a block and no
children. -/
theorem WellFormed.emptyBlock_reread {node : Node} (h : node.WellFormed) :
    node.reread.emptyBlock = (node.braced && node.children.isEmpty) := by
  rw [Node.emptyBlock_reread, Bool.or_eq_right_iff_imp]
  intro hempty
  obtain ⟨hbraced, hnil⟩ := h.empty hempty
  simp [hbraced, hnil]

/-- The term of a node is read as the node, if the terms of its children are read as these. -/
theorem WellFormed.nodes_phrase {node : Node} (h : node.WellFormed) (hname : node.name.IsWritable)
    (hchildren : Term.nodesAll ((phrases node.children).map Phrase.term)
      = rereadAll node.children) (hnormal : IsNormal node.children) :
    node.phrase.term.nodes = [node.reread] := by
  obtain ⟨name, negated, braced, emptyBlock, children⟩ := node
  have hempty : (emptyBlock || (braced && children.isEmpty)) = (braced && children.isEmpty) :=
    h.emptyBlock_reread
  rw [phrase, Phrase.nodes_word, hname.ofWord, h.named, reread, hempty]
  cases braced with
  | false =>
    obtain rfl : children = [] := by
      by_contra hne
      exact Bool.false_ne_true (h.braced hne)
    rfl
  | true =>
    have hlevel : Node.level (rereadAll children) = rereadAll children :=
      level_of_isNormal hnormal.reread
    simp only [Bool.not_false, Bool.and_self, if_true, Block.terms?_commas, Term.blockLevel,
      hchildren, hlevel]
    cases children <;> rfl

/-- **The terms of a level are read as its nodes.** -/
theorem Fits.nodesAll {room : Nat} {nodes : List Node} (h : Fits room nodes)
    (hnames : NamesWritable nodes) :
    Term.nodesAll ((phrases nodes).map Phrase.term) = rereadAll nodes := by
  induction h with
  | nil => rfl
  | @level room nodes hnormal hbelow ih =>
    have hnodes : ∀ node ∈ nodes, node.phrase.term.nodes = [node.reread] := fun node hnode =>
      (hnormal.formed node hnode).nodes_phrase (hnames 0 nodes .top node hnode)
        (ih node hnode (hnames.children hnode)) (hbelow node hnode).isNormal
    rw [phrases_eq_map, rereadAll_eq_map, List.map_map, Term.nodesAll_eq_flatMap,
      List.flatMap_map, List.map_eq_flatMap]
    exact List.flatMap_congr hnodes

end Node

/-! ## An expression -/

/-- The text of nodes is cut into the tokens of their terms. -/
theorem Node.tokens_renderAll {room : Nat} {node : Node} {rest : List Node}
    (h : Node.Fits room (node :: rest)) (hnames : Node.NamesWritable (node :: rest)) :
    Expression.tokens (Node.renderAll (node :: rest))
      = .ok (Sentence.commas node.phrase (phrases rest)).tokens := by
  have hlegible := canStart_commas (h.canStart hnames) canFollow_nil none fun _ => rfl
  rw [List.append_nil] at hlegible
  obtain ⟨lexemes, hscan, hlexemes⟩ := Token.scan_compact hlegible
  have htext : (Sentence.commas node.phrase (phrases rest)).tokens.flatMap (Token.write '\x22')
      = (Node.renderAll (node :: rest)).toList := by
    rw [← written, Sentence.tokens_commas, written_append, write_phrase, write_rest, renderAll,
      String.toList_append]
  rw [Expression.tokens, ← htext, hscan, ← hlexemes]
  rfl

/-- **An expression is read back from its text.**  If all names of an accepted filter text can be
written without quotes, then the text that the expression is displayed as is accepted, and it is
read as the same nodes, apart from empty blocks: a node that has a block and no children has an
empty one. -/
theorem Expression.parse_render [Glob.Engine] {source : String} {expression : Expression}
    (h : Expression.parse source = .ok expression)
    (hnames : Node.NamesWritable expression.nodes) :
    Expression.parse expression.render
      = .ok ⟨expression.render, Node.rereadAll expression.nodes⟩ := by
  obtain ⟨source', nodes⟩ := expression
  have hfits : Node.Fits Term.depthLimit nodes := Expression.fits_of_parse h
  cases nodes with
  | nil => exact parse_of_isAllBlank rfl
  | cons node rest =>
    have hgreedy : (Sentence.commas node.phrase (Node.phrases rest)).greedy
        = Sentence.commas node.phrase (Node.phrases rest) := by
      rw [Sentence.greedy_commas, Node.greedy_phrase, Node.greedy_phrases]
    have hheight : (Sentence.commas node.phrase (Node.phrases rest)).height ≤ Term.depthLimit :=
      (Sentence.height_commas_le ..).2 hfits.height_le
    have hcompiles : Token.AllCompile (Sentence.commas node.phrase (Node.phrases rest)).tokens :=
      Sentence.allCompile_commas.2 (hfits.allCompile hnames (compiled_of_parse h))
    have hnodes : Term.nodesAll (Sentence.commas node.phrase (Node.phrases rest)).terms
        = Node.rereadAll (node :: rest) := by
      rw [Sentence.terms_commas]
      exact hfits.nodesAll hnames
    refine parse_of_nodes? ?_
    rw [Expression.render, nodes?_of_tokens (Node.tokens_renderAll hfits hnames),
      Sentence.nodes?, hgreedy, if_pos ⟨hcompiles, hheight⟩, Term.level, hnodes,
      Node.level_of_isNormal hfits.isNormal.reread]

/-- A filter text with two terms for each of two names. -/
def orderAndTags : String :=
  "order\x7bid|-note\x7d,tags,tags\x7b\x7d,order.item.sku"

/-- What the text is read as.  One of the two terms for the tags has an empty block. -/
def orderAndTagsNodes (emptyBlock : Bool) : List Node :=
  [⟨.exact "order", false, true, false,
      [.leaf (.exact "id"), ⟨.exact "note", true, false, false, []⟩,
        ⟨.exact "item", false, true, false, [.leaf (.exact "sku")]⟩]⟩,
    ⟨.exact "tags", false, true, emptyBlock, []⟩]

/-- The merged names are read back, and the block of the tags is read as an empty one. -/
theorem Expression.parse_orderAndTags :
    Expression.parse orderAndTags = .ok ⟨orderAndTags, orderAndTagsNodes false⟩
      ∧ Node.NamesWritable (orderAndTagsNodes false)
      ∧ Expression.parse "order\x7bid,-note,item\x7bsku\x7d\x7d,tags\x7b\x7d"
        = .ok ⟨"order\x7bid,-note,item\x7bsku\x7d\x7d,tags\x7b\x7d", orderAndTagsNodes true⟩ := by
  have hparse : Expression.parse orderAndTags = .ok ⟨orderAndTags, orderAndTagsNodes false⟩ := by
    decide +kernel
  have hbare : ∀ text ∈ ["order", "id", "note", "item", "sku", "tags"], Name.IsBare text := by
    decide +kernel
  have hwritable := fun text htext => Name.isWritable_exact (hbare text htext)
  have hnames : Node.NamesWritable (orderAndTagsNodes false) := by
    simp [orderAndTagsNodes, Node.leaf, Node.namesWritable_cons, Node.namesWritable_nil, hwritable]
  have hrender : (Expression.mk orderAndTags (orderAndTagsNodes false)).render
      = "order\x7bid,-note,item\x7bsku\x7d\x7d,tags\x7b\x7d" := by decide +kernel
  exact ⟨hparse, hnames, hrender ▸ Expression.parse_render hparse hnames⟩

end FieldFilter
