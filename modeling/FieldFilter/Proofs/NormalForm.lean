import FieldFilter.Proofs.Acceptance

/-!
# The normal form of an expression

Nodes are put together in several ways: a group gives one node per selector, a dotted selector is
built from the inside out, a block is shared by all names of its group, and nodes that ask for the
same name are merged, which brings their children together in turn.  Whatever the way, each level of
the tree that comes out is in normal form.

**The invariant.**  `Node.Fits room level` says that a level and all below it are in normal form and
that there are no more than `room` of them.  It speaks of the number of levels as well because that
is what merging recurs on: the children of merged nodes take one level less.

* `Node.IsNormal` — the normal form of a level;
* `Node.LevelAt` — the levels of a tree;
* **`Node.insert_cases`** — what becomes of a level when a node is merged in;
* `Node.mergesWithin`, `Node.fits_level` — merging keeps the invariant, and `Node.level` restores it;
* `Node.level_of_isNormal` — normal form is reached at once;
* `Sentence.fits` — the tree of a sentence takes as many levels as the sentence;
* **`Expression.isNormal_of_parse`** — the expression of a text is in normal form.
-/

namespace FieldFilter

namespace Node

/-! ## Normal form -/

/-- The form of a node regardless of its siblings: it has a block if it has children, and an empty
block has none. -/
structure WellFormed (node : Node) : Prop where
  named : node.name.isView = false
  braced : node.children ≠ [] → node.braced = true
  empty : node.emptyBlock = true → node.braced = true ∧ node.children = []

/-- No two nodes that are not negated ask for the same name. -/
def Apart (level : List Node) : Prop :=
  level.Pairwise fun node other =>
    node.negated = false → other.negated = false → node.name ≠ other.name

/-- A level is in normal form. -/
structure IsNormal (level : List Node) : Prop where
  apart : Apart level
  wanted : level ≠ [] → ∃ node ∈ level, node.negated = false
  formed : ∀ node ∈ level, node.WellFormed

/-- The levels of a tree: its top, and the children of each node of a level. -/
inductive LevelAt (top : List Node) : Nat → List Node → Prop where
  | top : LevelAt top 0 top
  | children {depth : Nat} {level : List Node} {node : Node} (h : LevelAt top depth level)
    (hnode : node ∈ level) : LevelAt top (depth + 1) node.children

/-- A level and all below it are in normal form, and there are no more than `room` of them. -/
inductive Fits : Nat → List Node → Prop where
  | nil {room : Nat} : Fits room []
  | level {room : Nat} {level : List Node} (hnormal : IsNormal level)
    (hbelow : ∀ node ∈ level, Fits room node.children) : Fits (room + 1) level

/-- A node can stand on a level that has `room` levels below it. -/
structure Fit (room : Nat) (node : Node) : Prop where
  formed : node.WellFormed
  below : Fits room node.children

/-- A level that may still lack a node that is not negated. -/
structure Gathered (room : Nat) (level : List Node) : Prop where
  apart : Apart level
  fit : ∀ node ∈ level, node.Fit room

theorem Fits.isNormal {room : Nat} {level : List Node} (h : Fits room level) : IsNormal level := by
  cases h with
  | nil => exact ⟨.nil, by simp, by simp⟩
  | level hnormal => exact hnormal

theorem Fits.mono {room more : Nat} {level : List Node} (h : Fits room level)
    (hmore : room ≤ more) : Fits more level := by
  induction h generalizing more with
  | nil => exact .nil
  | level hnormal _ ih =>
    cases more with
    | zero => omega
    | succ more => exact .level hnormal fun node hnode => ih node hnode (by omega)

theorem Fit.mono {room more : Nat} {node : Node} (h : node.Fit room) (hmore : room ≤ more) :
    node.Fit more :=
  ⟨h.formed, h.below.mono hmore⟩

theorem Fits.gathered {room : Nat} {level : List Node} (h : Fits (room + 1) level) :
    Gathered room level := by
  cases h with
  | nil => exact ⟨.nil, by simp⟩
  | level hnormal hbelow =>
    exact ⟨hnormal.apart, fun node hnode => ⟨hnormal.formed node hnode, hbelow node hnode⟩⟩

/-- Every level of a tree that fits is in normal form, and it lies as deep as there is room. -/
theorem Fits.levelAt {room depth : Nat} {top level : List Node} (h : Fits room top)
    (hlevel : LevelAt top depth level) :
    Fits (room - depth) level ∧ (level ≠ [] → depth < room) := by
  have hfits : Fits (room - depth) level := by
    induction hlevel with
    | top => exact h
    | @children depth level node _ hnode ih =>
      generalize hleft : room - depth = left at ih
      cases ih with
      | nil => simp at hnode
      | @level below _ _ hbelow =>
        have hless : room - (depth + 1) = below := by omega
        rw [hless]
        exact hbelow node hnode
  refine ⟨hfits, fun hne => ?_⟩
  by_contra hdeep
  rw [Nat.sub_eq_zero_of_le (Nat.not_lt.1 hdeep)] at hfits
  cases hfits
  exact hne rfl

/-! ## Merging -/

/-- The node that takes another one in. -/
def merged (target node : Node) : Node :=
  { target with
    children := complete (insertAll node.children target.children)
    emptyBlock := target.emptyBlock && node.emptyBlock
    braced := target.braced || node.braced }

/-- **What becomes of a level when a node is merged in:** it goes to the end, or a sibling that asks
for the same name takes it in. -/
theorem insert_cases (node : Node) (level : List Node) :
    (insert node level = level ++ [node]
        ∧ (node.negated = false → ∀ other ∈ level, takesIn node.name other = false))
      ∨ ∃ before target after, level = before ++ target :: after ∧ node.negated = false
          ∧ takesIn node.name target = true
          ∧ insert node level = before ++ target.merged node :: after := by
  obtain ⟨name, negated, braced, emptyBlock, children⟩ := node
  cases negated with
  | true => exact .inl ⟨insert_of_negated rfl level, by simp⟩
  | false =>
    cases hfound : level.findIdx? (takesIn name) with
    | none =>
      refine .inl ⟨by simp [insert, hfound], fun _ => ?_⟩
      exact List.findIdx?_eq_none_iff.1 hfound
    | some i =>
      obtain ⟨hlt, htakes, -⟩ := List.findIdx?_eq_some_iff_getElem.1 hfound
      obtain ⟨before, target, after, rfl, rfl, hmodify⟩ :=
        List.exists_of_modify (merged · ⟨name, false, braced, emptyBlock, children⟩) hlt
      have htarget : takesIn name target = true := by simpa using htakes
      refine .inr ⟨before, target, after, rfl, rfl, htarget, ?_⟩
      simp only [insert, hfound, Bool.false_eq_true, if_false]
      exact hmodify

/-- Whether nodes are apart depends on their names and signs only. -/
theorem Apart.of_map {level other : List Node} (h : Apart level)
    (hsame : other.map (fun node => (node.name, node.negated))
      = level.map fun node => (node.name, node.negated)) : Apart other := by
  let differ : Name × Bool → Name × Bool → Prop := fun key key' =>
    key.2 = false → key'.2 = false → key.1 ≠ key'.1
  have hkeys : (level.map fun node => (node.name, node.negated)).Pairwise differ :=
    List.pairwise_map.2 h
  rw [← hsame] at hkeys
  exact List.pairwise_map.1 hkeys

section Merge

variable {room : Nat}

/-- A node that takes another one in can stand where it stood. -/
theorem Fit.merged {target node : Node} (htarget : target.Fit room) (hnode : node.Fit room)
    (hchildren : Fits room (complete (insertAll node.children target.children))) :
    (target.merged node).Fit room := by
  refine ⟨⟨htarget.formed.named, ?braced, ?empty⟩, hchildren⟩
  case braced =>
    -- merged children come from one of the two nodes, and that one has a block
    intro hne
    simp only [Node.merged, Bool.or_eq_true] at hne ⊢
    by_cases htargetNil : target.children = []
    · refine .inr (hnode.formed.braced fun hnodeNil => hne ?_)
      rw [htargetNil, hnodeNil]
      rfl
    · exact .inl (htarget.formed.braced htargetNil)
  case empty =>
    intro hempty
    simp only [Node.merged, Bool.and_eq_true] at hempty ⊢
    obtain ⟨hbraced, htargetNil⟩ := htarget.formed.empty hempty.1
    obtain ⟨-, hnodeNil⟩ := hnode.formed.empty hempty.2
    rw [htargetNil, hnodeNil]
    exact ⟨by simp [hbraced], rfl⟩

/-- Completing a level brings it into normal form. -/
theorem Gathered.fits_complete {level : List Node} (h : Gathered room level) :
    Fits (room + 1) (complete level) := by
  unfold complete
  split
  · next hnegated =>
    simp only [Bool.and_eq_true, List.all_eq_true] at hnegated
    have hapart : Apart (everything :: level) := by
      refine List.pairwise_cons.2 ⟨fun other hother _ hwanted => ?_, h.apart⟩
      simp [hnegated.2 other hother] at hwanted
    have hfit : ∀ node ∈ everything :: level, node.Fit room := by
      rintro node (_ | ⟨_, hnode⟩)
      · exact ⟨⟨rfl, by simp [everything, leaf], by simp [everything, leaf]⟩, .nil⟩
      · exact h.fit node hnode
    exact .level ⟨hapart, fun _ => ⟨everything, by simp, rfl⟩, fun node hnode =>
      (hfit node hnode).formed⟩ fun node hnode => (hfit node hnode).below
  · next hwanted =>
    refine .level ⟨h.apart, fun hne => ?_, fun node hnode => (h.fit node hnode).formed⟩
      fun node hnode => (h.fit node hnode).below
    simpa [List.isEmpty_iff, hne] using hwanted

/-- A node that no sibling takes in can go to the end. -/
theorem Gathered.concat {node : Node} {level : List Node} (h : Gathered room level)
    (hnode : node.Fit room)
    (hnone : node.negated = false → ∀ other ∈ level, takesIn node.name other = false) :
    Gathered room (level ++ [node]) := by
  refine ⟨List.pairwise_append.2 ⟨h.apart, List.pairwise_singleton .., ?_⟩, ?_⟩
  · intro other hother last hlast hother' hlast'
    obtain rfl := List.mem_singleton.1 hlast
    simpa [takesIn, hother'] using hnone hlast' other hother
  · intro other hother
    rcases List.mem_append.1 hother with hother | hother
    · exact h.fit other hother
    · obtain rfl := List.mem_singleton.1 hother
      exact hnode

/-- A node that takes another one in stays where it is. -/
theorem Gathered.replace {target node : Node} {before after : List Node}
    (h : Gathered room (before ++ target :: after)) (hmerged : (target.merged node).Fit room) :
    Gathered room (before ++ target.merged node :: after) := by
  refine ⟨h.apart.of_map (by simp [merged]), fun other hother => ?_⟩
  rcases List.mem_append.1 hother with hbefore | (_ | ⟨_, hafter⟩)
  · exact h.fit other (by simp [hbefore])
  · exact hmerged
  · exact h.fit other (List.mem_append.2 (.inr (.tail _ hafter)))

/-- Merging levels keeps the invariant, as far as they take no more than `room` levels. -/
def MergesWithin (room : Nat) : Prop :=
  ∀ children others, Fits room children → Fits room others →
    Fits room (complete (insertAll children others))

/-- A node that is merged into a level leaves it gathered. -/
theorem Gathered.insert {node : Node} {level : List Node} (h : Gathered room level)
    (hmerge : MergesWithin room) (hnode : node.Fit room) :
    Gathered room (node.insert level) := by
  rcases insert_cases node level with ⟨hinsert, hnone⟩ | ⟨before, target, after, rfl, -, -, hinsert⟩
  · rw [hinsert]
    exact h.concat hnode hnone
  · have htarget : target.Fit room := h.fit target (by simp)
    rw [hinsert]
    exact h.replace (htarget.merged hnode (hmerge _ _ hnode.below htarget.below))

/-- Nodes that are merged into a level one after another leave it gathered. -/
theorem Gathered.insertAll {nodes level : List Node} (h : Gathered room level)
    (hmerge : MergesWithin room) (hnodes : ∀ node ∈ nodes, node.Fit room) :
    Gathered room (Node.insertAll nodes level) := by
  induction nodes generalizing level with
  | nil => simpa [Node.insertAll] using h
  | cons node rest ih =>
    obtain ⟨hnode, hrest⟩ := List.forall_mem_cons.1 hnodes
    rw [Node.insertAll]
    exact ih (h.insert hmerge hnode) hrest

/-- **Merging levels keeps the invariant.**  The children of merged nodes are merged in turn, with
one level less to take, and this is what the induction is on. -/
theorem mergesWithin (room : Nat) : MergesWithin room := by
  induction room with
  | zero =>
    intro children others h hothers
    cases h
    cases hothers
    exact .nil
  | succ room ih =>
    intro children others h hothers
    exact (hothers.gathered.insertAll ih h.gathered.fit).fits_complete

/-- **The normal form of nodes takes one level more than there is below them.** -/
theorem fits_level {nodes : List Node} (h : ∀ node ∈ nodes, node.Fit room) :
    Fits (room + 1) (level nodes) := by
  have hempty : Gathered room [] := ⟨.nil, by simp⟩
  exact (hempty.insertAll (mergesWithin room) h).fits_complete

/-- Nodes that ask for other names than a level and each other go to its end. -/
theorem insertAll_of_apart {nodes level : List Node} (h : Apart (level ++ nodes)) :
    Node.insertAll nodes level = level ++ nodes := by
  induction nodes generalizing level with
  | nil => simp [Node.insertAll]
  | cons node rest ih =>
    have hinsert : node.insert level = level ++ [node] := by
      rcases insert_cases node level with hlast | ⟨before, target, after, rfl, hwanted, htakes, -⟩
      · exact hlast.1
      · simp only [takesIn, Bool.and_eq_true, Bool.not_eq_true', beq_iff_eq] at htakes
        have hother := (List.pairwise_append.1 h).2.2 target (by simp) node (by simp)
        exact absurd htakes.2 (hother htakes.1 hwanted)
    have hmoved : level ++ node :: rest = level ++ [node] ++ rest := by simp
    rw [hmoved] at h ⊢
    rw [Node.insertAll, hinsert, ih h]

/-- **A level in normal form is its own normal form.** -/
theorem level_of_isNormal {nodes : List Node} (h : IsNormal nodes) : level nodes = nodes := by
  rw [level, insertAll_of_apart (by simpa using h.apart), List.nil_append, complete]
  refine if_neg fun hnegated => ?_
  simp only [Bool.and_eq_true, Bool.not_eq_true', List.isEmpty_eq_false_iff, List.all_eq_true]
    at hnegated
  obtain ⟨node, hnode, hwanted⟩ := h.wanted hnegated.1
  simp [hnegated.2 node hnode] at hwanted

/-- The children of merged nodes are the normal form of all their children. -/
theorem children_merged {target node : Node} (h : IsNormal target.children) :
    (target.merged node).children = level (target.children ++ node.children) := by
  have htarget : Node.insertAll target.children [] = target.children :=
    insertAll_of_apart (by simpa using h.apart)
  rw [level, insertAll_append, htarget, merged]

/-- A dotted selector takes one level per segment. -/
theorem fit_selectorNode {parents : List Name} {target : Node}
    (hparents : ∀ name ∈ parents, name.isView = false) (htarget : target.Fit room) :
    (Selector.node parents target).Fit (room + parents.length) := by
  induction parents with
  | nil => exact htarget
  | cons name parents ih =>
    rw [List.forall_mem_cons] at hparents
    have hinner : Fits (room + parents.length + 1) (level [Selector.node parents target]) :=
      fits_level (by simpa using ih hparents.2)
    exact ⟨⟨hparents.1, fun _ => rfl, by simp [Selector.node]⟩, hinner⟩

end Merge

end Node

/-! ## Trees of sentences -/

/-- No name of a text is the label of a view. -/
theorem Segment.isView_name (segment : Segment) : segment.name.isView = false := by
  cases segment with
  | word text =>
    rw [name, Name.ofWord]
    split_ifs <;> rfl
  | quoted text => rfl

/-- No name of a selector is the label of a view. -/
structure Selector.IsViewless (selector : Selector) : Prop where
  parents : ∀ name ∈ selector.parents, name.isView = false
  target : selector.target.isView = false

theorem Dotted.isViewless_extend {selector : Selector} (h : selector.IsViewless)
    (more : List Segment) : (extend selector more).IsViewless := by
  induction more generalizing selector with
  | nil => exact h
  | cons segment more ih =>
    refine ih ⟨fun name hname => ?_, segment.isView_name⟩
    rcases List.mem_append.1 hname with hname | hname
    · exact h.parents name hname
    · rw [List.mem_singleton.1 hname]
      exact h.target

theorem Dotted.isViewless_selector (dotted : Dotted) : dotted.selector.IsViewless :=
  isViewless_extend ⟨by simp, dotted.first.isView_name⟩ dotted.more

theorem Group.length_le_longest {group : Group} {dotted : Dotted} (h : dotted ∈ group.dotteds) :
    dotted.length ≤ group.longest := by
  have hall := (group.add_longest_le 0 group.longest).1 (by omega) dotted h
  omega

/-- A block says that it is empty only if nothing is written in it. -/
theorem Block.wellFormed (block : Block) {name : Name} (hname : name.isView = false)
    (negated : Bool) :
    Node.WellFormed ⟨name, negated, block.terms?.isSome, Term.isEmptyBlock block.terms?,
      Term.blockLevel block.terms?⟩ := by
  cases block with
  | absent => exact ⟨hname, by simp [terms?, Term.blockLevel], by simp [terms?, Term.isEmptyBlock]⟩
  | empty => exact ⟨hname, fun _ => rfl, fun _ => ⟨rfl, rfl⟩⟩
  | of inner =>
    refine ⟨hname, fun _ => rfl, ?_⟩
    cases inner <;> simp [terms?, Sentence.terms, Term.isEmptyBlock]

theorem Sentence.height_pos (sentence : Sentence) : 1 ≤ sentence.height := by
  have hphrase : ∀ phrase : Phrase, 1 ≤ phrase.height := by
    rintro ⟨negated, group, block⟩
    have hfirst : group.first.length ≤ group.longest :=
      Group.length_le_longest (List.mem_cons_self ..)
    rw [Dotted.length] at hfirst
    rw [Phrase.height]
    omega
  cases sentence with
  | last phrase =>
    rw [height]
    exact hphrase phrase
  | cons phrase bar rest =>
    have := hphrase phrase
    rw [height]
    omega

mutual

/-- The nodes of a term have a level less below them than the term takes. -/
theorem Phrase.fit (phrase : Phrase) {room : Nat} (hroom : phrase.height ≤ room + 1) :
    ∀ node ∈ phrase.term.nodes, node.Fit room := by
  rcases phrase with ⟨negated, group, block⟩
  rw [Phrase.height] at hroom
  rw [Phrase.term, Term.nodes, Group.selectors, List.map_map, List.forall_mem_map]
  intro dotted hdotted
  have hparents : dotted.selector.parents.length + 1 ≤ group.longest := by
    rw [← Selector.depth, dotted.depth_selector]
    exact Group.length_le_longest hdotted
  obtain ⟨hviews, htarget⟩ := dotted.isViewless_selector
  have hfit := Node.fit_selectorNode hviews ⟨block.wellFormed htarget negated, block.fits⟩
  exact hfit.mono (by omega)

/-- The level of a block fits in as many levels as the block takes. -/
theorem Block.fits (block : Block) : Node.Fits block.height (Term.blockLevel block.terms?) := by
  cases block with
  | absent => exact .nil
  | empty => exact .nil
  | of inner =>
    obtain ⟨room, hroom⟩ := Nat.exists_eq_add_of_le' inner.height_pos
    rw [Block.height, Block.terms?, Term.blockLevel, hroom]
    exact Node.fits_level (inner.fit (Nat.le_of_eq hroom))

theorem Sentence.fit (sentence : Sentence) {room : Nat} (hroom : sentence.height ≤ room + 1) :
    ∀ node ∈ Term.nodesAll sentence.terms, node.Fit room := by
  cases sentence with
  | last phrase =>
    rw [Sentence.height] at hroom
    simpa [Sentence.terms, Term.nodesAll] using phrase.fit hroom
  | cons phrase bar rest =>
    rw [Sentence.height] at hroom
    rw [Sentence.terms, Term.nodesAll, List.forall_mem_append]
    exact ⟨phrase.fit (by omega), rest.fit (by omega)⟩

end

/-- **The tree of a sentence is in normal form**, and it takes no more levels than the sentence. -/
theorem Sentence.fits (sentence : Sentence) :
    Node.Fits sentence.height (Term.level sentence.terms) := by
  have hfits := (Block.of sentence).fits
  rwa [Block.height, Block.terms?, Term.blockLevel] at hfits

/-- The expression of a text fits in as many levels as there are. -/
theorem Expression.fits_of_parse [Glob.Engine] {source : String} {expression : Expression}
    (h : Expression.parse source = .ok expression) :
    Node.Fits Term.depthLimit expression.nodes := by
  rw [Expression.parse] at h
  split at h
  · simp at h
  · next terms hterms =>
    simp only [Except.ok.injEq] at h
    subst h
    rw [Expression.terms] at hterms
    split at hterms
    · simp at hterms
    · simp only [Except.ok.injEq] at hterms
      subst hterms
      exact .nil
    · obtain ⟨-, sentence, hsentence⟩ := Term.exists_of_read hterms
      have hread := sentence.toOption_read hsentence source.toList.length
      rw [hterms] at hread
      split at hread
      · next hreads =>
        simp only [Except.toOption, Option.some.injEq] at hread
        rw [hread]
        exact sentence.greedy.fits.mono hreads.2
      · simp [Except.toOption] at hread

/-- **The expression of a text is in normal form**, at each level of its tree, and no level with
nodes lies deeper than the limit. -/
theorem Expression.isNormal_of_parse [Glob.Engine] {source : String} {expression : Expression}
    (h : Expression.parse source = .ok expression) {depth : Nat} {level : List Node}
    (hlevel : Node.LevelAt expression.nodes depth level) :
    Node.IsNormal level ∧ (level ≠ [] → depth < Term.depthLimit) := by
  obtain ⟨hfits, hdepth⟩ := (Expression.fits_of_parse h).levelAt hlevel
  exact ⟨hfits.isNormal, hdepth⟩

/-- A filter text with two blocks for one name. -/
def ownerTwice : String :=
  "owner.id,-tags\x7b\x7d,owner\x7b-mail\x7d"

/-- The two blocks of one name become one.  The wildcard that the second one starts from stays. -/
def mergedOwner : Node :=
  ⟨.exact "owner", false, true, false,
    [Node.leaf (.exact "id"), Node.everything, ⟨.exact "mail", true, false, false, []⟩]⟩

/-- The second level of an expression whose blocks met. -/
theorem Expression.isNormal_mergedOwner :
    Expression.parse ownerTwice
        = .ok ⟨ownerTwice, [mergedOwner, ⟨.exact "tags", true, true, true, []⟩]⟩
      ∧ Node.IsNormal mergedOwner.children ∧ (mergedOwner.children ≠ [] → 1 < Term.depthLimit) := by
  have hparse : Expression.parse ownerTwice
      = .ok ⟨ownerTwice, [mergedOwner, ⟨.exact "tags", true, true, true, []⟩]⟩ := by
    decide +kernel
  exact ⟨hparse, Expression.isNormal_of_parse hparse (.children .top (by simp))⟩

end FieldFilter
