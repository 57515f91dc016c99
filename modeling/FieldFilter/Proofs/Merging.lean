import FieldFilter.Proofs.Meaning
import FieldFilter.Proofs.NormalForm

/-!
# Merging in parts

Nodes that ask for the same name are merged, one after another.  It does not matter in which parts:
the nodes of two levels can be merged into a third one by one, or after they were merged with each
other.  What does matter is completing: a level that only takes away gets a wildcard, and once it
has one, it keeps it.

**Merging** is told by `Node.insertAll_insertAll`.  A node is either put at the end or changes the
one node that takes it in (`Node.insert_of_finds`), and the order in which two nodes of a level are
changed does not matter.  For the children of a node this is the same fact, one level down, so the
induction is on the room below, as in `Node.Fits`.

**Completing** is told by `Node.level_append_level_iff`: two lists of nodes that were brought into
normal form each for itself merge into the normal form of all nodes, unless one of them has got a
wildcard that the other makes needless.

* **`Expression.nodes?_twoBlocks_iff`** — when two blocks for one name are one block.
* `Expression.nodes?_noteOrId_ne` — they are not if just one of them only takes away.
-/

namespace FieldFilter

namespace Node

/-! ## One node is merged in -/

/-- Whether a node of a level takes another one in. -/
def Finds (node : Node) (level : List Node) : Prop :=
  node.negated = false ∧ ∃ target ∈ level, takesIn node.name target = true

/-- What becomes of a node of a level when another node is merged in. -/
def absorb (node target : Node) : Node :=
  if !node.negated && takesIn node.name target then target.merged node else target

theorem takesIn_iff {name : Name} {node : Node} :
    takesIn name node = true ↔ node.negated = false ∧ node.name = name := by
  simp [takesIn]

@[simp]
theorem name_absorb (node target : Node) : (node.absorb target).name = target.name := by
  rw [absorb]
  split <;> rfl

@[simp]
theorem negated_absorb (node target : Node) : (node.absorb target).negated = target.negated := by
  rw [absorb]
  split <;> rfl

@[simp]
theorem takesIn_absorb (name : Name) (node target : Node) :
    takesIn name (node.absorb target) = takesIn name target := by
  simp [takesIn]

/-- Which nodes a level takes in does not change when it takes in another one. -/
theorem finds_map_absorb {node other : Node} {level : List Node} :
    Finds node (level.map other.absorb) ↔ Finds node level := by
  simp [Finds]

/-- Beside a node that takes a name in there is no other. -/
theorem Apart.takesIn_eq_false {before after : List Node} {target : Node} {name : Name}
    (h : Apart (before ++ target :: after)) (htakes : takesIn name target = true) :
    ∀ other ∈ before ++ after, takesIn name other = false := by
  have hmiddle := (List.pairwise_middle fun hnames hwanted hwanted' =>
    (hnames hwanted' hwanted).symm).1 h
  intro other hother
  rw [Bool.eq_false_iff]
  intro htakes'
  rw [takesIn_iff] at htakes htakes'
  exact (List.pairwise_cons.1 hmiddle).1 other hother htakes.1 htakes'.1
    (htakes.2.trans htakes'.2.symm)

/-- No two nodes of a level take the same name in. -/
theorem Apart.eq_of_takesIn {level : List Node} (h : Apart level) {name : Name}
    {target other : Node} (htarget : target ∈ level) (hother : other ∈ level)
    (htakes : takesIn name target = true) (htakes' : takesIn name other = true) :
    other = target := by
  obtain ⟨before, after, rfl⟩ := List.append_of_mem htarget
  rw [List.mem_append, List.mem_cons, or_left_comm] at hother
  rcases hother with hsame | hother
  · exact hsame
  · simp [h.takesIn_eq_false htakes other (List.mem_append.2 hother)] at htakes'

theorem insert_of_not_finds {node : Node} {level : List Node} (h : ¬ Finds node level) :
    node.insert level = level ++ [node] := by
  rcases insert_cases node level with hlast | ⟨before, target, after, rfl, hwanted, htakes, -⟩
  · exact hlast.1
  · exact absurd ⟨hwanted, target, by simp, htakes⟩ h

theorem absorb_of_takesIn {node target : Node} (hwanted : node.negated = false)
    (htakes : takesIn node.name target = true) : node.absorb target = target.merged node := by
  simp [absorb, hwanted, htakes]

theorem absorb_of_not_takesIn {node target : Node} (htakes : takesIn node.name target = false) :
    node.absorb target = target := by
  simp [absorb, htakes]

/-- **A level changes at the node that takes another one in**, and nowhere else. -/
theorem insert_of_finds {node : Node} {level : List Node} (hapart : Apart level)
    (h : Finds node level) : node.insert level = level.map node.absorb := by
  rcases insert_cases node level with
    ⟨-, hnone⟩ | ⟨before, target, after, rfl, hwanted, htakes, hinsert⟩
  · obtain ⟨hwanted, target, htarget, htakes⟩ := h
    simp [hnone hwanted target htarget] at htakes
  · have hothers := hapart.takesIn_eq_false htakes
    have hbefore : before.map node.absorb = before :=
      (List.map_congr_left fun other hother =>
        absorb_of_not_takesIn (hothers other (by simp [hother]))).trans (List.map_id before)
    have hafter : after.map node.absorb = after :=
      (List.map_congr_left fun other hother =>
        absorb_of_not_takesIn (hothers other (by simp [hother]))).trans (List.map_id after)
    rw [hinsert, List.map_append, List.map_cons, hbefore, hafter, absorb_of_takesIn hwanted htakes]

theorem Apart.insert {level : List Node} (h : Apart level) (node : Node) :
    Apart (node.insert level) := by
  by_cases hfinds : Finds node level
  · rw [insert_of_finds h hfinds]
    exact h.of_map (by simp [Function.comp_def])
  · rw [insert_of_not_finds hfinds]
    refine List.pairwise_append.2 ⟨h, List.pairwise_singleton .., ?_⟩
    intro other hother last hlast hwanted hwanted' hname
    obtain rfl := List.mem_singleton.1 hlast
    exact hfinds ⟨hwanted', other, hother, takesIn_iff.2 ⟨hwanted, hname⟩⟩

/-- What a level takes in, it takes in as well after another node was merged into it. -/
theorem Finds.insert {node : Node} {level : List Node} (h : Finds node level)
    (hapart : Apart level) (other : Node) : Finds node (other.insert level) := by
  by_cases hother : Finds other level
  · rw [insert_of_finds hapart hother]
    exact finds_map_absorb.2 h
  · obtain ⟨hwanted, target, htarget, htakes⟩ := h
    rw [insert_of_not_finds hother]
    exact ⟨hwanted, target, by simp [htarget], htakes⟩

/-- Nodes of different names do not change the same node. -/
theorem absorb_comm {node other : Node} (hnames : other.negated = false → other.name ≠ node.name)
    (target : Node) : node.absorb (other.absorb target) = other.absorb (node.absorb target) := by
  cases htakes : takesIn node.name target with
  | false =>
    rw [absorb_of_not_takesIn htakes, absorb_of_not_takesIn (by rw [takesIn_absorb, htakes])]
  | true =>
    have hother : ∀ target : Node, target.name = node.name → other.absorb target = target := by
      intro target htarget
      rw [absorb, if_neg]
      simp only [Bool.and_eq_true, Bool.not_eq_true', takesIn_iff, not_and]
      exact fun hwanted _ hname => hnames hwanted (hname.symm.trans htarget)
    have htarget := (takesIn_iff.1 htakes).2
    rw [hother target htarget, hother _ (by rw [name_absorb, htarget])]

/-- **Nodes of different names are merged into a level in any order**, if one of them finds its
place there. -/
theorem insert_comm {node other : Node} {level : List Node} (hapart : Apart level)
    (hfinds : Finds node level) (hnames : other.negated = false → other.name ≠ node.name) :
    node.insert (other.insert level) = other.insert (node.insert level) := by
  rw [insert_of_finds (hapart.insert other) (hfinds.insert hapart other)]
  by_cases hother : Finds other level
  · have hafter : Apart (level.map node.absorb) := by
      rw [← insert_of_finds hapart hfinds]
      exact hapart.insert node
    rw [insert_of_finds hapart hother, insert_of_finds hapart hfinds,
      insert_of_finds hafter (finds_map_absorb.2 hother), List.map_map, List.map_map]
    exact List.map_congr_left fun target _ => absorb_comm hnames target
  · have hlast : node.absorb other = other := by
      rw [absorb, if_neg]
      simp only [Bool.and_eq_true, takesIn_iff, not_and]
      exact fun _ hwanted hname => hnames hwanted hname
    rw [insert_of_not_finds hother, insert_of_finds hapart hfinds,
      insert_of_not_finds (mt finds_map_absorb.1 hother), List.map_append, List.map_singleton,
      hlast]

/-- A node that is taken in can be merged in before or after the nodes of other names. -/
theorem insert_insertAll_comm {node : Node} {nodes level : List Node} (hapart : Apart level)
    (hfinds : Finds node level)
    (hnames : ∀ other ∈ nodes, other.negated = false → other.name ≠ node.name) :
    node.insert (insertAll nodes level) = insertAll nodes (node.insert level) := by
  induction nodes generalizing level with
  | nil => rw [insertAll, insertAll]
  | cons other rest ih =>
    obtain ⟨hother, hrest⟩ := List.forall_mem_cons.1 hnames
    rw [insertAll, insertAll, ih (hapart.insert other) (hfinds.insert hapart other) hrest,
      insert_comm hapart hfinds hother]

/-- A level takes in what asks for the same name as a node that was merged into it. -/
theorem finds_insert {node target : Node} (hwanted : node.negated = false)
    (htakes : takesIn node.name target = true) {level : List Node} (hapart : Apart level) :
    Finds node (target.insert level) := by
  obtain ⟨htarget, hname⟩ := takesIn_iff.1 htakes
  by_cases hfinds : Finds target level
  · obtain ⟨-, other, hother, htakes'⟩ := hfinds
    rw [hname] at htakes'
    exact Finds.insert ⟨hwanted, other, hother, htakes'⟩ hapart target
  · rw [insert_of_not_finds hfinds]
    exact ⟨hwanted, target, by simp, htakes⟩

/-! ## Merging is associative -/

/-- Three nodes with no more than `room` levels below them can be merged in any parts. -/
def MergedAssoc (room : Nat) : Prop :=
  ∀ first second third : Node, first.Fit room → second.Fit room → third.Fit room →
    (first.merged second).merged third = first.merged (second.merged third)

section Assoc

variable {room : Nat}

/-- Two nodes of the same name are merged in one after the other, or with each other first. -/
theorem insert_merged {node target : Node} {level : List Node} (hassoc : MergedAssoc room)
    (hlevel : Gathered room level) (hnode : node.Fit room) (htarget : target.Fit room)
    (hwanted : node.negated = false) (htakes : takesIn node.name target = true) :
    (target.merged node).insert level = node.insert (target.insert level) := by
  obtain ⟨hwanted', hname⟩ := takesIn_iff.1 htakes
  rw [insert_of_finds (hlevel.apart.insert target) (finds_insert hwanted htakes hlevel.apart)]
  by_cases hfinds : Finds target level
  · have hfinds' : Finds (target.merged node) level := hfinds
    rw [insert_of_finds hlevel.apart hfinds, insert_of_finds hlevel.apart hfinds', List.map_map]
    refine List.map_congr_left fun other hother => ?_
    cases htakes' : takesIn target.name other with
    | false =>
      have htakes'' : takesIn node.name other = false := hname ▸ htakes'
      rw [Function.comp_apply, absorb_of_not_takesIn htakes', absorb_of_not_takesIn htakes'']
      exact absorb_of_not_takesIn htakes'
    | true =>
      have htakes'' : takesIn node.name (other.merged target) = true := hname ▸ htakes'
      rw [Function.comp_apply, absorb_of_takesIn hwanted' htakes',
        absorb_of_takesIn hwanted htakes'', hassoc other target node (hlevel.fit other hother)
          htarget hnode]
      exact absorb_of_takesIn hwanted' htakes'
  · have hfinds' : ¬ Finds (target.merged node) level := hfinds
    have hsame : level.map node.absorb = level := by
      refine (List.map_congr_left fun other hother => ?_).trans (List.map_id level)
      refine absorb_of_not_takesIn (Bool.eq_false_iff.2 fun htakes' => ?_)
      exact hfinds ⟨hwanted', other, hother, hname ▸ htakes'⟩
    rw [insert_of_not_finds hfinds, insert_of_not_finds hfinds', List.map_append, hsame,
      List.map_singleton, absorb_of_takesIn hwanted htakes]

/-- A node is merged into the second of two levels, or into both together. -/
theorem insertAll_insert {node : Node} {level others : List Node} (hassoc : MergedAssoc room)
    (hlevel : Gathered room level) (hothers : Gathered room others) (hnode : node.Fit room) :
    insertAll (node.insert others) level = node.insert (insertAll others level) := by
  rcases insert_cases node others with
    ⟨hlast, -⟩ | ⟨before, target, after, rfl, hwanted, htakes, hinsert⟩
  · rw [hlast, insertAll_append, insertAll, insertAll]
  · have htarget : target.Fit room := hothers.fit target (by simp)
    have hbefore : Gathered room (insertAll before level) :=
      hlevel.insertAll (mergesWithin room) fun other hother => hothers.fit other (by simp [hother])
    have hnames : ∀ other ∈ after, other.negated = false → other.name ≠ node.name := by
      intro other hother hwanted' hname
      have hnone := hothers.apart.takesIn_eq_false htakes other (by simp [hother])
      simp [takesIn_iff.2 ⟨hwanted', hname⟩] at hnone
    rw [hinsert, insertAll_append, insertAll, insertAll_append, insertAll,
      insert_merged hassoc hbefore hnode htarget hwanted htakes,
      insert_insertAll_comm (hbefore.apart.insert target)
        (finds_insert hwanted htakes hbefore.apart) hnames]

/-- Nodes are merged into the second of two levels, or into both together. -/
theorem insertAll_insertAll {nodes level others : List Node} (hassoc : MergedAssoc room)
    (hlevel : Gathered room level) (hothers : Gathered room others)
    (hnodes : ∀ node ∈ nodes, node.Fit room) :
    insertAll (insertAll nodes others) level = insertAll nodes (insertAll others level) := by
  induction nodes generalizing others with
  | nil => rw [insertAll, insertAll]
  | cons node rest ih =>
    obtain ⟨hnode, hrest⟩ := List.forall_mem_cons.1 hnodes
    rw [insertAll, insertAll, ih (hothers.insert (mergesWithin room) hnode) hrest,
      insertAll_insert hassoc hlevel hothers hnode]

end Assoc

/-- A level with a node that is not negated keeps one. -/
theorem exists_wanted_insertAll {nodes level : List Node}
    (h : ∃ node ∈ level ++ nodes, node.negated = false) :
    ∃ node ∈ insertAll nodes level, node.negated = false := by
  induction nodes generalizing level with
  | nil => simpa [insertAll] using h
  | cons node rest ih =>
    rw [insertAll]
    refine ih ?_
    rcases insert_cases node level with ⟨hlast, -⟩ | ⟨before, target, after, rfl, -, htakes, hinsert⟩
    · simpa [hlast] using h
    · exact ⟨target.merged node, by simp [hinsert], (takesIn_iff.1 htakes).1⟩

theorem complete_of_wanted {level : List Node} (h : ∃ node ∈ level, node.negated = false) :
    complete level = level := by
  obtain ⟨node, hnode, hwanted⟩ := h
  refine if_neg ?_
  simp only [Bool.and_eq_true, List.all_eq_true, not_and, not_forall]
  exact fun _ => ⟨node, hnode, by simp [hwanted]⟩

/-- Levels in normal form need no wildcard after they were merged. -/
theorem complete_insertAll {nodes level : List Node} (hnodes : IsNormal nodes)
    (hlevel : IsNormal level) : complete (insertAll nodes level) = insertAll nodes level := by
  cases nodes with
  | nil =>
    cases level with
    | nil => rfl
    | cons node rest => exact complete_of_wanted (hlevel.wanted (List.cons_ne_nil _ _))
  | cons node rest =>
    obtain ⟨other, hother, hwanted⟩ := hnodes.wanted (List.cons_ne_nil _ _)
    exact complete_of_wanted (exists_wanted_insertAll ⟨other, by simp [hother], hwanted⟩)

/-- Nodes can be merged in any parts if their children can. -/
theorem merged_assoc_of_children {first second third : Node} (hfirst : IsNormal first.children)
    (hsecond : IsNormal second.children) (hthird : IsNormal third.children)
    (h : insertAll (insertAll third.children second.children) first.children
      = insertAll third.children (insertAll second.children first.children)) :
    (first.merged second).merged third = first.merged (second.merged third) := by
  simp only [merged, complete_insertAll hsecond hfirst, complete_insertAll hthird hsecond, h,
    Bool.and_assoc, Bool.or_assoc]

/-- **Nodes can be merged in any parts.**  Their children are merged in the same way, with one level
less to take, and this is what the induction is on. -/
theorem mergedAssoc (room : Nat) : MergedAssoc room := by
  induction room with
  | zero =>
    intro first second third hfirst hsecond hthird
    have hnone : ∀ node : Node, node.Fit 0 → node.children = [] := by
      intro node hnode
      have hbelow := hnode.below
      generalize node.children = children at hbelow
      cases hbelow
      rfl
    refine merged_assoc_of_children hfirst.below.isNormal hsecond.below.isNormal
      hthird.below.isNormal ?_
    rw [hnone first hfirst, hnone second hsecond, hnone third hthird]
    rfl
  | succ room ih =>
    intro first second third hfirst hsecond hthird
    exact merged_assoc_of_children hfirst.below.isNormal hsecond.below.isNormal
      hthird.below.isNormal (insertAll_insertAll ih hfirst.below.gathered hsecond.below.gathered
        hthird.below.gathered.fit)

/-! ## Completing in parts -/

/-- Nodes that only take away. -/
def OnlyTakes (nodes : List Node) : Prop :=
  ∀ node ∈ nodes, node.negated = true

instance (nodes : List Node) : Decidable (OnlyTakes nodes) :=
  inferInstanceAs (Decidable (∀ node ∈ nodes, node.negated = true))

/-- Two lists of nodes for one level are the same whether each is completed before it is merged or
not: both only take away or both do not, or only the second does and the first has a wildcard
already. -/
def CompletesAlike (nodes others : List Node) : Prop :=
  (OnlyTakes nodes ↔ OnlyTakes others)
    ∨ OnlyTakes others ∧ ∃ node ∈ level nodes, takesIn .deep node = true ∧ node.emptyBlock = false

instance (nodes others : List Node) : Decidable (CompletesAlike nodes others) :=
  inferInstanceAs (Decidable (_ ∨ _ ∧ ∃ node ∈ level nodes, _ ∧ _))

theorem not_onlyTakes {nodes : List Node} :
    ¬ OnlyTakes nodes ↔ ∃ node ∈ nodes, node.negated = false := by
  simp [OnlyTakes]

section Complete

variable {room : Nat} {nodes others : List Node}

/-- Nodes that only take away go to the end of a level. -/
theorem insertAll_of_onlyTakes (h : OnlyTakes nodes) (level : List Node) :
    insertAll nodes level = level ++ nodes := by
  induction nodes generalizing level with
  | nil => simp [insertAll]
  | cons node rest ih =>
    obtain ⟨hnode, hrest⟩ := List.forall_mem_cons.1 h
    rw [insertAll, insert_of_negated hnode, ih hrest, List.append_assoc, List.singleton_append]

theorem level_of_onlyTakes (hne : nodes ≠ []) (h : OnlyTakes nodes) :
    level nodes = everything :: nodes := by
  rw [level, insertAll_of_onlyTakes h, List.nil_append, complete, if_pos]
  simpa [hne, OnlyTakes] using h

theorem level_of_wanted (h : ¬ OnlyTakes nodes) : level nodes = insertAll nodes [] :=
  complete_of_wanted (exists_wanted_insertAll (by simpa using not_onlyTakes.1 h))

/-- A level starts with a negated node after merging if it did so before. -/
theorem exists_insertAll_cons (nodes : List Node) (first : Node) (rest : List Node) :
    ∃ head tail, insertAll nodes (first :: rest) = head :: tail
      ∧ head.negated = first.negated := by
  induction nodes generalizing first rest with
  | nil => exact ⟨first, rest, by rw [insertAll], rfl⟩
  | cons node more ih =>
    rw [insertAll]
    rcases insert_cases node (first :: rest) with
      ⟨hlast, -⟩ | ⟨before, target, after, hsplit, -, -, hinsert⟩
    · rw [hlast]
      exact ih first (rest ++ [node])
    · rw [hinsert]
      cases before with
      | nil =>
        obtain ⟨rfl, rfl⟩ := List.cons.inj hsplit
        exact ih (first.merged node) rest
      | cons other before =>
        obtain ⟨rfl, -⟩ := List.cons.inj hsplit
        exact ih first _

/-- Nodes that only take away add their wildcard to a level. -/
theorem complete_insertAll_level (hne : others ≠ []) (htakes : OnlyTakes others)
    (target : List Node) :
    complete (insertAll (level others) target) = everything.insert target ++ others := by
  have hwanted : ∃ node ∈ everything.insert target ++ others, node.negated = false := by
    have hkept := @exists_wanted_insertAll [everything] target ⟨everything, by simp, rfl⟩
    rw [insertAll, insertAll] at hkept
    obtain ⟨node, hnode, hwanted⟩ := hkept
    exact ⟨node, List.mem_append_left _ hnode, hwanted⟩
  rw [level_of_onlyTakes hne htakes, insertAll, insertAll_of_onlyTakes htakes,
    complete_of_wanted hwanted]

/-- The wildcard of a first list that only takes away stays in front. -/
theorem insertAll_level_ne (hne : nodes ≠ []) (htakes : OnlyTakes nodes)
    (hwanted : ¬ OnlyTakes others) :
    complete (insertAll (level others) (level nodes)) ≠ level (nodes ++ others) := by
  obtain ⟨first, rest, rfl⟩ := List.exists_cons_of_ne_nil hne
  have hboth : ¬ OnlyTakes (first :: rest ++ others) := fun h =>
    hwanted fun node hnode => h node (List.mem_append_right _ hnode)
  obtain ⟨head, tail, hinsert, hhead⟩ :=
    exists_insertAll_cons (level others) everything (first :: rest)
  obtain ⟨head', tail', hinsert', hhead'⟩ := exists_insertAll_cons others first rest
  have hcomplete : complete (head :: tail) = head :: tail :=
    complete_of_wanted ⟨head, List.mem_cons_self, hhead⟩
  rw [level_of_onlyTakes hne htakes, hinsert, hcomplete, level_of_wanted hboth, insertAll_append,
    insertAll_of_onlyTakes htakes, List.nil_append, hinsert']
  intro hsame
  have hnegated : head.negated = head'.negated := congrArg Node.negated (List.cons.inj hsame).1
  rw [hhead, hhead', htakes first List.mem_cons_self] at hnegated
  cases hnegated

variable (hnodes : ∀ node ∈ nodes, node.Fit room) (hothers : ∀ node ∈ others, node.Fit room)

include hnodes in
theorem gathered_insertAll : Gathered room (insertAll nodes []) :=
  Gathered.insertAll ⟨.nil, by simp⟩ (mergesWithin room) hnodes

include hnodes hothers in
/-- The normal form of all nodes, from the two lists merged each for itself. -/
theorem level_append :
    level (nodes ++ others) = complete (insertAll (insertAll others []) (insertAll nodes [])) := by
  have hempty : Gathered room [] := ⟨.nil, by simp⟩
  rw [insertAll_insertAll (mergedAssoc room) (gathered_insertAll hnodes) hempty hothers, level,
    insertAll_append]
  rfl

include hnodes in
/-- A level in normal form is merged into as it stands. -/
theorem level_level_append (others : List Node) :
    level (level nodes ++ others) = complete (insertAll others (level nodes)) := by
  have hapart : Apart ([] ++ level nodes) := (fits_level hnodes).isNormal.apart
  rw [level, insertAll_append, insertAll_of_apart hapart, List.nil_append]

/-- The wildcard changes a level, unless it has one already. -/
theorem insert_everything_iff {level : List Node} (h : Gathered room level) :
    everything.insert level = level
      ↔ ∃ node ∈ level, takesIn .deep node = true ∧ node.emptyBlock = false := by
  rcases insert_cases everything level with
    ⟨hlast, hnone⟩ | ⟨before, target, after, rfl, -, htakes, hinsert⟩
  · refine iff_of_false (by simp [hlast]) ?_
    rintro ⟨node, hnode, htakes, -⟩
    exact absurd ((hnone rfl node hnode).symm.trans htakes) Bool.false_ne_true
  · have hbelow : IsNormal target.children := (h.fit target (by simp)).below.isNormal
    have hmerged : target.merged everything = target ↔ target.emptyBlock = false := by
      obtain ⟨name, negated, braced, emptyBlock, children⟩ := target
      have hchildren : complete (insertAll [] children) = children :=
        complete_insertAll ⟨.nil, by simp, by simp⟩ hbelow
      simp [merged, everything, leaf, hchildren, eq_comm]
    rw [hinsert, List.append_cancel_left_eq, List.cons.injEq, and_iff_left rfl, hmerged]
    constructor
    · exact fun hempty => ⟨target, by simp, htakes, hempty⟩
    · rintro ⟨node, hnode, htakes', hempty⟩
      rwa [h.apart.eq_of_takesIn (by simp) hnode htakes htakes'] at hempty

include hnodes hothers in
/-- **When nodes can be completed in parts.** -/
theorem level_append_level_iff (hne : nodes ≠ []) (hne' : others ≠ []) :
    level (level nodes ++ level others) = level (nodes ++ others)
      ↔ CompletesAlike nodes others := by
  have hlevel : Gathered room (level nodes) := (fits_level hnodes).gathered
  rw [level_level_append hnodes, CompletesAlike]
  by_cases htakes' : OnlyTakes others
  · rw [complete_insertAll_level hne' htakes']
    by_cases htakes : OnlyTakes nodes
    · have hboth : OnlyTakes (nodes ++ others) := List.forall_mem_append.2 ⟨htakes, htakes'⟩
      have hfound : everything.insert (level nodes) = level nodes :=
        (insert_everything_iff hlevel).2
          ⟨everything, by simp [level_of_onlyTakes hne htakes], rfl, rfl⟩
      rw [hfound, level_of_onlyTakes hne htakes, level_of_onlyTakes (by simp [hne]) hboth]
      exact iff_of_true rfl (.inl (iff_of_true htakes htakes'))
    · have hboth : ¬ OnlyTakes (nodes ++ others) := fun h =>
        htakes (List.forall_mem_append.1 h).1
      rw [level_of_wanted hboth, insertAll_append, ← level_of_wanted htakes,
        insertAll_of_onlyTakes htakes', List.append_cancel_right_eq,
        insert_everything_iff hlevel]
      simp [htakes, htakes']
  · by_cases htakes : OnlyTakes nodes
    · refine iff_of_false (insertAll_level_ne hne htakes htakes') ?_
      simp [htakes, htakes']
    · rw [level_append hnodes hothers, level_of_wanted htakes, level_of_wanted htakes']
      exact iff_of_true rfl (.inl (iff_of_false htakes htakes'))

end Complete

/-! ## Two nodes of one name -/

theorem level_singleton {node : Node} (hwanted : node.negated = false) : level [node] = [node] :=
  (level_of_wanted (by simp [OnlyTakes, hwanted])).trans <| by
    rw [insertAll, insertAll, insert_of_not_finds (by simp [Finds]), List.nil_append]

theorem level_pair {target node : Node} (hwanted : node.negated = false)
    (htakes : takesIn node.name target = true) : level [target, node] = [target.merged node] := by
  have hsingle : insertAll [target] [] = [target] := by
    rw [insertAll, insertAll, insert_of_not_finds (by simp [Finds]), List.nil_append]
  have hpair : insertAll [target, node] [] = [target.merged node] := by
    have hfinds : Finds node [target] := ⟨hwanted, target, by simp, htakes⟩
    rw [← List.singleton_append, insertAll_append, hsingle, insertAll, insertAll,
      insert_of_finds (List.pairwise_singleton ..) hfinds, List.map_singleton,
      absorb_of_takesIn hwanted htakes]
  rw [level, hpair]
  exact complete_of_wanted ⟨_, List.mem_singleton_self _, (takesIn_iff.1 htakes).1⟩

end Node

/-! ## Blocks of texts -/

namespace Sentence

/-- A sentence as the block of a word. -/
def inBlock (word : String) (sentence : Sentence) : Sentence :=
  last (.word false word (.of sentence))

variable (word : String) (sentence others : Sentence)

theorem tokens_inBlock :
    (inBlock word sentence).tokens
      = .word word :: .openBrace :: sentence.tokens ++ [.closeBrace] := by
  rw [inBlock, tokens, Phrase.tokens_word, Block.tokens]
  rfl

theorem greedy_inBlock : (inBlock word sentence).greedy = inBlock word sentence.greedy := rfl

theorem height_inBlock : (inBlock word sentence).height = sentence.height + 1 := by
  rw [inBlock, height, Phrase.height_word, Block.height]

theorem nodesAll_inBlock :
    Term.nodesAll (inBlock word sentence).terms
      = [⟨Name.ofWord word, false, true, false, Term.level sentence.terms⟩] := by
  rw [inBlock, terms, Term.nodesAll, Term.nodesAll, List.append_nil, Phrase.nodes_word,
    Block.terms?, isEmptyBlock_terms]
  rfl

theorem level_oneBlock :
    Term.level (inBlock word (sentence.join others)).terms
      = [⟨Name.ofWord word, false, true, false,
          Node.level (Term.nodesAll sentence.terms ++ Term.nodesAll others.terms)⟩] := by
  rw [Term.level, nodesAll_inBlock, Node.level_singleton rfl, Term.level, terms_join,
    Term.nodesAll_append]

theorem level_twoBlocks :
    Term.level ((inBlock word sentence).join (inBlock word others)).terms
      = [⟨Name.ofWord word, false, true, false,
          Node.level (Node.level (Term.nodesAll sentence.terms)
            ++ Node.level (Term.nodesAll others.terms))⟩] := by
  have htakes : ∀ children, Node.takesIn (Name.ofWord word)
      ⟨Name.ofWord word, false, true, false, children⟩ = true := fun _ =>
    Node.takesIn_iff.2 ⟨rfl, rfl⟩
  have hchildren := @Node.children_merged
    ⟨Name.ofWord word, false, true, false, Term.level sentence.terms⟩
    ⟨Name.ofWord word, false, true, false, Term.level others.terms⟩ sentence.fits.isNormal
  rw [Term.level, terms_join, Term.nodesAll_append, nodesAll_inBlock, nodesAll_inBlock,
    List.singleton_append, Node.level_pair rfl (htakes _)]
  exact congrArg (fun children => [Node.mk (Name.ofWord word) false true false children]) hchildren

/-- The block of a word adds the word to the patterns. -/
theorem allCompile_inBlock [Glob.Engine] :
    Token.AllCompile (inBlock word sentence).tokens
      ↔ (Token.word word).compiles = true ∧ Token.AllCompile sentence.tokens := by
  rw [inBlock, tokens, Phrase.allCompile_word, Block.allCompile_of]

/-- What one block with two sentences in it stands for, if the patterns compile. -/
theorem nodes?_oneBlock [Glob.Engine] (hword : (Token.word word).compiles = true)
    (hcompiles : Token.AllCompile sentence.tokens) (hothers : Token.AllCompile others.tokens) :
    (inBlock word (sentence.join others)).nodes?
      = if sentence.greedy.height < Term.depthLimit ∧ others.greedy.height < Term.depthLimit then
          some [⟨Name.ofWord word, false, true, false,
            Node.level (Term.nodesAll sentence.greedy.terms
              ++ Term.nodesAll others.greedy.terms)⟩]
        else none := by
  have hboth : Token.AllCompile (inBlock word (sentence.join others)).tokens :=
    (allCompile_inBlock ..).2 ⟨hword, allCompile_join.2 ⟨hcompiles, hothers⟩⟩
  rw [nodes?, greedy_inBlock, greedy_join, level_oneBlock, height_inBlock, height_join]
  exact if_congr ((and_iff_right hboth).trans Nat.max_lt) rfl rfl

/-- What two blocks for one word stand for, if the patterns compile. -/
theorem nodes?_twoBlocks [Glob.Engine] (hword : (Token.word word).compiles = true)
    (hcompiles : Token.AllCompile sentence.tokens) (hothers : Token.AllCompile others.tokens) :
    ((inBlock word sentence).join (inBlock word others)).nodes?
      = if sentence.greedy.height < Term.depthLimit ∧ others.greedy.height < Term.depthLimit then
          some [⟨Name.ofWord word, false, true, false,
            Node.level (Node.level (Term.nodesAll sentence.greedy.terms)
              ++ Node.level (Term.nodesAll others.greedy.terms))⟩]
        else none := by
  have hboth : Token.AllCompile ((inBlock word sentence).join (inBlock word others)).tokens :=
    allCompile_join.2 ⟨(allCompile_inBlock ..).2 ⟨hword, hcompiles⟩,
      (allCompile_inBlock ..).2 ⟨hword, hothers⟩⟩
  rw [nodes?, greedy_join, greedy_inBlock, greedy_inBlock, level_twoBlocks, height_join,
    height_inBlock, height_inBlock]
  exact if_congr ((and_iff_right hboth).trans Nat.max_le) rfl rfl

/-- A sentence has nodes. -/
theorem nodesAll_ne_nil : Term.nodesAll sentence.terms ≠ [] := by
  have hphrase : ∀ phrase : Phrase, phrase.term.nodes ≠ [] := by
    rintro ⟨negated, ⟨inParens, first, more⟩, block⟩
    rw [Phrase.term, Term.nodes]
    exact List.cons_ne_nil _ _
  cases sentence with
  | last phrase =>
    rw [terms, Term.nodesAll, Term.nodesAll, List.append_nil]
    exact hphrase phrase
  | cons phrase bar rest =>
    rw [terms, Term.nodesAll]
    exact List.append_ne_nil_of_left_ne_nil (hphrase phrase) _

end Sentence

namespace Expression

/-- The text of a word with a block. -/
def inBlock (word inner : String) : String :=
  word ++ "\x7b" ++ inner ++ "\x7d"

/-- The nodes of the first level of a text as they are written, before any is merged. -/
def written [Glob.Engine] (source : String) : List Node :=
  ((terms source).toOption.map Term.nodesAll).getD []

section Texts

variable {word text other : String} {sentence others : Sentence}

/-- Two texts with a comma between them are cut into the tokens of both. -/
theorem tokens_comma (h : tokens text = .ok sentence.tokens)
    (hothers : tokens other = .ok others.tokens) :
    tokens (text ++ "," ++ other) = .ok (sentence.join others).tokens := by
  have hmark : Token.ofMark? ',' = some .comma := rfl
  rw [tokens_eq_ok_iff] at h hothers ⊢
  have hcuts := h.mark hmark (fun token => by cases token <;> rfl) hothers
  rw [Sentence.tokens_join]
  simpa using hcuts

/-- A word with a text in its block is cut into the tokens of both. -/
theorem tokens_inBlock (hword : Token.IsWord word.toList) (h : tokens text = .ok sentence.tokens) :
    tokens (inBlock word text) = .ok (Sentence.inBlock word sentence).tokens := by
  have hopen : Token.ofMark? '\x7b' = some .openBrace := rfl
  have hclose : Token.ofMark? '\x7d' = some .closeBrace := rfl
  rw [tokens_eq_ok_iff] at h ⊢
  have hinner := h.mark hclose (fun token => by cases token <;> rfl) cuts_nil
  have hcuts := (cuts_word hword).mark hopen (fun token => by cases token <;> rfl) hinner
  rw [Sentence.tokens_inBlock]
  simpa [inBlock] using hcuts

theorem written_of_tokens [Glob.Engine] (h : tokens text = .ok sentence.tokens)
    (hcompiles : Token.AllCompile sentence.tokens)
    (hheight : sentence.greedy.height ≤ Term.depthLimit) :
    written text = Term.nodesAll sentence.greedy.terms := by
  rw [written, terms_of_tokens h, if_pos ⟨hcompiles, hheight⟩]
  rfl

end Texts

/-- **When two blocks for one name are one block.**  Let two texts be accepted, neither of them
blank, and let both together be accepted as the block of a word.  Then the text with a block for
each of them is accepted as well, and it stands for the same nodes just if it does not matter that
each block is completed by itself: if both blocks only take away, or neither does, or only the
second does and the first has a wildcard already. -/
theorem nodes?_twoBlocks_iff [Glob.Engine] {word first second : String}
    (hword : Token.IsWord word.toList)
    (hfirst : (parse first).isOk = true) (hfirst' : Text.isAllBlank first.toList = false)
    (hsecond : (parse second).isOk = true) (hsecond' : Text.isAllBlank second.toList = false)
    (hboth : (parse (inBlock word (first ++ "," ++ second))).isOk = true) :
    (parse (inBlock word first ++ "," ++ inBlock word second)).isOk = true
      ∧ (nodes? (inBlock word first ++ "," ++ inBlock word second)
          = nodes? (inBlock word (first ++ "," ++ second))
        ↔ Node.CompletesAlike (written first) (written second)) := by
  obtain ⟨sentence, htokens, hcompiles⟩ := exists_sentence hfirst hfirst'
  obtain ⟨others, htokens', hcompiles'⟩ := exists_sentence hsecond hsecond'
  have honce := nodes?_of_tokens (tokens_inBlock hword (tokens_comma htokens htokens'))
  have htwice := nodes?_of_tokens
    (tokens_comma (tokens_inBlock hword htokens) (tokens_inBlock hword htokens'))
  have hwordCompiles : (Token.word word).compiles = true := by
    rw [← isSome_nodes?, honce, Sentence.isSome_nodes?] at hboth
    exact ((Sentence.allCompile_inBlock ..).1 hboth.1).1
  rw [Sentence.nodes?_oneBlock word sentence others hwordCompiles hcompiles hcompiles'] at honce
  rw [Sentence.nodes?_twoBlocks word sentence others hwordCompiles hcompiles hcompiles'] at htwice
  have hshallow : sentence.greedy.height < Term.depthLimit
      ∧ others.greedy.height < Term.depthLimit := by
    by_contra hdeep
    rw [← isSome_nodes?, honce, if_neg hdeep] at hboth
    cases hboth
  rw [if_pos hshallow] at honce htwice
  have hfit := sentence.greedy.fit (Nat.le_succ_of_le (Nat.le_of_lt hshallow.1))
  have hfit' := others.greedy.fit (Nat.le_succ_of_le (Nat.le_of_lt hshallow.2))
  rw [written_of_tokens htokens hcompiles (Nat.le_of_lt hshallow.1),
    written_of_tokens htokens' hcompiles' (Nat.le_of_lt hshallow.2),
    ← Node.level_append_level_iff hfit hfit' sentence.greedy.nodesAll_ne_nil
      others.greedy.nodesAll_ne_nil, ← isSome_nodes?, honce, htwice]
  simp

/-- An owner without the note, after all that there is.  The wildcard of the second block is not
needed: the first one has it already. -/
theorem nodes?_allOrNote :
    Node.CompletesAlike (written "id,**") (written "-note")
      ∧ (parse "owner\x7bid,**,-note\x7d").isOk = true
      ∧ nodes? "owner\x7bid,**\x7d,owner\x7b-note\x7d" = nodes? "owner\x7bid,**,-note\x7d" := by
  have halike : Node.CompletesAlike (written "id,**") (written "-note") := by decide +kernel
  have hboth : (parse "owner\x7bid,**,-note\x7d").isOk = true := by decide +kernel
  exact ⟨halike, hboth, (@nodes?_twoBlocks_iff _ "owner" "id,**" "-note" (by decide +kernel)
    (by decide +kernel) rfl (by decide +kernel) rfl hboth).2.2 halike⟩

/-- An owner without the note, and then the number of the owner.  A block that only takes away
starts from everything, so the two blocks are more than the number; as one block they are not. -/
theorem nodes?_noteOrId_ne :
    Name.IsBare "owner"
      ∧ (parse "-note").isOk = true ∧ Text.isAllBlank "-note".toList = false
      ∧ (parse "id").isOk = true ∧ Text.isAllBlank "id".toList = false
      ∧ (parse "owner{-note,id}").isOk = true
      ∧ nodes? "owner{-note},owner{id}" ≠ nodes? "owner{-note,id}" := by
  decide +kernel

end Expression

end FieldFilter
