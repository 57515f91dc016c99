import FieldFilter.Matching
import Mathlib.Data.List.Induction
import Mathlib.Data.Option.Basic
import Mathlib.Data.Prod.Lex
import Mathlib.Order.Bounds.Basic

/-!
# The strongest node of a level

The nodes of a level are gone through in order, and a node takes the place of the strongest so far
by a rule that looks at the two of them alone, and not alike: at equal strength it matters whether
the new one is negated, and whether the old one is not.  The rule is a total order all the same.
Matching nodes are ordered by their strength, then a negated one stands above one that is not, then
the later one above the earlier.  A node meets only nodes before it, so to take a place is to stand
higher (`displaces_iff_standing_lt`), and what is left at the end is the greatest.

**What the place decides.**  Strength and negation are those of a node, and the place is that of the
level.  In another order of the nodes, the strongest can be another one only if the two are alike in
the former.

* `Matching.standing`, `Matching.standings` — where a node stands, and all nodes that match.
* `Matching.Leads` — a node that stands highest.
* **`Matching.strongest_eq_some_iff`**, **`Matching.strongest_eq_none_iff`** — the strongest node is
  the one that leads, and there is none where no node matches.
* **`Matching.strongest_greatest`** — both, and what becomes of it in another order.
-/

namespace FieldFilter.Matching

variable {field : String} {nodes : List Node}

/-! ## Taking a place -/

/-- A node takes the place of another if it matches, and is stronger or at least as good at
excluding. -/
theorem displaces_some_iff {best node : Node} :
    displaces field (some best) node = true
      ↔ ∃ new, node.name.strength field = some new ∧ ∀ old ∈ best.name.strength field,
          old < new ∨ old = new ∧ (node.negated = true ∨ best.negated = false) := by
  unfold displaces
  cases hnew : node.name.strength field with
  | none => simp
  | some new => cases hold : best.name.strength field <;> simp [hold]

/-- Any node that matches takes an empty place. -/
theorem displaces_none_iff {node : Node} :
    displaces field none node = true ↔ (node.name.strength field).isSome = true := by
  cases hnew : node.name.strength field <;> simp [displaces, hnew]

/-- What takes a place matches. -/
theorem isSome_of_displaces {best : Option Node} {node : Node}
    (h : displaces field best node = true) : (node.name.strength field).isSome = true := by
  cases best with
  | none => exact displaces_none_iff.1 h
  | some best =>
    obtain ⟨strength, hstrength, -⟩ := displaces_some_iff.1 h
    rw [hstrength, Option.isSome_some]

/-- One node more takes the place of the strongest so far, or does not. -/
theorem strongest_concat (field : String) (level : List Node) (node : Node) :
    strongest field (level ++ [node])
      = if displaces field (strongest field level) node then some node
        else strongest field level := by
  rw [strongest, List.foldl_append]
  rfl

/-- **None is the strongest just where no node matches by name.** -/
theorem strongest_eq_none_iff :
    strongest field nodes = none ↔ ∀ node ∈ nodes, node.name.strength field = none := by
  induction nodes using List.reverseRecOn with
  | nil => exact iff_of_true rfl (List.forall_mem_nil _)
  | append_singleton nodes last ih =>
    rw [strongest_concat, List.forall_mem_append, List.forall_mem_singleton, ← ih]
    by_cases hplace : displaces field (strongest field nodes) last = true
    · have hmatches := Option.isSome_iff_ne_none.1 (isSome_of_displaces hplace)
      rw [if_pos hplace]
      exact iff_of_false (Option.some_ne_none last) fun h => hmatches h.2
    · rw [if_neg hplace]
      refine ⟨fun hnone => ⟨hnone, ?_⟩, fun h => h.1⟩
      rw [hnone, displaces_none_iff] at hplace
      exact Option.not_isSome_iff_eq_none.1 hplace

/-! ## The order of the nodes of a level -/

/-- Where a node that matches a field stands, from its place in the level.  Its strength counts
most, then whether it is negated, then the place. -/
def standing (field : String) (node : Node) (place : Nat) : Option (Nat ×ₗ Bool ×ₗ Nat) :=
  (node.name.strength field).map fun strength => toLex (strength, toLex (node.negated, place))

/-- Where the nodes of a level that match a field stand. -/
def standings (field : String) (nodes : List Node) : Set (Nat ×ₗ Bool ×ₗ Nat) :=
  {rank | ∃ place node, nodes[place]? = some node
    ∧ standing field node place = some rank}

/-- A node leads a level at a field: it matches the field, and none that does stands higher. -/
def Leads (field : String) (nodes : List Node) (node : Node) : Prop :=
  ∃ place rank, nodes[place]? = some node ∧ standing field node place = some rank
    ∧ IsGreatest (standings field nodes) rank

theorem standing_eq_some_iff {node : Node} {place : Nat} {rank : Nat ×ₗ Bool ×ₗ Nat} :
    standing field node place = some rank
      ↔ ∃ strength, node.name.strength field = some strength
          ∧ toLex (strength, toLex (node.negated, place)) = rank :=
  Option.map_eq_some_iff

theorem isSome_standing (field : String) (node : Node) (place : Nat) :
    (standing field node place).isSome = (node.name.strength field).isSome :=
  Option.isSome_map

/-- **To take the place of an earlier node is to stand higher.** -/
theorem displaces_iff_standing_lt {best node : Node} {place later : Nat} (hlater : place < later)
    {rank : Nat ×ₗ Bool ×ₗ Nat} (hbest : standing field best place = some rank) :
    displaces field (some best) node = true
      ↔ ∃ higher, standing field node later = some higher ∧ rank < higher := by
  obtain ⟨old, hold, rfl⟩ := standing_eq_some_iff.1 hbest
  have hnegated : ∀ a b : Bool, a < b ∨ a = b ↔ b = true ∨ a = false := by decide
  simp only [displaces_some_iff, hold, Option.mem_some_iff, forall_eq', standing,
    Option.map_eq_some_iff, exists_exists_and_eq_and, Prod.Lex.toLex_lt_toLex, hlater, and_true,
    hnegated]

/-- A level that goes on has the standings that it had, and that of its last node. -/
theorem mem_standings_concat {last : Node} {rank : Nat ×ₗ Bool ×ₗ Nat} :
    rank ∈ standings field (nodes ++ [last])
      ↔ rank ∈ standings field nodes
        ∨ standing field last nodes.length = some rank := by
  constructor
  · rintro ⟨place, node, hplace, hstanding⟩
    rw [List.getElem?_append] at hplace
    split at hplace
    · exact .inl ⟨place, node, hplace, hstanding⟩
    · next hbehind =>
      obtain ⟨hlast, rfl⟩ := List.getElem?_eq_some_iff.1 hplace
      obtain rfl : place = nodes.length := by
        rw [List.length_singleton] at hlast
        omega
      rw [List.getElem_singleton] at hstanding
      exact .inr hstanding
  · rintro (⟨place, node, hplace, hstanding⟩ | hstanding)
    · have hlt := (List.getElem?_eq_some_iff.1 hplace).1
      exact ⟨place, node, by rw [List.getElem?_append_left hlt, hplace], hstanding⟩
    · exact ⟨nodes.length, last, List.getElem?_concat_length, hstanding⟩

/-! ## The strongest node leads -/

namespace Leads

variable {node node' : Node}

/-- A node that leads is a node of the level, and matches the field. -/
theorem matches_field (h : Leads field nodes node) :
    node ∈ nodes ∧ (node.name.strength field).isSome = true := by
  obtain ⟨place, rank, hplace, hstanding, -⟩ := h
  refine ⟨List.mem_of_getElem? hplace, ?_⟩
  rw [← isSome_standing field node place, hstanding, Option.isSome_some]

/-- At most one node leads a level. -/
theorem unique (h : Leads field nodes node) (h' : Leads field nodes node') : node = node' := by
  obtain ⟨place, rank, hnode, hstanding, hgreatest⟩ := h
  obtain ⟨place', rank', hnode', hstanding', hgreatest'⟩ := h'
  obtain rfl := hgreatest.unique hgreatest'
  obtain ⟨_, -, heq⟩ := standing_eq_some_iff.1 hstanding
  obtain ⟨_, -, heq'⟩ := standing_eq_some_iff.1 hstanding'
  obtain rfl : place = place' :=
    congrArg (fun rank => (ofLex (ofLex rank).2).2) (heq.trans heq'.symm)
  exact Option.some.inj (hnode.symm.trans hnode')

/-- A last node leads if no node before it stands higher. -/
theorem of_last {last : Node} {rank : Nat ×ₗ Bool ×ₗ Nat}
    (hlast : standing field last nodes.length = some rank)
    (hbefore : ∀ other ∈ standings field nodes, other ≤ rank) :
    Leads field (nodes ++ [last]) last := by
  refine ⟨nodes.length, rank, List.getElem?_concat_length, hlast,
    mem_standings_concat.2 (.inr hlast), fun other hother => ?_⟩
  rcases mem_standings_concat.1 hother with hearlier | hsame
  · exact hbefore other hearlier
  · exact (Option.some.inj (hsame.symm.trans hlast)).le

/-- A last node that matches leads where no node before it does. -/
theorem concat_of_none {last : Node} (hnone : strongest field nodes = none)
    (hmatches : (last.name.strength field).isSome = true) :
    Leads field (nodes ++ [last]) last := by
  rw [← isSome_standing field last nodes.length] at hmatches
  obtain ⟨rank, hlast⟩ := Option.isSome_iff_exists.1 hmatches
  refine .of_last hlast ?_
  rintro other ⟨place, node, hplace, hstanding⟩
  obtain ⟨strength, hstrength, -⟩ := standing_eq_some_iff.1 hstanding
  rw [strongest_eq_none_iff.1 hnone node (List.mem_of_getElem? hplace)] at hstrength
  cases hstrength

/-- A last node that takes the place of the leading one leads. -/
theorem concat_of_displaces {last : Node} (h : Leads field nodes node)
    (hplace : displaces field (some node) last = true) : Leads field (nodes ++ [last]) last := by
  obtain ⟨place, rank, hnode, hstanding, -, hupper⟩ := h
  have hlater := (List.getElem?_eq_some_iff.1 hnode).1
  obtain ⟨higher, hlast, hlt⟩ := (displaces_iff_standing_lt hlater hstanding).1 hplace
  exact .of_last hlast fun other hother => (hupper hother).trans hlt.le

/-- A last node that does not take the place of the leading one leaves it in the lead. -/
theorem concat {last : Node} (h : Leads field nodes node)
    (hkept : displaces field (some node) last = false) : Leads field (nodes ++ [last]) node := by
  obtain ⟨place, rank, hnode, hstanding, hgreatest⟩ := h
  have hlater := (List.getElem?_eq_some_iff.1 hnode).1
  refine ⟨place, rank, by rw [List.getElem?_append_left hlater, hnode], hstanding,
    mem_standings_concat.2 (.inl hgreatest.1), fun other hother => ?_⟩
  rcases mem_standings_concat.1 hother with hbefore | hlast
  · exact hgreatest.2 hbefore
  · refine not_lt.1 fun hlt => ?_
    rw [(displaces_iff_standing_lt hlater hstanding).2 ⟨other, hlast, hlt⟩] at hkept
    cases hkept

/-- In strength and negation, a node that leads is at least as good as any other that matches. -/
theorem le_of_mem {other : Node} {strength strength' : Nat} (h : Leads field nodes node)
    (hstrength : node.name.strength field = some strength) (hother : other ∈ nodes)
    (hstrength' : other.name.strength field = some strength') :
    (toLex (strength', other.negated) : Nat ×ₗ Bool) ≤ toLex (strength, node.negated) := by
  obtain ⟨place, rank, -, hstanding, -, hupper⟩ := h
  obtain ⟨_, hsame, rfl⟩ := standing_eq_some_iff.1 hstanding
  obtain rfl := Option.some.inj (hsame.symm.trans hstrength)
  obtain ⟨place', hplace'⟩ := List.mem_iff_getElem?.1 hother
  have hle := hupper ⟨place', other, hplace', standing_eq_some_iff.2 ⟨strength', hstrength', rfl⟩⟩
  rw [Prod.Lex.toLex_le_toLex, Prod.Lex.toLex_le_toLex] at hle
  rw [Prod.Lex.toLex_le_toLex]
  rcases hle with hweaker | ⟨heq, hless | ⟨halike, -⟩⟩
  · exact .inl hweaker
  · exact .inr ⟨heq, hless.le⟩
  · exact .inr ⟨heq, halike.le⟩

/-- Nodes that lead levels of the same nodes are equal in strength and negation. -/
theorem alike {nodes' : List Node} (h : Leads field nodes node) (h' : Leads field nodes' node')
    (hsame : ∀ other, other ∈ nodes ↔ other ∈ nodes') :
    node.name.strength field = node'.name.strength field ∧ node.negated = node'.negated := by
  obtain ⟨strength, hstrength⟩ := Option.isSome_iff_exists.1 h.matches_field.2
  obtain ⟨strength', hstrength'⟩ := Option.isSome_iff_exists.1 h'.matches_field.2
  have hle := h'.le_of_mem hstrength' ((hsame node).1 h.matches_field.1) hstrength
  have hge := h.le_of_mem hstrength ((hsame node').2 h'.matches_field.1) hstrength'
  obtain ⟨rfl, hnegated⟩ := Prod.mk.inj (toLex.injective (le_antisymm hle hge))
  exact ⟨hstrength.trans hstrength'.symm, hnegated⟩

end Leads

/-- What is left when all nodes have been gone through leads the level. -/
theorem leads_of_strongest {node : Node} (h : strongest field nodes = some node) :
    Leads field nodes node := by
  induction nodes using List.reverseRecOn generalizing node with
  | nil => cases h
  | append_singleton nodes last ih =>
    rw [strongest_concat] at h
    split at h
    · next hplace =>
      cases h
      cases hbest : strongest field nodes with
      | none => exact .concat_of_none hbest (isSome_of_displaces hplace)
      | some best =>
        rw [hbest] at hplace
        exact (ih hbest).concat_of_displaces hplace
    · next hkept =>
      rw [h, Bool.not_eq_true] at hkept
      exact (ih h).concat hkept

/-- **The strongest node is the one that leads its level.** -/
theorem strongest_eq_some_iff {node : Node} :
    strongest field nodes = some node ↔ Leads field nodes node := by
  refine ⟨leads_of_strongest, fun h => ?_⟩
  obtain ⟨hmem, hmatches⟩ := h.matches_field
  cases hbest : strongest field nodes with
  | none =>
    rw [strongest_eq_none_iff.1 hbest node hmem] at hmatches
    cases hmatches
  | some best => rw [(leads_of_strongest hbest).unique h]

/-- **The node that decides is the greatest of those that match.**  There is none exactly if no node
of the level matches the field by name.  Otherwise it is the node that leads: of those that match,
it is greatest by strength, then by being negated, then by its place.  So another order of the level
changes it only for a node of the same strength and with the same sign. -/
theorem strongest_greatest (field : String) (nodes : List Node) :
    (strongest field nodes = none ↔ ∀ node ∈ nodes, node.name.strength field = none)
      ∧ (∀ node, strongest field nodes = some node ↔ Leads field nodes node)
      ∧ ∀ nodes' : List Node, nodes.Perm nodes' →
        Option.Rel (fun node node' => node.name.strength field = node'.name.strength field
          ∧ node.negated = node'.negated) (strongest field nodes) (strongest field nodes') := by
  refine ⟨strongest_eq_none_iff, fun _ => strongest_eq_some_iff, fun nodes' hperm => ?_⟩
  have hnone : strongest field nodes = none ↔ strongest field nodes' = none := by
    rw [strongest_eq_none_iff, strongest_eq_none_iff]
    exact forall_congr' fun node => by rw [hperm.mem_iff]
  cases hbest : strongest field nodes with
  | none =>
    rw [hnone.1 hbest]
    exact .none
  | some node =>
    cases hbest' : strongest field nodes' with
    | none => exact absurd (hbest.symm.trans (hnone.2 hbest')) (Option.some_ne_none node)
    | some node' =>
      exact .some ((leads_of_strongest hbest).alike (leads_of_strongest hbest')
        fun other => hperm.mem_iff)

/-- A level that takes away names in two ways, and asks for them. -/
def quarrel : List Node :=
  [⟨.exact "name", true, true, false, [.leaf (.exact "id")]⟩, .leaf (.exact "name"),
    ⟨.exact "name", true, false, false, []⟩, .leaf (.glob "na*")]

/-- Of the two negated nodes the later one decides, so the other one does when the level is turned
around.  Both are as strong, and negated. -/
theorem strongest_quarrel :
    quarrel.Perm quarrel.reverse
      ∧ strongest "name" quarrel = some ⟨.exact "name", true, false, false, []⟩
      ∧ strongest "name" quarrel.reverse
        = some ⟨.exact "name", true, true, false, [.leaf (.exact "id")]⟩
      ∧ Option.Rel (fun node node' => node.name.strength "name" = node'.name.strength "name"
        ∧ node.negated = node'.negated)
        (strongest "name" quarrel) (strongest "name" quarrel.reverse) := by
  have hperm : quarrel.Perm quarrel.reverse := (List.reverse_perm quarrel).symm
  exact ⟨hperm, by decide, by decide, (strongest_greatest "name" quarrel).2.2 _ hperm⟩

end FieldFilter.Matching
