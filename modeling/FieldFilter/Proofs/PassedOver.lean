import FieldFilter.Proofs.Picking
import FieldFilter.Proofs.Strongest
import FieldFilter.Registry

/-!
# Fields that are passed over

An unwrapped field has no place of its own in what is written, as its members stand among its
siblings.  So a filter that does not mention it does not notice it: where the level reached does not
match the field, the path goes on at the same level, as if the field were not there.

The levels decide about the base view by whether a field is the last one of its path.  Leaving
fields out does not change this for the others as long as the path goes on, which is why the
theorem speaks of what is left of the path as well.

* `Matching.PassesBy` — an unwrapped field that nothing of a level matches.
* `Matching.step_of_passesBy` — the path stays where it is.
* **`Expression.includes_passedOver`** — such fields can be left out of a path.
-/

namespace FieldFilter

namespace Matching

variable {ε : Type} {lookup : TypeLookup (Except ε)} {policy : ViewPolicy}

/-- A field is passed by at a level.  It is unwrapped in a described type, no node of the level
matches it by name, and no view of the type that a node can name holds it. -/
structure PassesBy (lookup : TypeLookup (Except ε)) (level : List Node) (element : Element)
    (type : String) : Prop where
  owner : element.owner = some (.described type)
  unwrapped : lookup.isUnwrapped (.described type) element.name = .ok true
  unnamed : ∀ node ∈ level, node.name.strength element.name = none
  unviewed : ∀ node ∈ level, node.name.mayBeView = true →
    ∃ names, lookup.members (.described type) node.name.label = .ok names
      ∧ element.name ∉ names

/-- Where no node names a view that holds a field, none is found. -/
theorem firstView_eq_none {owner : Owner} {field : String} {nodes : List Node}
    (h : ∀ node ∈ nodes, ∃ names, lookup.members owner node.name.label = .ok names
      ∧ field ∉ names) :
    firstView lookup owner field nodes = .ok none := by
  induction nodes with
  | nil => rfl
  | cons node rest ih =>
    obtain ⟨⟨names, hnames, hlacks⟩, hrest⟩ := List.forall_mem_cons.1 h
    exact firstView_cons_eq_ok_iff.2 ⟨names, hnames, by simp [hlacks, ih hrest]⟩

/-- Nothing is picked for a field that is passed by. -/
theorem PassesBy.pick?_eq {cursor : Cursor} {element : Element} {type : String}
    (h : PassesBy lookup cursor.candidates element type) :
    pick? lookup cursor element = .ok none := by
  have hview : viewNode lookup element cursor.candidates = .ok none := by
    rw [viewNode, h.owner]
    refine firstView_eq_none fun node hnode => ?_
    obtain ⟨hmem, hview⟩ := List.mem_filter.1 hnode
    exact h.unviewed node hmem hview
  rw [pick?, strongest_eq_none_iff.2 h.unnamed, hview]
  rfl

/-- **A field that is passed by leaves the path where it is.** -/
theorem step_of_passesBy {cursor : Cursor} (hopen : cursor.settled = false) {element : Element}
    {type : String} (h : PassesBy lookup cursor.candidates element type) (isLast : Bool) :
    step lookup policy isLast cursor element = .ok (.moved cursor) := by
  have hpassed : passesOver lookup element = .ok true := by
    rw [passesOver, h.owner]
    exact h.unwrapped
  rw [step_eq_pick hopen, h.pick?_eq]
  show passesOver lookup element >>= _ = _
  rw [hpassed]
  rfl

/-- Fields that are passed by can be left out in front of what is left of a path. -/
theorem follow_of_passesBy {cursor : Cursor} (hopen : cursor.settled = false) {skipped : Path}
    (h : ∀ element ∈ skipped, ∃ type, PassesBy lookup cursor.candidates element type)
    (rest : Path) :
    follow lookup policy cursor (skipped ++ rest) = follow lookup policy cursor rest := by
  induction skipped with
  | nil => rfl
  | cons element more ih =>
    obtain ⟨⟨type, helement⟩, hmore⟩ := List.forall_mem_cons.1 h
    rw [List.cons_append, follow, step_of_passesBy hopen helement]
    exact ih hmore

end Matching

open Matching

/-- **Unwrapped fields that the filter does not mention can be left out of a path.**  Let a path go
on after some of its fields, and let them lead to a level where the views do not decide alone.  Then
the fields that are passed by there, one or several in a row, make no difference to the decision
about the path, be it an answer or a fault.  If the path stops before, they make none either. -/
theorem Expression.includes_passedOver {ε : Type} {expression : Expression}
    {lookup : TypeLookup (Except ε)} {policy : ViewPolicy} {before skipped rest : Path}
    (hskipped : ∀ cursor,
      reach lookup policy ⟨expression.nodes, false, []⟩ before = .ok (.moved cursor) →
        cursor.settled = false
          ∧ ∀ element ∈ skipped, ∃ type, PassesBy lookup cursor.candidates element type)
    (hrest : rest ≠ []) :
    expression.includes lookup policy (before ++ skipped ++ rest)
      = expression.includes lookup policy (before ++ rest) := by
  have hmore : skipped ++ rest ≠ [] := List.append_ne_nil_of_right_ne_nil _ hrest
  rw [List.append_assoc, includes, includes, follow_append_of_ne_nil hmore,
    follow_append_of_ne_nil hrest]
  rcases hreach : reach lookup policy ⟨expression.nodes, false, []⟩ before with
    fault | ⟨included | cursor⟩
  · rfl
  · rfl
  · obtain ⟨hopen, hpasses⟩ := hskipped cursor hreach
    exact follow_of_passesBy hopen hpasses rest

/-- Orders have an audit, and audits a shift, whose members stand among those of the order. -/
def shiftTypes : List TypeDecl :=
  [⟨"Shop", [⟨"order", [], false, false, .described "Order"⟩]⟩,
    ⟨"Order", [⟨"audit", ["trail"], false, true, .described "Audit"⟩]⟩,
    ⟨"Audit", [⟨"shift", [], false, true, .described "Shift"⟩,
      ⟨"by", ["hour"], false, false, .untyped⟩]⟩,
    ⟨"Shift", [⟨"hour", [], false, false, .untyped⟩]⟩]

/-- The hour of an order. -/
def orderHour : Expression :=
  ⟨"order\x7bhour\x7d", [⟨.exact "order", false, true, false, [.leaf (.exact "hour")]⟩]⟩

/-- The hour is asked for as if it were a field of the order itself.  The audit and the shift on the
way to it are passed over, also though the one name of the level is that of a view of audits. -/
theorem Expression.includes_orderHour :
    orderHour.includes ((Schema.empty true).registerAll shiftTypes).lookup ⟨false, true⟩
        [⟨"order", some (.described "Shop")⟩, ⟨"audit", some (.described "Order")⟩,
          ⟨"shift", some (.described "Audit")⟩, ⟨"hour", some (.described "Shift")⟩] = .ok true
      ∧ orderHour.includes ((Schema.empty true).registerAll shiftTypes).lookup ⟨false, true⟩
        [⟨"order", some (.described "Shop")⟩, ⟨"hour", some (.described "Shift")⟩] = .ok true := by
  have hdirect : orderHour.includes ((Schema.empty true).registerAll shiftTypes).lookup
      ⟨false, true⟩ [⟨"order", some (.described "Shop")⟩, ⟨"hour", some (.described "Shift")⟩]
        = .ok true := by
    decide +kernel
  have hreach : reach ((Schema.empty true).registerAll shiftTypes).lookup ⟨false, true⟩
      ⟨orderHour.nodes, false, []⟩ [⟨"order", some (.described "Shop")⟩]
        = .ok (.moved ⟨[.leaf (.exact "hour")], false, []⟩) := rfl
  refine ⟨?_, hdirect⟩
  rw [← hdirect]
  refine @includes_passedOver _ _ _ _ [_] [_, _] [_] (fun cursor hcursor => ?_)
    (List.cons_ne_nil _ _)
  obtain rfl := Outcome.moved.inj (Except.ok.inj (hreach.symm.trans hcursor))
  refine ⟨rfl, List.forall_mem_cons.2 ⟨⟨"Order", rfl, rfl, by decide +kernel, ?_⟩,
    List.forall_mem_singleton.2 ⟨"Audit", rfl, rfl, by decide +kernel, ?_⟩⟩⟩
  · exact List.forall_mem_singleton.2 fun _ => ⟨_, rfl, by decide +kernel⟩
  · exact List.forall_mem_singleton.2 fun _ => ⟨_, rfl, by decide +kernel⟩

end FieldFilter
