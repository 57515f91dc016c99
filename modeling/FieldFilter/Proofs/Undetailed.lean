import FieldFilter.Proofs.Answers
import FieldFilter.Proofs.Picking

/-!
# Below a node that says nothing

A node without a block leaves open what is below it, and two things can stand in.  Below a name it
is the base view of whatever comes, level by level.  Below a view or the shallow wildcard it is the
views matched so far: they decide about every field of a described type, and entries of maps and
elements of unknown types pass unchecked.  Either way the rest of the expression has no say, and
whether a path is included is told by its elements one by one.

* `Schema.PassesByDefault` — the elements that pass below a name.
* **`Expression.includes_below_name`** — below a name, all elements have to pass by default.
* `Schema.InScope` — the fields that the views matched so far hold.
* **`Expression.includes_below_view`** — below a view, all fields of described types have to be in
  scope.
-/

namespace FieldFilter

open Matching

variable {schema : Schema} {policy : ViewPolicy}

/-! ## Below a name -/

namespace Schema

/-- Whether the base view takes in an element: an entry of a map, or a member of that view in the
type around it. -/
def inBase (schema : Schema) (element : Element) : Bool :=
  match element.owner with
  | none => false
  | some (.map _) => true
  | some (.described type) => (schema.viewMembers type Name.baseView).contains element.name

/-- An element passes below a name that says nothing about it: the base view takes it in, where the
policy lets that view stand in, or it is an unwrapped field. -/
def PassesByDefault (schema : Schema) (policy : ViewPolicy) (element : Element) : Prop :=
  policy.implicitBase = true ∧ schema.inBase element = true ∨ schema.PassesOver element

end Schema

namespace Matching

/-- The level that stands in below a name. -/
def defaultLevel (policy : ViewPolicy) : List Node :=
  if policy.implicitBase then [Node.ofBaseView] else []

/-- A level with the base view alone picks it for what it takes in, and nothing otherwise. -/
theorem pick?_default {cursor : Cursor} (hlevel : cursor.candidates = defaultLevel policy)
    {element : Element}
    (hknown : ∀ type ∈ element.described?, (schema.find? type).isSome = true) :
    pick? schema.lookup cursor element
      = .ok (if policy.implicitBase && schema.inBase element then some (.viewed Node.ofBaseView)
          else none) := by
  obtain ⟨name, owner⟩ := element
  rw [pick?, hlevel, defaultLevel]
  cases policy.implicitBase with
  | false => rcases owner with - | ⟨type | type⟩ <;> rfl
  | true =>
    -- the name of the node matches no field, so the node can only be found as a view
    have hname : strongest name [Node.ofBaseView] = none := rfl
    rcases owner with - | ⟨type | type⟩
    · rfl
    · have hview : viewNode schema.lookup ⟨name, some (.described type)⟩ [Node.ofBaseView]
          = .ok (if (schema.viewMembers type Name.baseView).contains name then
              some Node.ofBaseView else none) := by
        have hlookup := Schema.lookup_members (hknown type rfl) Name.baseView
        simp only [viewNode, firstView, Node.ofBaseView, Name.mayBeView, Name.label,
          List.filter_cons, List.filter_nil, if_true, hlookup, bind, Except.bind, pure,
          Except.pure]
        split <;> rfl
      rw [if_pos rfl, hname, hview, Schema.inBase, Bool.true_and]
      dsimp only
      split <;> rfl
    · rfl

/-- Below a name, an element passes by default and leads to such a level again, or is excluded. -/
theorem step_default {cursor : Cursor} (hopen : cursor.settled = false)
    (hlevel : cursor.candidates = defaultLevel policy) {element : Element}
    (hknown : ∀ type ∈ element.described?, (schema.find? type).isSome = true)
    (isLast : Bool) :
    (schema.PassesByDefault policy element ∧ ∃ next,
        step schema.lookup policy isLast cursor element = .ok (.moved next)
          ∧ next.settled = false ∧ (isLast = false → next.candidates = defaultLevel policy))
      ∨ ¬ schema.PassesByDefault policy element
        ∧ step schema.lookup policy isLast cursor element = .ok (.decided false) := by
  obtain ⟨passed, hpassed, hiff⟩ := Schema.passesOver_of_knows hknown
  rw [step_eq_pick hopen, pick?_default hlevel hknown, Schema.PassesByDefault,
    ← Bool.and_eq_true_iff, ← hiff]
  cases hbase : policy.implicitBase && schema.inBase element with
  | true =>
    have hpolicy := (Bool.and_eq_true_iff.1 hbase).1
    refine .inl ⟨.inl rfl, _, rfl, rfl, ?_⟩
    rintro rfl
    simp [levelBelow, defaultLevel, Pick.node, Node.ofBaseView, hpolicy]
  | false =>
    cases passed with
    | true => exact .inl ⟨.inr rfl, cursor, by rw [hpassed]; rfl, hopen, fun _ => hlevel⟩
    | false => exact .inr ⟨by simp, by rw [hpassed]; rfl⟩

/-- **Below a name, the elements that pass by default decide**, level by level. -/
theorem follow_default {cursor : Cursor} (hopen : cursor.settled = false) {path : Path}
    (hlevel : path ≠ [] → cursor.candidates = defaultLevel policy) (hknown : schema.Knows path) :
    ∃ included, follow schema.lookup policy cursor path = .ok included
      ∧ (included = true ↔ ∀ element ∈ path, schema.PassesByDefault policy element) := by
  induction path generalizing cursor with
  | nil => exact ⟨true, rfl, by simp⟩
  | cons element rest ih =>
    obtain ⟨hfirst, hrest⟩ := Schema.knows_cons.1 hknown
    rw [follow, List.forall_mem_cons]
    rcases step_default hopen (hlevel (List.cons_ne_nil _ _)) hfirst rest.isEmpty with
      ⟨hpasses, next, hstep, hnext, hbelow⟩ | ⟨hfails, hstep⟩
    · rw [hstep]
      obtain ⟨included, hfollow, hiff⟩ := ih hnext
        (fun hmore => hbelow (List.isEmpty_eq_false_iff.2 hmore)) hrest
      exact ⟨included, hfollow, by rw [hiff]; exact (and_iff_right hpasses).symm⟩
    · rw [hstep]
      exact ⟨false, rfl, by simp [hfails]⟩

end Matching

/-- **Below a name, the base view decides alone.**  Where an expression picks a node by name that
asks for one field or a pattern, takes nothing away and says nothing about what is below, the path
is included exactly if all later elements pass by default, whatever else the expression says. -/
theorem Expression.includes_below_name {expression : Expression} {before after : Path}
    {element : Element} {node : Node}
    (hpick : Picks schema.lookup policy ⟨expression.nodes, false, []⟩ before element (.named node))
    (hname : (∃ text, node.name = .exact text) ∨ ∃ pattern, node.name = .glob pattern)
    (hwanted : node.negated = false) (hchildren : node.children = [])
    (hblock : node.emptyBlock = false) (hknown : schema.Knows after) :
    ∃ included,
      expression.includes schema.lookup policy (before ++ element :: after) = .ok included
        ∧ (included = true ↔ ∀ later ∈ after, schema.PassesByDefault policy later) := by
  obtain ⟨cursor, hreach, hopen, hpick⟩ := hpick
  have hdeep : node.name ≠ .deep := by
    rcases hname with ⟨text, htext⟩ | ⟨pattern, hpattern⟩ <;> simp [*]
  have hshallow : (node.name == .shallow) = false := by
    rcases hname with ⟨text, htext⟩ | ⟨pattern, hpattern⟩ <;> simp [*]
  have hstep : step schema.lookup policy after.isEmpty cursor element
      = .ok (.moved ⟨levelBelow policy after.isEmpty node, false, cursor.labels⟩) := by
    rw [step_eq_pick hopen, hpick]
    have henter : enter policy after.isEmpty false cursor.labels node = _ :=
      enter_of_wanted hwanted hdeep _ _ _
    rw [hshallow] at henter
    exact congrArg Except.ok henter
  rw [includes, follow_of_reach hreach (List.cons_ne_nil _ _), follow, hstep]
  refine follow_default rfl ?_ hknown
  intro hmore
  simp [levelBelow, defaultLevel, hchildren, hblock, hmore]

/-- Shops have orders with an owner and a note, and owners have a name, and an address that is only
in a view of its own. -/
def shopTypes : List TypeDecl :=
  [⟨"Shop", [⟨"order", ["sales"], false, false, .described "Order"⟩]⟩,
    ⟨"Order", [⟨"owner", ["detail"], false, false, .described "Owner"⟩,
      ⟨"note", [], false, false, .untyped⟩]⟩,
    ⟨"Owner", [⟨"name", [], false, false, .untyped⟩,
      ⟨"address", ["detail"], false, false, .untyped⟩]⟩]

/-- The name of the owner of an order. -/
def ownerName : Path :=
  [⟨"order", some (.described "Shop")⟩, ⟨"owner", some (.described "Order")⟩,
    ⟨"name", some (.described "Owner")⟩]

/-- The owner of an order, and nothing about the owner. -/
def orderOwner : Expression :=
  ⟨"order\x7bowner\x7d", [⟨.exact "order", false, true, false, [.leaf (.exact "owner")]⟩]⟩

/-- The name of the owner is included, so it passes by default. -/
theorem Expression.includes_ownerName :
    orderOwner.includes ((Schema.empty true).registerAll shopTypes).lookup ⟨false, true⟩ ownerName
        = .ok true
      ∧ ((Schema.empty true).registerAll shopTypes).PassesByDefault ⟨false, true⟩
          ⟨"name", some (.described "Owner")⟩ := by
  have hincluded : orderOwner.includes ((Schema.empty true).registerAll shopTypes).lookup
      ⟨false, true⟩ ownerName = .ok true := by
    decide +kernel
  have hpick : Picks ((Schema.empty true).registerAll shopTypes).lookup ⟨false, true⟩
      ⟨orderOwner.nodes, false, []⟩ [⟨"order", some (.described "Shop")⟩]
      ⟨"owner", some (.described "Order")⟩ (.named (.leaf (.exact "owner"))) :=
    ⟨⟨[.leaf (.exact "owner")], false, []⟩, rfl, rfl, rfl⟩
  obtain ⟨included, hanswer, hpasses⟩ :=
    @includes_below_name _ _ _ _ [⟨"name", some (.described "Owner")⟩] _ _ hpick
      (.inl ⟨"owner", rfl⟩) rfl rfl rfl (by decide +kernel)
  obtain rfl := Except.ok.inj (hanswer.symm.trans hincluded)
  exact ⟨hincluded, List.forall_mem_singleton.1 (hpasses.1 rfl)⟩

/-! ## Below a view -/

/-- The views matched on the way hold a field of a type.  It is the base view where no views are
propagated or none was matched, and otherwise what the labels stand for together. -/
inductive Schema.InScope (schema : Schema) (policy : ViewPolicy) (Matched : String → Prop)
    (type field : String) : Prop where
  | base (hnone : policy.propagateViews = false ∨ ∀ label, ¬ Matched label)
    (hfield : field ∈ schema.viewMembers type Name.baseView)
  | view {label : String} (hpolicy : policy.propagateViews = true) (hlabel : Matched label)
    (hfield : field ∈ schema.standIn policy type label)

/-- What the kept labels hold is in the scope of the labels matched. -/
theorem Schema.holds_iff_inScope {Matched : String → Prop} {labels : List String}
    (hlabels : ∀ label, label ∈ labels ↔ policy.propagateViews = true ∧ Matched label)
    (type field : String) :
    schema.holds policy labels type field = true ↔ schema.InScope policy Matched type field := by
  cases labels with
  | nil =>
    have hnone : policy.propagateViews = false ∨ ∀ label, ¬ Matched label := by
      cases hpolicy : policy.propagateViews with
      | false => exact .inl rfl
      | true =>
        exact .inr fun label hlabel => List.not_mem_nil ((hlabels label).2 ⟨hpolicy, hlabel⟩)
    rw [holds, List.contains_iff_mem]
    constructor
    · exact .base hnone
    · rintro (⟨-, hfield⟩ | ⟨hpolicy, hlabel, -⟩)
      · exact hfield
      · exact absurd ((hlabels _).2 ⟨hpolicy, hlabel⟩) List.not_mem_nil
  | cons first rest =>
    obtain ⟨hpolicy, hfirst⟩ := (hlabels first).1 List.mem_cons_self
    rw [holds, List.any_eq_true]
    · constructor
      · rintro ⟨label, hmem, hfield⟩
        exact .view hpolicy ((hlabels label).1 hmem).2 (List.contains_iff_mem.1 hfield)
      · rintro (⟨hnone, -⟩ | ⟨-, hlabel, hfield⟩)
        · rcases hnone with hoff | hnone
          · exact absurd (hoff.symm.trans hpolicy) Bool.false_ne_true
          · exact absurd hfirst (hnone first)
        · exact ⟨_, (hlabels _).2 ⟨hpolicy, hlabel⟩, List.contains_iff_mem.2 hfield⟩
    · simp

/-- **Where the views decide alone, every field of a described type has to be held by them.** -/
theorem Matching.follow_settled {cursor : Cursor} (hsettled : cursor.settled = true) {path : Path}
    (hknown : schema.Knows path) :
    ∃ included, follow schema.lookup policy cursor path = .ok included
      ∧ (included = true ↔ ∀ element ∈ path, ∀ type ∈ element.described?,
          schema.holds policy cursor.labels type element.name = true) := by
  induction path with
  | nil => exact ⟨true, rfl, by simp⟩
  | cons element rest ih =>
    obtain ⟨hfirst, hrest⟩ := Schema.knows_cons.1 hknown
    obtain ⟨included, hfollow, hiff⟩ := ih hrest
    obtain ⟨name, owner⟩ := element
    rw [follow, step, hsettled, if_pos rfl, List.forall_mem_cons, ← hiff]
    rcases owner with - | ⟨type | type⟩
    · exact ⟨included, hfollow, by simp [Element.described?]⟩
    · dsimp only
      rw [Schema.inViews_eq (hfirst type rfl)]
      cases hheld : schema.holds policy cursor.labels type name with
      | true => exact ⟨included, hfollow, by simp [Element.described?, hheld]⟩
      | false => exact ⟨false, rfl, by simp [Element.described?, hheld]⟩
    · exact ⟨included, hfollow, by simp [Element.described?]⟩

/-- **Below a view, the views matched so far decide alone.**  Where an expression picks a view or
the shallow wildcard without a block, the path is included exactly if every later field of a
described type is in the scope of the views matched up to there.  What is below the node, unwrapped
fields and the rest of the expression have no say. -/
theorem Expression.includes_below_view {expression : Expression} {before after : Path}
    {element : Element} {pick : Pick}
    (hpick : Picks schema.lookup policy ⟨expression.nodes, false, []⟩ before element pick)
    (hsettles : pick.Settles) (hknown : schema.Knows after) :
    ∃ included,
      expression.includes schema.lookup policy (before ++ element :: after) = .ok included
        ∧ (included = true ↔ ∀ later ∈ after, ∀ type ∈ later.described?,
            schema.InScope policy (MatchesView schema.lookup policy ⟨expression.nodes, false, []⟩
              (before ++ [element])) type later.name) := by
  obtain ⟨cursor, hreach, hopen, hpick⟩ := hpick
  have hstep : ∀ isLast, step schema.lookup policy isLast cursor element
      = .ok (.moved ⟨levelBelow policy isLast pick.node, true,
          pick.labels policy cursor.labels⟩) := by
    intro isLast
    rw [step_eq_pick hopen, hpick]
    have henter : enter policy isLast pick.isViewed (pick.labels policy cursor.labels) pick.node
        = _ := enter_of_wanted hsettles.wanted (hsettles.name_ne_deep hpick) _ _ _
    rw [hsettles.settled] at henter
    exact congrArg Except.ok henter
  have hlabels : ∀ label, label ∈ pick.labels policy cursor.labels
      ↔ policy.propagateViews = true ∧ MatchesView schema.lookup policy
        ⟨expression.nodes, false, []⟩ (before ++ [element]) label := by
    have hthere : reach schema.lookup policy ⟨expression.nodes, false, []⟩ (before ++ [element])
        = _ := reach_concat _ _ _
    rw [hreach] at hthere
    exact mem_labels_of_reach rfl (hthere.trans (hstep false))
  rw [includes, follow_of_reach hreach (List.cons_ne_nil _ _), follow, hstep]
  simp only [← Schema.holds_iff_inScope hlabels]
  exact follow_settled rfl hknown

/-- What the view of sales holds, and of that what the view of details holds. -/
def salesDetail : Expression :=
  ⟨"sales\x7bdetail\x7d", [⟨.exact "sales", false, true, false, [.leaf (.exact "detail")]⟩]⟩

/-- The name of the owner is in the scope of the two views: neither of them holds it, but nothing of
an owner is in the view of sales, so the base view stands in for that one. -/
theorem Expression.includes_salesDetail :
    salesDetail.includes ((Schema.empty true).registerAll shopTypes).lookup ⟨true, true⟩ ownerName
        = .ok true
      ∧ ((Schema.empty true).registerAll shopTypes).InScope ⟨true, true⟩
          (MatchesView ((Schema.empty true).registerAll shopTypes).lookup ⟨true, true⟩
            ⟨salesDetail.nodes, false, []⟩
            [⟨"order", some (.described "Shop")⟩, ⟨"owner", some (.described "Order")⟩])
          "Owner" "name" := by
  have hincluded : salesDetail.includes ((Schema.empty true).registerAll shopTypes).lookup
      ⟨true, true⟩ ownerName = .ok true := by
    decide +kernel
  have hpick : Picks ((Schema.empty true).registerAll shopTypes).lookup ⟨true, true⟩
      ⟨salesDetail.nodes, false, []⟩ [⟨"order", some (.described "Shop")⟩]
      ⟨"owner", some (.described "Order")⟩ (.viewed (.leaf (.exact "detail"))) :=
    ⟨⟨[.leaf (.exact "detail")], false, ["sales"]⟩, rfl, rfl, rfl⟩
  obtain ⟨included, hanswer, hscope⟩ :=
    @includes_below_view _ _ _ _ [⟨"name", some (.described "Owner")⟩] _ _ hpick
      ⟨rfl, rfl, .inl rfl⟩ (by decide +kernel)
  obtain rfl := Except.ok.inj (hanswer.symm.trans hincluded)
  exact ⟨hincluded, List.forall_mem_singleton.1 (hscope.1 rfl) "Owner" rfl⟩

end FieldFilter
