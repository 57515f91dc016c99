import FieldFilter.Registry
import FieldFilter.Proofs.Picking
import FieldFilter.Proofs.Strongest

/-!
# Taking away never adds

A negated node that is put into a level only takes away.  It may decide about a field in place of
another node, but then it excludes it; and wherever it does not decide, the same node is picked as
without it.  That node may have one more negated node somewhere below, so two runs are compared,
over levels of which one narrows the other.  The level must not be empty before: an empty one lets
the base view stand in, and a negated node would put an end to that.

* `Node.TakesAway` — one negated node more, somewhere in a level or below it.
* `Node.Narrows`, `Node.Narrowed` — any number of negated nodes more, in a level or below a node.
* **`Matching.strongest_narrows`**, **`Matching.viewNode_narrows`** — in the narrower level the same
  node is found, or a negated one.
* `Matching.step_narrows` — a field that is not excluded leads to narrower levels again.
* **`Expression.includes_of_takesAway`** — a negated node more turns no exclusion into an inclusion.
-/

namespace FieldFilter

namespace Node

/-- One negated node is put into a level that is not empty, or into a level below one of its
nodes. -/
inductive TakesAway : List Node → List Node → Prop where
  | here {before after : List Node} {taken : Node} (hlevel : before ++ after ≠ [])
    (htaken : taken.negated = true) : TakesAway (before ++ after) (before ++ taken :: after)
  | inner {before after : List Node} {node : Node} {children : List Node}
    (h : TakesAway node.children children) :
    TakesAway (before ++ node :: after) (before ++ { node with children } :: after)

/-- Negated nodes are put into a level, and into levels below its nodes that are not empty. -/
inductive Narrows : List Node → List Node → Prop where
  | nil : Narrows [] []
  | same {level level' : List Node} (node : Node) (h : Narrows level level') :
    Narrows (node :: level) (node :: level')
  | inner {level level' : List Node} {node : Node} {children : List Node}
    (hlevel : node.children ≠ []) (hchildren : Narrows node.children children)
    (h : Narrows level level') : Narrows (node :: level) ({ node with children } :: level')
  | taken {level level' : List Node} {node : Node} (htaken : node.negated = true)
    (h : Narrows level level') : Narrows level (node :: level')

/-- A node is the same as another, apart from negated nodes below. -/
inductive Narrowed : Node → Node → Prop where
  | same (node : Node) : Narrowed node node
  | inner {node : Node} {children : List Node} (hlevel : node.children ≠ [])
    (hchildren : Narrows node.children children) : Narrowed node { node with children }

/-- Negated nodes below change nothing about a node itself. -/
theorem Narrowed.head {node node' : Node} (h : Narrowed node node') :
    node'.name = node.name ∧ node'.negated = node.negated ∧ node'.braced = node.braced
      ∧ node'.emptyBlock = node.emptyBlock := by
  cases h <;> exact ⟨rfl, rfl, rfl, rfl⟩

namespace Narrows

variable {level level' : List Node}

theorem cons {node node' : Node} (hnode : Narrowed node node') (h : Narrows level level') :
    Narrows (node :: level) (node' :: level') := by
  cases hnode with
  | same => exact .same node h
  | inner hlevel hchildren => exact .inner hlevel hchildren h

/-- **Induction along a level:** the two levels go on with one node, narrowed or not, or the
narrower one with a negated node. -/
@[elab_as_elim]
theorem induct {Motive : ∀ level level', Narrows level level' → Prop} (nil : Motive [] [] .nil)
    (cons : ∀ {node node' : Node} {level level' : List Node} (hnode : Narrowed node node')
      (h : Narrows level level'), Motive level level' h →
        Motive (node :: level) (node' :: level') (.cons hnode h))
    (taken : ∀ {node : Node} {level level' : List Node} (htaken : node.negated = true)
      (h : Narrows level level'), Motive level level' h →
        Motive level (node :: level') (.taken htaken h))
    (h : Narrows level level') : Motive level level' h := by
  induction h with
  | nil => exact nil
  | same node h ih => exact cons (.same node) h ih
  | inner hlevel hchildren h _ ih => exact cons (.inner hlevel hchildren) h ih
  | taken htaken h ih => exact taken htaken h ih

theorem refl (level : List Node) : Narrows level level := by
  induction level with
  | nil => exact .nil
  | cons node rest ih => exact .same node ih

/-- Levels that narrow each other do so after the same nodes. -/
theorem append_left (before : List Node) (h : Narrows level level') :
    Narrows (before ++ level) (before ++ level') := by
  induction before with
  | nil => exact h
  | cons node rest ih => exact .same node ih

/-- A level that is not empty does not become so. -/
theorem ne_nil (h : Narrows level level') (hlevel : level ≠ []) : level' ≠ [] := by
  cases h with
  | nil => exact absurd rfl hlevel
  | same | inner | taken => exact List.cons_ne_nil _ _

/-- Of two levels, the nodes with certain names narrow each other too. -/
theorem filter (keep : Name → Bool) (h : Narrows level level') :
    Narrows (level.filter fun node => keep node.name)
      (level'.filter fun node => keep node.name) := by
  induction h using induct with
  | nil => exact .nil
  | @cons node node' _ _ hnode _ ih =>
    rw [List.filter_cons, List.filter_cons, hnode.head.1]
    cases keep node.name
    · exact ih
    · exact .cons hnode ih
  | @taken node _ _ htaken _ ih =>
    rw [List.filter_cons]
    cases keep node.name
    · exact ih
    · exact .taken htaken ih

end Narrows

/-- One negated node more is an instance of any number. -/
theorem TakesAway.narrows {level level' : List Node} (h : TakesAway level level') :
    level ≠ [] ∧ Narrows level level' := by
  induction h with
  | here hlevel htaken => exact ⟨hlevel, .append_left _ (.taken htaken (.refl _))⟩
  | @inner before after node children _ ih =>
    exact ⟨by simp, .append_left before (.inner ih.1 ih.2 (.refl after))⟩

end Node

namespace Matching

open Node

/-! ## The strongest node -/

section Strongest

variable {field : String}

/-- What takes the place of a node that took a place would have taken that place. -/
theorem displaces_trans {best : Option Node} {middle node : Node}
    (hmiddle : displaces field best middle = true)
    (hnode : displaces field (some middle) node = true) : displaces field best node = true := by
  obtain ⟨new, hnew, hbetter⟩ := displaces_some_iff.1 hnode
  cases best with
  | none => exact displaces_none_iff.2 (isSome_of_displaces hnode)
  | some best =>
    obtain ⟨between, hbetween, hbest⟩ := displaces_some_iff.1 hmiddle
    refine displaces_some_iff.2 ⟨new, hnew, fun old hold => ?_⟩
    have hfirst := hbest old hold
    have hsecond := hbetter between hbetween
    grind

/-- A node that matches takes the place of every node that does not take its own. -/
theorem displaces_total {node other : Node} (hnode : (node.name.strength field).isSome = true)
    (hkept : displaces field (some node) other = false) :
    displaces field (some other) node = true := by
  obtain ⟨strength, hstrength⟩ := Option.isSome_iff_exists.1 hnode
  refine displaces_some_iff.2 ⟨strength, hstrength, fun old hold => ?_⟩
  have hnot : ¬ (strength < old
      ∨ strength = old ∧ (other.negated = true ∨ node.negated = false)) := by
    intro hbetter
    have hplace : displaces field (some node) other = true := by
      refine displaces_some_iff.2 ⟨old, hold, fun found hfound => ?_⟩
      obtain rfl := Option.some.inj (hfound.symm.trans hstrength)
      exact hbetter
    exact Bool.false_ne_true (hkept.symm.trans hplace)
  grind

/-- Negated nodes below a node change nothing about the places it takes. -/
theorem displaces_narrowed {best best' : Option Node} (hbest : Option.Rel Narrowed best best')
    {node node' : Node} (hnode : Narrowed node node') :
    displaces field best' node' = displaces field best node := by
  obtain ⟨hname, hnegated, -, -⟩ := hnode.head
  cases hbest with
  | none => rw [Bool.eq_iff_iff, displaces_none_iff, displaces_none_iff, hname]
  | some hsame =>
    obtain ⟨hname', hnegated', -, -⟩ := hsame.head
    rw [Bool.eq_iff_iff, displaces_some_iff, displaces_some_iff, hname, hnegated, hname', hnegated']

/-- What becomes of the strongest node so far in a narrower level: it is the same apart from what is
below, or a negated node has taken its place. -/
def Outdone (field : String) (best best' : Option Node) : Prop :=
  Option.Rel Narrowed best best'
    ∨ ∃ taken, best' = some taken ∧ taken.negated = true ∧ displaces field best taken = true

/-- A further node leaves the strongest so far the same, or outdone. -/
theorem Outdone.cons {best best' : Option Node} (h : Outdone field best best') {node node' : Node}
    (hnode : Narrowed node node') :
    Outdone field (if displaces field best node then some node else best)
      (if displaces field best' node' then some node' else best') := by
  rcases h with hsame | ⟨taken, rfl, htaken, hplace⟩
  · rw [displaces_narrowed hsame hnode]
    split
    · exact .inl (.some hnode)
    · exact .inl hsame
  · rw [displaces_narrowed (.some (.same taken)) hnode]
    cases hnext : displaces field (some taken) node with
    | true =>
      rw [if_pos rfl, if_pos (displaces_trans hplace hnext)]
      exact .inl (.some hnode)
    | false =>
      -- the negated node stays, and outdoes the new one should that be the strongest without it
      rw [if_neg Bool.false_ne_true]
      refine .inr ⟨taken, rfl, htaken, ?_⟩
      split
      · exact displaces_total (isSome_of_displaces hplace) hnext
      · exact hplace

/-- A further negated node leaves the strongest so far the same, or outdone. -/
theorem Outdone.taken {best best' : Option Node} (h : Outdone field best best') {node : Node}
    (hnode : node.negated = true) :
    Outdone field best (if displaces field best' node then some node else best') := by
  split
  · next hplace =>
    refine .inr ⟨node, rfl, hnode, ?_⟩
    rcases h with hsame | ⟨taken, rfl, htaken, hfirst⟩
    · rwa [displaces_narrowed hsame (.same node)] at hplace
    · exact displaces_trans hfirst hplace
  · exact h

/-- **In a narrower level the same node is the strongest**, or a negated one is. -/
theorem strongest_narrows {level level' : List Node} (h : Narrows level level') :
    Option.Rel Narrowed (strongest field level) (strongest field level')
      ∨ ∃ taken, strongest field level' = some taken ∧ taken.negated = true := by
  have hfold : ∀ best best', Outdone field best best' → Outdone field
      (level.foldl (fun best node => if displaces field best node then some node else best) best)
      (level'.foldl (fun best node => if displaces field best node then some node else best)
        best') := by
    induction h using Narrows.induct with
    | nil => exact fun _ _ hbest => hbest
    | cons hnode _ ih => exact fun _ _ hbest => ih _ _ (hbest.cons hnode)
    | taken htaken _ ih => exact fun _ _ hbest => ih _ _ (hbest.taken htaken)
  rcases hfold none none (.inl .none) with hsame | ⟨taken, hstrongest, htaken, -⟩
  · exact .inl hsame
  · exact .inr ⟨taken, hstrongest, htaken⟩

end Strongest

/-! ## Views -/

variable {ε : Type} {lookup : TypeLookup (Except ε)} {policy : ViewPolicy}

/-- In a narrower level the same view holds a field of a described type, or a negated one does. -/
theorem firstView_narrows {owner : Owner} {field : String} {level level' : List Node}
    (h : Narrows level level') {found' : Option Node}
    (hfound : firstView lookup owner field level' = .ok found') :
    (∃ found, firstView lookup owner field level = .ok found ∧ Option.Rel Narrowed found found')
      ∨ ∃ taken, found' = some taken ∧ taken.negated = true := by
  induction h using Narrows.induct with
  | nil =>
    cases hfound
    exact .inl ⟨none, rfl, .none⟩
  | @cons node node' level level' hnode _ ih =>
    obtain ⟨names, hnames, hrest⟩ := firstView_cons_eq_ok_iff.1 hfound
    rw [hnode.head.1] at hnames
    split at hrest
    · next hheld =>
      subst hrest
      exact .inl ⟨some node, firstView_cons_eq_ok_iff.2 ⟨names, hnames, by rw [if_pos hheld]⟩,
        .some hnode⟩
    · next hheld =>
      refine (ih hrest).imp_left ?_
      rintro ⟨found, hfound, hsame⟩
      exact ⟨found, firstView_cons_eq_ok_iff.2 ⟨names, hnames, by rwa [if_neg hheld]⟩, hsame⟩
  | @taken node _ _ htaken _ ih =>
    obtain ⟨names, -, hrest⟩ := firstView_cons_eq_ok_iff.1 hfound
    split at hrest
    · exact .inr ⟨node, hrest, htaken⟩
    · exact ih hrest

/-- In a narrower level the same node has a label, or a negated one does. -/
theorem find?_narrows (label : String) {level level' : List Node} (h : Narrows level level') :
    Option.Rel Narrowed (level.find? (·.name.label == label)) (level'.find? (·.name.label == label))
      ∨ ∃ taken, level'.find? (·.name.label == label) = some taken ∧ taken.negated = true := by
  induction h using Narrows.induct with
  | nil => exact .inl .none
  | @cons node node' _ _ hnode _ ih =>
    rw [List.find?_cons, List.find?_cons, hnode.head.1]
    cases node.name.label == label
    · exact ih
    · exact .inl (.some hnode)
  | @taken node _ level' htaken _ ih =>
    rw [List.find?_cons]
    cases node.name.label == label
    · exact ih
    · exact .inr ⟨node, rfl, htaken⟩

/-- **In a narrower level the same node takes in a field as a view**, or a negated one does. -/
theorem viewNode_narrows {element : Element} {level level' : List Node} (h : Narrows level level')
    {found' : Option Node} (hfound : viewNode lookup element level' = .ok found') :
    (∃ found, viewNode lookup element level = .ok found ∧ Option.Rel Narrowed found found')
      ∨ ∃ taken, found' = some taken ∧ taken.negated = true := by
  have hcandidates := h.filter Name.mayBeView
  obtain ⟨name, owner⟩ := element
  rcases owner with - | ⟨type | type⟩
  · cases hfound
    exact .inl ⟨none, rfl, .none⟩
  · exact firstView_narrows hcandidates hfound
  · cases hfound
    exact (find?_narrows Name.baseView hcandidates).imp_left fun hsame => ⟨_, rfl, hsame⟩

/-! ## Two runs -/

/-- Two picks are found in the same way, and one has negated nodes more below. -/
inductive Pick.Narrowed : Pick → Pick → Prop where
  | named {node node' : Node} (h : Node.Narrowed node node') : Narrowed (.named node) (.named node')
  | viewed {node node' : Node} (h : Node.Narrowed node node') :
    Narrowed (.viewed node) (.viewed node')

/-- Two runs are in step, and one looks for what comes next in a narrower level. -/
structure Cursor.Narrowed (cursor cursor' : Cursor) : Prop where
  candidates : Narrows cursor.candidates cursor'.candidates
  settled : cursor'.settled = cursor.settled
  labels : cursor'.labels = cursor.labels

/-- **In a narrower level the same is picked**, or a negated node is. -/
theorem pick?_narrows {cursor cursor' : Cursor} (h : cursor.Narrowed cursor') {element : Element}
    {found' : Option Pick} (hfound : pick? lookup cursor' element = .ok found') :
    (∃ found, pick? lookup cursor element = .ok found ∧ Option.Rel Pick.Narrowed found found')
      ∨ ∃ pick, found' = some pick ∧ pick.node.negated = true := by
  rw [pick?] at hfound
  rw [pick?]
  rcases @strongest_narrows element.name _ _ h.candidates with hsame | ⟨taken, hstrongest, htaken⟩
  · generalize strongest element.name cursor.candidates = best at hsame ⊢
    generalize strongest element.name cursor'.candidates = best' at hsame hfound
    cases hsame with
    | some hnode =>
      cases hfound
      exact .inl ⟨_, rfl, .some (.named hnode)⟩
    | none =>
      dsimp only at hfound ⊢
      rcases hview : viewNode lookup element cursor'.candidates with fault | view'
      · rw [hview] at hfound
        cases hfound
      · rw [hview] at hfound
        cases hfound
        rcases viewNode_narrows h.candidates hview with ⟨view, hview, hsame⟩ | ⟨taken, rfl, htaken⟩
        · rw [hview]
          cases hsame with
          | none => exact .inl ⟨none, rfl, .none⟩
          | some hnode => exact .inl ⟨_, rfl, .some (.viewed hnode)⟩
        · exact .inr ⟨_, rfl, htaken⟩
  · rw [hstrongest] at hfound
    cases hfound
    exact .inr ⟨_, rfl, htaken⟩

/-- Below a node with negated nodes more, the level is narrower. -/
theorem levelBelow_narrowed {node node' : Node} (h : Node.Narrowed node node') (isLast : Bool) :
    Narrows (levelBelow policy isLast node) (levelBelow policy isLast node') := by
  cases h with
  | same => exact .refl _
  | inner hlevel hchildren =>
    have hempty : ∀ {level : List Node}, level ≠ [] → level.isEmpty = false := by simp
    simpa [levelBelow, hempty hlevel, hempty (hchildren.ne_nil hlevel)] using hchildren

/-- Two outcomes of one field: both include everything, or both lead on. -/
inductive Outcome.Narrowed : Outcome → Outcome → Prop where
  | included : Narrowed (.decided true) (.decided true)
  | moved {cursor cursor' : Cursor} (h : cursor.Narrowed cursor') :
    Narrowed (.moved cursor) (.moved cursor')

/-- A node that does not exclude a field leads to narrower levels, or includes all that is below. -/
theorem enter_narrowed {node node' : Node} (h : Node.Narrowed node node') {isLast asView : Bool}
    {labels : List String}
    (hincluded : enter policy isLast asView labels node' ≠ .decided false) :
    (enter policy isLast asView labels node).Narrowed
      (enter policy isLast asView labels node') := by
  have hwanted : node'.negated = false := by
    refine Bool.eq_false_iff.2 fun hnegated => hincluded ?_
    rw [enter, hnegated, if_pos rfl]
  obtain ⟨hname, hnegated, hbraced, -⟩ := h.head
  by_cases hdeep : node.name = .deep
  · simp only [enter, hwanted, ← hnegated, hname, hdeep]
    exact .included
  · rw [enter_of_wanted hwanted (by rwa [hname]), enter_of_wanted (hnegated ▸ hwanted) hdeep]
    exact .moved ⟨levelBelow_narrowed h isLast, by rw [hname, hbraced], rfl⟩

/-- Where the views decide alone, the level does not matter. -/
theorem step_narrows_of_settled {cursor cursor' : Cursor} (h : cursor.Narrowed cursor')
    (hsettled : cursor.settled = true) {isLast : Bool} {element : Element} {outcome' : Outcome}
    (hstep : step lookup policy isLast cursor' element = .ok outcome')
    (hincluded : outcome' ≠ .decided false) :
    ∃ outcome, step lookup policy isLast cursor element = .ok outcome
      ∧ outcome.Narrowed outcome' := by
  rw [step, h.settled.trans hsettled, h.labels, if_pos rfl] at hstep
  rw [step, hsettled, if_pos rfl]
  split at hstep
  · next type _ =>
    rcases hheld : inViews lookup policy cursor.labels (.described type) element.name with
      fault | ⟨_ | _⟩ <;> rw [hheld] at hstep <;> cases hstep
    · exact absurd rfl hincluded
    · exact ⟨_, rfl, .moved h⟩
  · cases hstep
    exact ⟨_, rfl, .moved h⟩

/-- **A field that the narrower run does not exclude is not excluded**, and the runs stay in
step. -/
theorem step_narrows {cursor cursor' : Cursor} (h : cursor.Narrowed cursor') {isLast : Bool}
    {element : Element} {outcome' : Outcome}
    (hstep : step lookup policy isLast cursor' element = .ok outcome')
    (hincluded : outcome' ≠ .decided false) :
    ∃ outcome, step lookup policy isLast cursor element = .ok outcome
      ∧ outcome.Narrowed outcome' := by
  cases hsettled : cursor.settled with
  | true => exact step_narrows_of_settled h hsettled hstep hincluded
  | false =>
    rw [step_eq_pick (h.settled.trans hsettled), h.labels] at hstep
    rw [step_eq_pick hsettled]
    rcases hpick : pick? lookup cursor' element with fault | found'
    · rw [hpick] at hstep
      cases hstep
    · rw [hpick] at hstep
      rcases pick?_narrows h hpick with ⟨found, hfound, hsame⟩ | ⟨pick, rfl, hnegated⟩
      · rw [hfound]
        cases hsame with
        | none =>
          rcases hpassed : passesOver lookup element with fault | ⟨_ | _⟩ <;>
            simp only [hpassed, bind, Except.bind] at hstep <;> cases hstep
          · exact absurd rfl hincluded
          · exact ⟨_, rfl, .moved h⟩
        | some hpicks =>
          cases hstep
          refine ⟨_, rfl, ?_⟩
          cases hpicks with
          | named hnode => exact enter_narrowed hnode hincluded
          | viewed hnode =>
            simp only [Pick.labels, hnode.head.1] at hincluded ⊢
            exact enter_narrowed hnode hincluded
      · -- a negated node would have excluded the field
        cases hstep
        exact absurd (by rw [enter, hnegated, if_pos rfl]) hincluded

/-- **A path that the narrower run includes is included.** -/
theorem follow_narrows {cursor cursor' : Cursor} (h : cursor.Narrowed cursor') {path : Path}
    (hincluded : follow lookup policy cursor' path = .ok true) :
    follow lookup policy cursor path = .ok true := by
  induction path generalizing cursor cursor' with
  | nil => rfl
  | cons element rest ih =>
    rw [follow] at hincluded
    rw [follow]
    rcases hstep : step lookup policy rest.isEmpty cursor' element with fault | outcome'
    · rw [hstep] at hincluded
      cases hincluded
    · rw [hstep] at hincluded
      have hnot : outcome' ≠ .decided false := by
        rintro rfl
        cases hincluded
      obtain ⟨outcome, hstep, hsame⟩ := step_narrows h hstep hnot
      rw [hstep]
      cases hsame with
      | included => rfl
      | moved hnext => exact ih hnext hincluded

end Matching

open Matching

/-- **Negation only narrows.**  A path that is included after one negated node more was put
somewhere into an expression, at any depth, into a level that is not empty, is included without
it. -/
theorem Expression.includes_of_takesAway {ε : Type} {expression narrowed : Expression}
    (h : Node.TakesAway expression.nodes narrowed.nodes) {lookup : TypeLookup (Except ε)}
    {policy : ViewPolicy} {path : Path}
    (hincluded : narrowed.includes lookup policy path = .ok true) :
    expression.includes lookup policy path = .ok true := by
  have hlevels : Cursor.Narrowed ⟨expression.nodes, false, []⟩ ⟨narrowed.nodes, false, []⟩ :=
    ⟨h.narrows.2, rfl, rfl⟩
  exact follow_narrows hlevels hincluded

/-- An order with its owner, of whom two fields are details. -/
def ownedTypes : List TypeDecl :=
  [⟨"Order", [⟨"owner", [], false, false, .described "Owner"⟩]⟩,
    ⟨"Owner", [⟨"name", ["detail"], false, false, .untyped⟩,
      ⟨"address", ["detail"], false, false, .untyped⟩]⟩]

/-- The details of the owner. -/
def ownerDetail : Expression :=
  ⟨"owner\x7bdetail\x7d", [⟨.exact "owner", false, true, false, [.leaf (.exact "detail")]⟩]⟩

/-- The details of the owner apart from the address. -/
def ownerDetailBut : Expression :=
  ⟨"owner\x7b-address,detail\x7d",
    [⟨.exact "owner", false, true, false,
      [⟨.exact "address", true, false, false, []⟩, .leaf (.exact "detail")]⟩]⟩

/-- The name of the owner is included without the address, and so it is with it. -/
theorem Expression.includes_ownerDetail :
    ownerDetailBut.includes ((Schema.empty true).registerAll ownedTypes).lookup ⟨false, true⟩
        [⟨"owner", some (.described "Order")⟩, ⟨"name", some (.described "Owner")⟩] = .ok true
      ∧ ownerDetail.includes ((Schema.empty true).registerAll ownedTypes).lookup ⟨false, true⟩
        [⟨"owner", some (.described "Order")⟩, ⟨"name", some (.described "Owner")⟩] = .ok true := by
  have hincluded : ownerDetailBut.includes ((Schema.empty true).registerAll ownedTypes).lookup
      ⟨false, true⟩ [⟨"owner", some (.described "Order")⟩, ⟨"name", some (.described "Owner")⟩]
        = .ok true := by
    decide +kernel
  have haddress : Node.TakesAway [.leaf (.exact "detail")]
      [⟨.exact "address", true, false, false, []⟩, .leaf (.exact "detail")] :=
    @Node.TakesAway.here [] _ _ (List.cons_ne_nil _ _) rfl
  have htakes : Node.TakesAway ownerDetail.nodes ownerDetailBut.nodes :=
    @Node.TakesAway.inner [] []
      ⟨.exact "owner", false, true, false, [.leaf (.exact "detail")]⟩ _ haddress
  exact ⟨hincluded, includes_of_takesAway htakes hincluded⟩

end FieldFilter
