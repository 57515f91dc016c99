import FieldFilter.Registry

/-!
# Deciding in two monads at once

`Expression.includes` is written for any monad and asks its questions through a `TypeLookup`.  So
whatever relation two monads have that goes along with `pure` and `bind`, the two runs are related
as soon as the answers to the questions are.  This file proves that once; a session with its caches
and the plain functions without memory are the two monads it is used for.

* `Simulation` — a relation between computations that goes along with `pure` and `bind`.
* `Simulation.Lookups` — related answers to the questions.
* **`Simulation.includes`** — related decisions.
-/

namespace FieldFilter

/-- A relation between the computations of two monads that goes along with `pure` and `bind`. -/
structure Simulation (m n : Type → Type) [Monad m] [Monad n] where
  Rel {α : Type} : m α → n α → Prop
  pure {α : Type} (a : α) : Rel (Pure.pure a) (Pure.pure a)
  bind {α β : Type} {x : m α} {y : n α} {f : α → m β} {g : α → n β} :
    Rel x y → (∀ a, Rel (f a) (g a)) → Rel (x >>= f) (y >>= g)

namespace Simulation

variable {m n : Type → Type} [Monad m] [Monad n] (sim : Simulation m n)

/-! ## Matching -/

/-- Two lookups give related answers to every question about types. -/
structure Lookups (lookup : TypeLookup m) (lookup' : TypeLookup n) : Prop where
  members : ∀ owner label, sim.Rel (lookup.members owner label) (lookup'.members owner label)
  isUnwrapped : ∀ owner field,
    sim.Rel (lookup.isUnwrapped owner field) (lookup'.isUnwrapped owner field)

variable {sim} {lookup : TypeLookup m} {lookup' : TypeLookup n}

theorem firstView (h : sim.Lookups lookup lookup') (owner : Owner) (field : String)
    (nodes : List Node) :
    sim.Rel (Matching.firstView lookup owner field nodes)
      (Matching.firstView lookup' owner field nodes) := by
  induction nodes with
  | nil => exact sim.pure none
  | cons node rest ih =>
      refine sim.bind (h.members owner node.name.label) fun names => ?_
      split
      · exact sim.pure (some node)
      · exact ih

theorem viewNode (h : sim.Lookups lookup lookup') (element : Element) (nodes : List Node) :
    sim.Rel (Matching.viewNode lookup element nodes)
      (Matching.viewNode lookup' element nodes) := by
  simp only [Matching.viewNode]
  split
  · exact sim.pure none
  · exact sim.pure _
  · exact firstView h _ _ _

theorem passesOver (h : sim.Lookups lookup lookup') (element : Element) :
    sim.Rel (Matching.passesOver lookup element) (Matching.passesOver lookup' element) := by
  simp only [Matching.passesOver]
  split
  · exact h.isUnwrapped _ _
  · exact sim.pure false

theorem inSomeView (h : sim.Lookups lookup lookup') (policy : ViewPolicy) (owner : Owner)
    (field : String) (labels : List String) :
    sim.Rel (Matching.inSomeView lookup policy owner field labels)
      (Matching.inSomeView lookup' policy owner field labels) := by
  induction labels with
  | nil => exact sim.pure false
  | cons label rest ih =>
      have settle : ∀ names : List String,
          sim.Rel (if names.contains field then Pure.pure true
              else Matching.inSomeView lookup policy owner field rest)
            (if names.contains field then Pure.pure true
              else Matching.inSomeView lookup' policy owner field rest) := by
        intro names
        split
        · exact sim.pure true
        · exact ih
      simp only [Matching.inSomeView]
      refine sim.bind (h.members owner label) fun named => ?_
      split
      · exact sim.bind (h.members owner Name.baseView) settle
      · exact sim.bind (sim.pure named) settle

theorem inViews (h : sim.Lookups lookup lookup') (policy : ViewPolicy) (labels : List String)
    (owner : Owner) (field : String) :
    sim.Rel (Matching.inViews lookup policy labels owner field)
      (Matching.inViews lookup' policy labels owner field) := by
  simp only [Matching.inViews]
  split
  · exact sim.bind (h.members owner Name.baseView) fun names => sim.pure _
  · exact inSomeView h policy owner field _

theorem step (h : sim.Lookups lookup lookup') (policy : ViewPolicy) (isLast : Bool)
    (cursor : Matching.Cursor) (element : Element) :
    sim.Rel (Matching.step lookup policy isLast cursor element)
      (Matching.step lookup' policy isLast cursor element) := by
  simp only [Matching.step]
  split
  · split
    · exact sim.bind (inViews h policy _ _ _) fun held => sim.pure _
    · exact sim.pure _
  · split
    · exact sim.pure _
    · refine sim.bind (viewNode h element _) fun found => ?_
      cases found with
      | some node => exact sim.pure _
      | none => exact sim.bind (passesOver h element) fun passed => sim.pure _

theorem follow (h : sim.Lookups lookup lookup') (policy : ViewPolicy) (cursor : Matching.Cursor)
    (path : Path) :
    sim.Rel (Matching.follow lookup policy cursor path)
      (Matching.follow lookup' policy cursor path) := by
  induction path generalizing cursor with
  | nil => exact sim.pure true
  | cons element rest ih =>
      refine sim.bind (step h policy rest.isEmpty cursor element) fun outcome => ?_
      cases outcome with
      | decided included => exact sim.pure included
      | moved next => exact ih next

/-- **Related answers about types give related decisions.** -/
theorem includes (h : sim.Lookups lookup lookup') (expression : Expression)
    (policy : ViewPolicy) (path : Path) :
    sim.Rel (expression.includes lookup policy path)
      (expression.includes lookup' policy path) :=
  follow h policy _ path

/-- Lookups are related if the descriptions of types that they are made from are. -/
theorem lookups_ofDescriptions {describe : String → m TypeInfo} {describe' : String → n TypeInfo}
    (h : ∀ type, sim.Rel (describe type) (describe' type)) :
    sim.Lookups (.ofDescriptions describe) (.ofDescriptions describe') where
  members owner label := by
    cases owner with
    | described type => exact sim.bind (h type) fun info => sim.pure _
    | map type => exact sim.pure []
  isUnwrapped owner field := by
    cases owner with
    | described type => exact sim.bind (h type) fun info => sim.pure _
    | map type => exact sim.pure false

end Simulation

end FieldFilter
