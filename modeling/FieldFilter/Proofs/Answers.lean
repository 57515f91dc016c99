import FieldFilter.Registry

/-!
# What a schema answers

Matching asks for the members of views and for the unwrapped fields of types.  A schema answers
every question about a type that it knows, from the view table and the unwrapped names of the type;
this file says how the questions that are put together from these are answered.

* `Schema.Knows` — all types along a path are known.
* `Schema.viewMembers`, `Schema.standIn` — what a view holds, and what a label stands for.
* `Schema.PassesOver`, **`Schema.passesOver_of_knows`** — the elements that are passed over.
* `Schema.holds`, **`Schema.inViews_eq`** — the fields that some labels hold together.
-/

namespace FieldFilter.Schema

/-- All types with declared fields along a path are known. -/
def Knows (schema : Schema) (path : Path) : Prop :=
  ∀ element ∈ path, ∀ type ∈ element.described?, (schema.find? type).isSome = true

instance (schema : Schema) (path : Path) : Decidable (schema.Knows path) :=
  inferInstanceAs (Decidable
    (∀ element ∈ path, ∀ type ∈ element.described?, (schema.find? type).isSome = true))

/-- The members of a view of a type. -/
def viewMembers (schema : Schema) (type label : String) : NameSet :=
  match schema.find? type with
  | some info => info.views.members label
  | none => []

/-- The members that a label stands for: those of its view, or of the base view if it names nothing
and the policy says so. -/
def standIn (schema : Schema) (policy : ViewPolicy) (type label : String) : NameSet :=
  if (schema.viewMembers type label).isEmpty && policy.implicitBase then
    schema.viewMembers type Name.baseView
  else schema.viewMembers type label

/-- Whether some labels together hold a field of a type; the base view does where there are
none. -/
def holds (schema : Schema) (policy : ViewPolicy) (labels : List String) (type field : String) :
    Bool :=
  match labels with
  | [] => (schema.viewMembers type Name.baseView).contains field
  | labels => labels.any fun label => (schema.standIn policy type label).contains field

/-- An element is an unwrapped field of the described type around it. -/
def PassesOver (schema : Schema) (element : Element) : Prop :=
  ∃ type info, element.owner = some (.described type) ∧ schema.find? type = some info
    ∧ element.name ∈ info.unwrapped

variable {schema : Schema} {policy : ViewPolicy}

/-- The types along a path are those of its first element and those of the others. -/
theorem knows_cons {element : Element} {rest : Path} :
    schema.Knows (element :: rest)
      ↔ (∀ type ∈ element.described?, (schema.find? type).isSome = true)
        ∧ schema.Knows rest :=
  List.forall_mem_cons

/-! ## Views -/

/-- The members of a view of a known type are looked up. -/
theorem lookup_members {type : String} (h : (schema.find? type).isSome = true) (label : String) :
    schema.lookup.members (.described type) label = .ok (schema.viewMembers type label) := by
  obtain ⟨info, hinfo⟩ := Option.isSome_iff_exists.1 h
  simp [lookup, TypeLookup.ofDescriptions, describe, viewMembers, hinfo, bind, Except.bind, pure,
    Except.pure]

/-- Of a known type, the labels together hold what one of them stands for. -/
theorem inSomeView_eq {type : String} (h : (schema.find? type).isSome = true) (field : String)
    (labels : List String) :
    Matching.inSomeView schema.lookup policy (.described type) field labels
      = .ok (labels.any fun label => (schema.standIn policy type label).contains field) := by
  induction labels with
  | nil => rfl
  | cons label rest ih =>
    rw [Matching.inSomeView, lookup_members h, lookup_members h, ih, List.any_cons, standIn]
    simp only [bind, Except.bind, pure, Except.pure]
    by_cases hbase : ((schema.viewMembers type label).isEmpty && policy.implicitBase) = true
    · simp only [hbase, if_true]
      cases (schema.viewMembers type Name.baseView).contains field <;> rfl
    · simp only [hbase, Bool.false_eq_true, if_false]
      cases (schema.viewMembers type label).contains field <;> rfl

/-- **Whether views hold a field of a known type.** -/
theorem inViews_eq {type : String} (h : (schema.find? type).isSome = true) (field : String)
    (labels : List String) :
    Matching.inViews schema.lookup policy labels (.described type) field
      = .ok (schema.holds policy labels type field) := by
  cases labels with
  | nil =>
    rw [Matching.inViews, lookup_members h]
    rfl
  | cons label rest => exact inSomeView_eq h field (label :: rest)

/-! ## Unwrapped fields -/

/-- In a type that the schema has, the unwrapped names are passed over. -/
theorem passesOver_iff {type : String} {info : TypeInfo} (hinfo : schema.find? type = some info)
    (name : String) :
    schema.PassesOver ⟨name, some (.described type)⟩ ↔ name ∈ info.unwrapped := by
  simp [PassesOver, hinfo]

theorem passesOver_eq_ok_true_iff (element : Element) :
    Matching.passesOver schema.lookup element = .ok true ↔ schema.PassesOver element := by
  rcases element with ⟨name, - | ⟨type | type⟩⟩
  · simp [Matching.passesOver, PassesOver, pure, Except.pure]
  · cases hfind : schema.find? type <;>
      simp [Matching.passesOver, PassesOver, lookup, TypeLookup.ofDescriptions, describe, hfind,
        bind, Except.bind, pure, Except.pure]
  · simp [Matching.passesOver, PassesOver, pure, Except.pure]

/-- **Whether an element of a known type is passed over.** -/
theorem passesOver_of_knows {element : Element}
    (h : ∀ type ∈ element.described?, (schema.find? type).isSome = true) :
    ∃ passed, Matching.passesOver schema.lookup element = .ok passed
      ∧ (passed = true ↔ schema.PassesOver element) := by
  have hanswer : ∃ passed, Matching.passesOver schema.lookup element = .ok passed := by
    rcases element with ⟨name, - | ⟨type | type⟩⟩
    · exact ⟨false, rfl⟩
    · obtain ⟨info, hinfo⟩ := Option.isSome_iff_exists.1 (h type rfl)
      refine ⟨info.unwrapped.contains name, ?_⟩
      simp [Matching.passesOver, lookup, TypeLookup.ofDescriptions, describe, hinfo, bind,
        Except.bind, pure, Except.pure]
    · exact ⟨false, rfl⟩
  obtain ⟨passed, hpassed⟩ := hanswer
  refine ⟨passed, hpassed, ?_⟩
  rw [← passesOver_eq_ok_true_iff, hpassed, Except.ok.injEq]

end FieldFilter.Schema
