import FieldFilter.Proofs.Answers
import FieldFilter.Proofs.Redescribed

/-!
# Which types are looked up

While a value is pruned, types are looked up in two places: by the walk, for every object of a
described type, and by the decision about a path, for the types along it.  Both start from the type
of the root and come to further types through what visible fields are declared with.  So a type
that nothing of this kind declares is never looked up, whatever the value and the filter are, and
where all the types that are declared are known, nothing can fail.

* `FieldType.target?` — the described type that a declared type leads to.
* `Schema.Needs`, `Schema.Closed` — the types that a root leads to, and that all of them are known.
* `Schema.sight` — a walk from a root comes to objects of such types only, and every type along the
  path of one is known.
* `Filtering.failing`, `Filtering.succeeding` — computations that fail for certain reasons only, or
  not at all.
* **`Filtering.includes_succeeds`** — a decision about a path of known types does not fail.
* **`Session.prune_of_accepted`** — what a walk fails for, whatever its caches hold.
-/

namespace FieldFilter

/-- The described type that a declared type leads to: that of the value, or of the entries of a
map. -/
def FieldType.target? : FieldType → Option String
  | .untyped => none
  | .described type => some type
  | .map entry => entry

namespace Schema

/-- A visible field of a known type is declared with a type. -/
def Declares (schema : Schema) (target : String) : Prop :=
  ∃ type info, schema.find? type = some info
    ∧ ∃ field ∈ info.decl.visible, field.type.target? = some target

/-- A value of the type `root` may need the description of a type: it is that of the root, or a
visible field is declared with it. -/
def Needs (schema : Schema) (root : Owner) (target : String) : Prop :=
  root = .described target ∨ schema.Declares target

/-- All types that a value of the type `root` may need are known. -/
def Closed (schema : Schema) (root : Owner) : Prop :=
  ∀ target, schema.Needs root target → (schema.find? target).isSome = true

/-- It is enough that all types are known that visible fields are declared with. -/
theorem closed_of_types {schema : Schema} {root : Owner}
    (hroot : ∀ type, root = .described type → (schema.find? type).isSome = true)
    (htypes : ∀ info ∈ schema.types, ∀ field ∈ info.decl.visible, ∀ target ∈ field.type.target?,
      (schema.find? target).isSome = true) : schema.Closed root := by
  rintro target (htarget | ⟨type, info, hinfo, field, hfield, htarget⟩)
  · exact hroot target htarget
  · exact htypes info (List.mem_of_find?_eq_some hinfo) field hfield target htarget

variable {schema : Schema} {path : Path} {type : String} {info : TypeInfo}

theorem knows_nil (schema : Schema) : schema.Knows [] :=
  List.forall_mem_nil _

/-- Below an object of a known type all types along the path are known. -/
theorem Knows.child (h : schema.Knows path) (hinfo : schema.find? type = some info)
    (name : String) : schema.Knows (path.child name (some (.described type))) := by
  refine List.forall_mem_append.2 ⟨h, List.forall_mem_singleton.2 ?_⟩
  intro other hother
  obtain rfl := Option.some.inj hother
  rw [hinfo]
  rfl

/-- An entry of a map adds no type to the path. -/
theorem Knows.entry (h : schema.Knows path) (name : String) :
    schema.Knows (path.child name (some (.map Guide.mapType))) :=
  List.forall_mem_append.2 ⟨h, List.forall_mem_singleton.2 nofun⟩

/-- What a walk from a root comes to: values of types that the root needs, at paths along which all
types are known.  A type along a path has been looked up before. -/
def sight (schema : Schema) (root : Owner) : schema.Region where
  Holds type path _ := (∀ target ∈ type.target?, schema.Needs root target) ∧ schema.Knows path
  item hplace _ _ := hplace
  declared := by
    intro type path members info hplace hinfo field hfield value _
    refine ⟨fun target htarget => Or.inr ?_, hplace.2.child hinfo field.name⟩
    exact ⟨type, info, hinfo, field, hfield, htarget⟩
  undeclared := by
    intro type path members info hplace hinfo entry _ _
    exact ⟨nofun, hplace.2.child hinfo entry.1⟩
  entries := by
    intro type entry path members hplace hentry member _
    refine ⟨fun target htarget => hplace.1 target ?_, hplace.2.entry member.1⟩
    cases type with
    | described type => cases hentry
    | untyped =>
      cases hentry
      cases htarget
    | map declared =>
      cases declared with
      | none =>
        cases hentry
        cases htarget
      | some declared =>
        cases hentry
        exact htarget

/-- The root is in sight. -/
theorem sight_root (schema : Schema) (root : Owner) (value : Json) :
    (schema.sight root).Holds (Json.rootType root) [] value := by
  refine ⟨fun target htarget => ?_, knows_nil schema⟩
  cases root with
  | described type =>
    obtain rfl := Option.some.inj htarget
    exact Or.inl rfl
  | map type => cases htarget

end Schema

/-! ## Computations that fail for certain reasons only -/

/-- A filter whose text is accepted, and that was read if it was read at all. -/
structure BoundFilter.Accepted [Glob.Engine] (bound : BoundFilter) : Prop where
  filter : (Expression.parse bound.filter).isOk = true
  parsed : ∀ outcome, bound.parsed = some outcome → outcome.isOk = true

/-- An accepted text that was not read yet. -/
theorem BoundFilter.accepted_ofFilter [Glob.Engine] {filter : String} (root : Option Owner)
    (h : (Expression.parse filter).isOk = true) : (BoundFilter.ofFilter filter root).Accepted where
  filter := h
  parsed := nofun

namespace Filtering

section Failing

variable {σ : Type} {Blames Blames' : Fault → Prop} {Keeps : σ → Prop}

/-- Computations that, from states with a property, keep it and fail for certain reasons only. -/
def failing (Blames : Fault → Prop) (Keeps : σ → Prop) :
    Simulation (ExceptT Fault (StateM σ)) (ExceptT Fault (StateM σ)) where
  Rel computation _ := ∀ state, Keeps state →
    (∀ fault, (perform computation state).1 = .error fault → Blames fault)
      ∧ Keeps (perform computation state).2
  pure _ _ hkeeps := ⟨nofun, hkeeps⟩
  bind := by
    intro α β computation _ next _ hfirst hnext state hkeeps
    obtain ⟨hblames, hafter⟩ := hfirst state hkeeps
    rw [perform_bind]
    rcases hrun : perform computation state with ⟨fault | a, after⟩
    · rw [hrun] at hblames hafter
      refine ⟨fun other hother => ?_, hafter⟩
      cases hother
      exact hblames fault rfl
    · rw [hrun] at hafter
      exact hnext a after hafter

theorem failing_imp {α : Type} {computation other : ExceptT Fault (StateM σ) α}
    (himp : ∀ fault, Blames fault → Blames' fault) (h : (failing Blames Keeps).Rel computation other) :
    (failing Blames' Keeps).Rel computation other := by
  intro state hkeeps
  obtain ⟨hblames, hafter⟩ := h state hkeeps
  exact ⟨fun fault hfault => himp fault (hblames fault hfault), hafter⟩

end Failing

variable [Glob.Engine]

/-- A state with the types of a schema and an accepted filter, whatever is remembered. -/
structure State.Accepts (schema : Schema) (state : State) : Prop where
  schema : state.session.registry.schema = schema
  bound : state.bound.Accepted

/-- Computations that do not fail under an accepted filter. -/
abbrev succeeding (schema : Schema) : Simulation Filtering Filtering :=
  failing (fun _ => False) (State.Accepts schema)

variable {schema : Schema}

/-- What only goes on with the caches does not fail. -/
theorem succeeds_of_ok {α : Type} {computation : Filtering α}
    (h : ∀ state, ∃ answer session, perform computation state = (.ok answer, ⟨state.bound, session⟩)
      ∧ session.registry.schema = state.session.registry.schema) :
    (succeeding schema).Rel computation computation := by
  rintro state ⟨rfl, hbound⟩
  obtain ⟨answer, session, hrun, hschema⟩ := h state
  rw [hrun]
  exact ⟨nofun, hschema, hbound⟩

theorem get_succeeds : (succeeding schema).Rel (get : Filtering State) get :=
  succeeds_of_ok fun state => ⟨state, state.session, rfl, rfl⟩

theorem remembered_succeeds (path : Path) :
    (succeeding schema).Rel (remembered path) (remembered path) := by
  refine succeeds_of_ok fun state => ?_
  rw [perform_remembered, Session.remembered]
  cases Session.decisionKey? path state.bound.filter <;> exact ⟨_, _, rfl, rfl⟩

theorem remember_succeeds (path : Path) (included : Bool) :
    (succeeding schema).Rel (remember path included) (remember path included) := by
  refine succeeds_of_ok fun state => ?_
  rw [perform_remember, Session.remember]
  cases Session.decisionKey? path state.bound.filter <;> exact ⟨_, _, rfl, rfl⟩

/-- An accepted text is read, from memory or not: what is remembered is an expression. -/
theorem isOk_parse {session : Session} {filter : String}
    (h : (Expression.parse filter).isOk = true) : (session.parse filter).1.isOk = true := by
  rw [Session.parse, Cache.getOrInsert_eq]
  cases (session.expressions.get session.clock filter).1 with
  | some found => rfl
  | none =>
    cases hparse : Expression.parse filter with
    | error fault =>
      rw [hparse] at h
      exact absurd h Bool.false_ne_true
    | ok parsed => rfl

/-- An accepted filter is read. -/
theorem expression_succeeds : (succeeding schema).Rel expression expression := by
  rintro ⟨⟨filter, root, parsed⟩, session⟩ ⟨rfl, hfilter, hparsed⟩
  have hanswer : ∀ outcome : Except SyntaxFault Expression, outcome.isOk = true →
      ∀ fault, outcome.mapError Fault.malformed = .error fault → False := by
    intro outcome hok fault hfault
    cases outcome with
    | error => exact absurd hok Bool.false_ne_true
    | ok => cases hfault
  cases parsed with
  | some outcome => exact ⟨hanswer outcome (hparsed outcome rfl), rfl, hfilter, hparsed⟩
  | none =>
    have hread : (session.parse filter).1.isOk = true := isOk_parse hfilter
    refine ⟨hanswer _ hread, rfl, hfilter, fun outcome houtcome => ?_⟩
    obtain rfl := Option.some.inj houtcome
    exact hread

/-- Describes the types that a schema knows as a session does, and all others somehow. -/
def describeKnown (schema : Schema) (type : String) : Filtering TypeInfo :=
  if (schema.find? type).isSome then describe type else pure ⟨⟨type, []⟩, [], []⟩

theorem describeKnown_succeeds (type : String) :
    (succeeding schema).Rel (describeKnown schema type) (describeKnown schema type) := by
  rw [describeKnown]
  split
  · next hknown =>
    rintro state ⟨rfl, hbound⟩
    refine ⟨fun fault hfault => ?_, rfl, hbound⟩
    obtain ⟨info, hinfo⟩ := Option.isSome_iff_exists.1 hknown
    have hanswer : (perform (describe type) state).1
        = (state.session.registry.schema.describe type).mapError Fault.lookup := rfl
    rw [hanswer, Schema.describe, hinfo] at hfault
    cases hfault
  · exact (succeeding schema).pure _

/-- What is worked out about a path of known types does not fail.  Types off the path are not asked
about, so they may as well be described somehow. -/
theorem decide_succeeds {path : Path} (h : schema.Knows path) :
    (succeeding schema).Rel (decide path) (decide path) := by
  have hsame : ∀ element ∈ path, ∀ type ∈ element.described?, Matching.SameAt
      (.ofDescriptions describe) (.ofDescriptions (describeKnown schema)) (.described type) := by
    intro element hmem type htype
    have hdescribed : describeKnown schema type = describe type :=
      if_pos (h element hmem type htype)
    constructor
    · intro label
      simp only [TypeLookup.ofDescriptions, hdescribed]
    · intro field
      simp only [TypeLookup.ofDescriptions, hdescribed]
  refine (succeeding schema).bind expression_succeeds fun expression => ?_
  refine (succeeding schema).bind get_succeeds fun state => ?_
  rw [Expression.includes, Matching.follow_congr hsame]
  exact Simulation.follow (Simulation.lookups_ofDescriptions describeKnown_succeeds) _ _ path

/-- **A decision about a path of known types does not fail.** -/
theorem includes_succeeds {path : Path} (h : schema.Knows path) :
    (succeeding schema).Rel (includes path) (includes path) := by
  refine (succeeding schema).bind get_succeeds fun state => ?_
  split
  · exact (succeeding schema).pure true
  · refine (succeeding schema).bind (remembered_succeeds path) fun found => ?_
    cases found with
    | some included => exact (succeeding schema).pure included
    | none =>
      exact (succeeding schema).bind (decide_succeeds h) fun included =>
        (succeeding schema).bind (remember_succeeds path included) fun _ =>
          (succeeding schema).pure included

/-- A walk from a root fails because a type that the root needs is not known. -/
def Misses (schema : Schema) (root : Owner) (fault : Fault) : Prop :=
  ∃ type, fault = .lookup (.unknownType type) ∧ schema.find? type = none ∧ schema.Needs root type

/-- A walk from a root looks up what is in sight, and fails for nothing else. -/
theorem guides_failing (root : Owner) (placeholder : Option Json) :
    (failing (Misses schema root) (State.Accepts schema)).Guides (.ofRegion (schema.sight root))
      (Session.guide placeholder) (Session.guide placeholder) where
  describe := by
    rintro type path members members' hpair write write' hwrite state ⟨rfl, hbound⟩
    have hneeds : state.session.registry.schema.Needs root type := hpair.2.1 type rfl
    have hlook : perform ((Session.guide placeholder).describe type) state
        = ((state.session.registry.schema.describe type).mapError Fault.lookup,
          { state with session := { state.session with
            registry := (state.session.registry.describe type).2 } }) := rfl
    rw [perform_bind, hlook, Schema.describe]
    cases hinfo : state.session.registry.schema.find? type with
    | none =>
      refine ⟨fun fault hfault => ?_, rfl, hbound⟩
      cases hfault
      exact ⟨type, rfl, hinfo, hneeds⟩
    | some info => exact hwrite info hinfo _ ⟨rfl, hbound⟩
  includes _ _ _ _ hpair := failing_imp (fun _ => False.elim) (includes_succeeds hpair.2.2)
  placeholder := rfl

end Filtering

/-- **What a walk fails for.**  Under a filter whose text is accepted, whatever the options are and
whatever the caches hold, a value is pruned if all types that the root needs are known; and if it is
not pruned, the fault names a type that the root needs and that is not known. -/
theorem Session.prune_of_accepted [Glob.Engine] (session : Session) {bound : BoundFilter}
    (haccepted : bound.Accepted) (placeholder : Option Json) (root : Owner) (value : Json) :
    (session.registry.schema.Closed root →
        ∃ out, (session.prune bound placeholder root value).1 = .ok out)
      ∧ ∀ fault, (session.prune bound placeholder root value).1 = .error fault →
          ∃ type, fault = .lookup (.unknownType type)
            ∧ session.registry.schema.find? type = none
            ∧ session.registry.schema.Needs root type := by
  have hpair : (Schema.Pairing.ofRegion (session.registry.schema.sight root)).Rel
      (Json.rootType root) [] value value :=
    ⟨rfl, session.registry.schema.sight_root root value⟩
  have hblames := (Simulation.prune (Filtering.guides_failing root placeholder) hpair
    ⟨bound, session⟩ ⟨rfl, haccepted⟩).1
  refine ⟨fun hclosed => ?_, hblames⟩
  cases hpruned : (session.prune bound placeholder root value).1 with
  | ok out => exact ⟨out, rfl⟩
  | error fault =>
    obtain ⟨type, -, hnone, hneeds⟩ := hblames fault hpruned
    have hknown := hclosed type hneeds
    rw [hnone] at hknown
    cases hknown

/-- A parcel has items and labels, and a sender that is hidden.  Only the items are described. -/
def parcelTypes : List TypeDecl :=
  [⟨"Parcel", [⟨"sender", [], true, false, .described "Person"⟩,
      ⟨"items", [], false, false, .described "Item"⟩,
      ⟨"labels", [], false, false, .map (some "Label")⟩]⟩,
    ⟨"Item", [⟨"sku", [], false, false, .untyped⟩]⟩]

/-- A description of labels. -/
def labelType : TypeDecl :=
  ⟨"Label", [⟨"text", [], false, false, .untyped⟩]⟩

/-- A parcel with a sender and a label. -/
def parcel : Json :=
  .object [("labels", .object [("top", .object [("text", .string "up")])]),
    ("sender", .object [("name", .string "a")])]

/-- The labels of a parcel are needed, and its sender is not: the parcel can be pruned as soon as
labels are described. -/
theorem Session.prune_parcel :
    (BoundFilter.ofFilter "labels\x7btop\x7d" none).Accepted
      ∧ ((ofSettings Settings.default parcelTypes).prune (.ofFilter "labels\x7btop\x7d" none) none
          (.described "Parcel") parcel).1 = .error (.lookup (.unknownType "Label"))
      ∧ (∃ type, Fault.lookup (.unknownType "Label") = .lookup (.unknownType type)
          ∧ (ofSettings Settings.default parcelTypes).registry.schema.find? type = none
          ∧ (ofSettings Settings.default parcelTypes).registry.schema.Needs (.described "Parcel")
              type)
      ∧ (ofSettings Settings.default (parcelTypes ++ [labelType])).registry.schema.Closed
          (.described "Parcel")
      ∧ ∃ out, ((ofSettings Settings.default (parcelTypes ++ [labelType])).prune
          (.ofFilter "labels\x7btop\x7d" none) none (.described "Parcel") parcel).1 = .ok out := by
  have haccepted : (BoundFilter.ofFilter "labels\x7btop\x7d" none).Accepted :=
    BoundFilter.accepted_ofFilter none (by decide +kernel)
  have hfault : ((ofSettings Settings.default parcelTypes).prune
      (.ofFilter "labels\x7btop\x7d" none) none (.described "Parcel") parcel).1
        = .error (.lookup (.unknownType "Label")) := by decide +kernel
  have hclosed : (ofSettings Settings.default (parcelTypes ++ [labelType])).registry.schema.Closed
      (.described "Parcel") := by
    refine Schema.closed_of_types ?_ (by decide +kernel)
    rintro type ⟨⟩
    decide +kernel
  exact ⟨haccepted, hfault,
    (Session.prune_of_accepted _ haccepted none _ parcel).2 _ hfault, hclosed,
    (Session.prune_of_accepted _ haccepted none _ parcel).1 hclosed⟩

end FieldFilter
