import FieldFilter.Proofs.Location
import FieldFilter.Proofs.Steady
import Mathlib.Data.List.Nodup

/-!
# Hidden members do not show

A field that is hidden is never written.  More than that: whatever stands in it, and whether
anything does, changes nothing at all.  Two values that differ in hidden members alone, at any depth
and below arrays, maps and unwrapped fields, are pruned to the same value or fail in the same way;
and they leave the same session behind, so a later pass cannot tell them apart either.

* `TypeDecl.conceals` — whether all fields of a name are hidden.
* `Schema.Equivalent` — values that differ in hidden members alone.
* `Schema.equivalents` — such values go together all the way down.
* **`Session.prune_eq_of_equivalent`** — such values are pruned alike.
-/

namespace FieldFilter

/-- Whether a name is declared, and by hidden fields alone. -/
def TypeDecl.conceals (decl : TypeDecl) (name : String) : Bool :=
  decl.declares name && decl.fields.all fun field => field.name != name || field.hidden

namespace Schema

/-- Two values of a declared type that differ in hidden members alone.  Below objects of a type that
is not known nothing is compared, as nothing below them is looked at. -/
inductive Equivalent (schema : Schema) : FieldType → Json → Json → Prop where
  | scalar {type : FieldType} {value : Json} (h : value.isScalar = true) :
    Equivalent schema type value value
  | array {type : FieldType} {items items' : List Json} (hlength : items.length = items'.length)
    (h : ∀ (index : Nat) (item item' : Json), items[index]? = some item →
      items'[index]? = some item' → Equivalent schema type item item') :
    Equivalent schema type (.array items) (.array items')
  /-- Objects of a described type have the same members, but for those that are hidden.  A member
  may be declared more than once, and is compared at each of its visible types. -/
  | described {type : String} {info : TypeInfo} {members members' : Json.Members}
    (hinfo : schema.find? type = some info)
    (hpresent : ∀ name, info.decl.conceals name = false →
      (members.lookup name).isSome = (members'.lookup name).isSome)
    (hdeclared : ∀ field ∈ info.decl.visible, ∀ value value',
      members.lookup field.name = some value → members'.lookup field.name = some value' →
        Equivalent schema field.type value value')
    (hundeclared : ∀ name value value', info.decl.declares name = false →
      members.lookup name = some value → members'.lookup name = some value' →
        Equivalent schema .untyped value value') :
    Equivalent schema (.described type) (.object members) (.object members')
  | unknown {type : String} {members members' : Json.Members} (h : schema.find? type = none) :
    Equivalent schema (.described type) (.object members) (.object members')
  /-- Maps and untyped objects have the same members. -/
  | entries {type entry : FieldType} {members members' : Json.Members}
    (hentry : type.entry? = some entry)
    (hpresent : ∀ name, (members.lookup name).isSome = (members'.lookup name).isSome)
    (h : ∀ name value value', members.lookup name = some value →
      members'.lookup name = some value' → Equivalent schema entry value value') :
    Equivalent schema type (.object members) (.object members')

end Schema

/-! ## Members of the same names -/

/-- The entries of some keys, looked up. -/
theorem AssocList.lookup_filter {κ ν : Type} [BEq κ] [LawfulBEq κ] [DecidableEq κ]
    (entries : List (κ × ν)) (keep : κ → Bool) (key : κ) :
    (entries.filter fun entry => keep entry.1).lookup key
      = if keep key then entries.lookup key else none := by
  induction entries with
  | nil => simp
  | cons head rest ih =>
      obtain ⟨name, value⟩ := head
      rw [List.filter_cons]
      by_cases hkey : key = name
      · subst hkey
        cases hkeep : keep key <;> simp [hkeep, ih]
      · cases hkeep : keep name <;> simp [ih, lookup_cons_ite, hkey]

/-- A key is listed if it is found. -/
theorem AssocList.mem_keys_iff {κ ν : Type} [BEq κ] [LawfulBEq κ] (entries : List (κ × ν))
    (key : κ) : key ∈ entries.map (·.1) ↔ (entries.lookup key).isSome = true := by
  rw [List.lookup_isSome_iff, List.mem_map]
  constructor
  · rintro ⟨entry, hmem, rfl⟩
    exact ⟨entry, hmem, beq_self_eq_true _⟩
  · rintro ⟨entry, hmem, hkey⟩
    exact ⟨entry, hmem, (beq_iff_eq.1 hkey).symm⟩

namespace Json.Members

variable {members members' : Members}

/-- Members in order that have the same names list them alike. -/
theorem Ordered.keys_eq (h : Ordered members) (h' : Ordered members')
    (hpresent : ∀ name, (members.lookup name).isSome = (members'.lookup name).isSome) :
    members.map (·.1) = members'.map (·.1) := by
  have hperm : (members.map (·.1)).Perm (members'.map (·.1)) := by
    refine (List.perm_ext_iff_of_nodup h.nodup h'.nodup).2 fun name => ?_
    rw [AssocList.mem_keys_iff, AssocList.mem_keys_iff, hpresent]
  refine hperm.eq_of_pairwise ?_ (List.pairwise_map.2 h) (List.pairwise_map.2 h')
  intro a b _ _ hab hba
  exact absurd (String.lt_trans hab hba) (String.lt_irrefl a)

/-- Members in order that have the same names, and under each name values that go together, go
together one by one. -/
theorem Ordered.forall₂ (h : Ordered members) (h' : Ordered members')
    {R : String → Json → Json → Prop}
    (hpresent : ∀ name, (members.lookup name).isSome = (members'.lookup name).isSome)
    (hvalues : ∀ name value value', members.lookup name = some value →
      members'.lookup name = some value' → R name value value') :
    List.Forall₂ (fun entry entry' => entry.1 = entry'.1 ∧ R entry.1 entry.2 entry'.2) members
      members' := by
  have hkeys := h.keys_eq h' hpresent
  have hlength : members.length = members'.length := by
    simpa using congrArg List.length hkeys
  refine List.forall₂_iff_get.2 ⟨hlength, fun index hindex hindex' => ?_⟩
  have hname : (members.get ⟨index, hindex⟩).1 = (members'.get ⟨index, hindex'⟩).1 := by
    have hat := congrArg (fun names => names[index]?) hkeys
    simpa [hindex, hindex'] using hat
  refine ⟨hname, hvalues _ _ _ ?_ ?_⟩
  · exact (AssocList.mem_iff_lookup h.nodup).1 (List.get_mem members _)
  · rw [hname]
    exact (AssocList.mem_iff_lookup h'.nodup).1 (List.get_mem members' _)

/-- Members in order are determined by what is found under each name. -/
theorem Ordered.eq_of_lookup (h : Ordered members) (h' : Ordered members')
    (hlookup : ∀ name, members.lookup name = members'.lookup name) : members = members' := by
  have hpairs := h.forall₂ h' (R := fun _ value value' => value = value')
    (fun name => by rw [hlookup]) fun name value value' hvalue hvalue' =>
      Option.some.inj ((hvalue.symm.trans (hlookup name)).trans hvalue')
  have hsame : List.Forall₂ (· = ·) members members' := hpairs.imp fun _ _ hpair => Prod.ext hpair.1 hpair.2
  rwa [List.forall₂_eq_eq_eq] at hsame

end Json.Members

/-! ## Equivalent values go together -/

namespace TypeDecl

variable {decl : TypeDecl}

/-- A visible field conceals nothing of its name. -/
theorem conceals_of_visible {field : FieldDecl} (h : field ∈ decl.visible) :
    decl.conceals field.name = false := by
  obtain ⟨hmem, hvisible⟩ := List.mem_filter.1 h
  have hshown : field.hidden = false := by simpa using hvisible
  have hall : (decl.fields.all fun other => other.name != field.name || other.hidden) = false := by
    refine List.all_eq_false.2 ⟨field, hmem, ?_⟩
    simp [hshown]
  rw [conceals, hall, Bool.and_false]

theorem conceals_of_undeclared {name : String} (h : decl.declares name = false) :
    decl.conceals name = false := by
  rw [conceals, h, Bool.false_and]

end TypeDecl

namespace Schema

variable {schema : Schema}

/-- A scalar is equivalent to itself alone. -/
theorem Equivalent.eq_of_isScalar {type : FieldType} {value value' : Json}
    (h : schema.Equivalent type value value') (hscalar : value.isScalar = true) :
    value' = value := by
  cases h with
  | scalar => rfl
  | array => exact absurd hscalar Bool.false_ne_true
  | described => exact absurd hscalar Bool.false_ne_true
  | unknown => exact absurd hscalar Bool.false_ne_true
  | entries => exact absurd hscalar Bool.false_ne_true

/-- What is known about equivalent objects of a described type. -/
theorem Equivalent.members {type : String} {info : TypeInfo} {members members' : Json.Members}
    (h : schema.Equivalent (.described type) (.object members) (.object members'))
    (hinfo : schema.find? type = some info) :
    (∀ name, info.decl.conceals name = false →
        (members.lookup name).isSome = (members'.lookup name).isSome)
      ∧ (∀ field ∈ info.decl.visible, ∀ value value', members.lookup field.name = some value →
        members'.lookup field.name = some value' → schema.Equivalent field.type value value')
      ∧ ∀ name value value', info.decl.declares name = false → members.lookup name = some value →
        members'.lookup name = some value' → schema.Equivalent .untyped value value' := by
  cases h with
  | scalar hscalar => exact absurd hscalar Bool.false_ne_true
  | entries hentry => cases hentry
  | unknown hnone =>
      rw [hnone] at hinfo
      cases hinfo
  | described hinfo' hpresent hdeclared hundeclared =>
      obtain rfl := Option.some.inj (hinfo'.symm.trans hinfo)
      exact ⟨hpresent, hdeclared, hundeclared⟩

/-- Every value is equivalent to itself. -/
theorem Equivalent.refl (value : Json) : ∀ type, schema.Equivalent type value value := by
  induction value using Json.induct with
  | array items ih =>
      intro type
      refine .array rfl fun index item item' hitem hitem' => ?_
      obtain rfl := Option.some.inj (hitem.symm.trans hitem')
      exact ih item (List.mem_of_getElem? hitem) type
  | object members ih =>
      intro type
      have hsame : ∀ name value value', members.lookup name = some value →
          members.lookup name = some value' → ∀ type, schema.Equivalent type value value' := by
        intro name value value' hvalue hvalue'
        obtain rfl := Option.some.inj (hvalue.symm.trans hvalue')
        exact ih (name, value) (AssocList.mem_of_lookup hvalue)
      cases type with
      | untyped => exact .entries rfl (fun _ => rfl) fun name _ _ h h' => hsame name _ _ h h' _
      | map entry =>
          cases entry <;>
            exact .entries rfl (fun _ => rfl) fun name _ _ h h' => hsame name _ _ h h' _
      | described type =>
          cases hinfo : schema.find? type with
          | none => exact .unknown hinfo
          | some info =>
              exact .described hinfo (fun _ _ => rfl)
                (fun field _ value value' h h' => hsame field.name value value' h h' _)
                fun name value value' _ h h' => hsame name value value' h h' _
  | _ => exact fun type => .scalar rfl

/-- An object is equivalent to itself without the members that are hidden. -/
theorem Equivalent.without_concealed {type : String} {info : TypeInfo} {members : Json.Members}
    (hinfo : schema.find? type = some info) :
    schema.Equivalent (.described type) (.object members)
      (.object (members.filter fun entry => !info.decl.conceals entry.1)) := by
  have hlookup := AssocList.lookup_filter members fun name => !info.decl.conceals name
  refine .described hinfo (fun name hname => ?_)
    (fun field hfield value value' hvalue hvalue' => ?_) fun name value value' hname hvalue hvalue' => ?_
  · rw [hlookup, hname, Bool.not_false, if_pos rfl]
  · rw [hlookup, TypeDecl.conceals_of_visible hfield, Bool.not_false, if_pos rfl, hvalue] at hvalue'
    obtain rfl := Option.some.inj hvalue'
    exact refl value field.type
  · rw [hlookup, TypeDecl.conceals_of_undeclared hname, Bool.not_false, if_pos rfl, hvalue]
      at hvalue'
    obtain rfl := Option.some.inj hvalue'
    exact refl value .untyped

/-- Ordered values that differ in hidden members alone go together all the way down. -/
def equivalents (schema : Schema) : schema.Pairing where
  Rel type _ value value' := schema.Equivalent type value value' ∧ value.Ordered ∧ value'.Ordered
  scalar h hscalar := h.1.eq_of_isScalar hscalar
  array := by
    rintro type path items value' ⟨hequivalent, hordered, hordered'⟩
    cases hequivalent with
    | scalar hscalar => exact absurd hscalar Bool.false_ne_true
    | @array _ _ items' hlength hitems =>
        refine ⟨items', rfl, List.forall₂_iff_get.2 ⟨hlength, fun index hindex hindex' => ?_⟩⟩
        exact ⟨hitems index _ _ (List.getElem?_eq_getElem hindex)
            (List.getElem?_eq_getElem hindex'),
          hordered.item (List.get_mem items _), hordered'.item (List.get_mem items' _)⟩
  object := by
    rintro type path members value' ⟨hequivalent, -, -⟩
    cases hequivalent with
    | scalar hscalar => exact absurd hscalar Bool.false_ne_true
    | described => exact ⟨_, rfl⟩
    | unknown => exact ⟨_, rfl⟩
    | entries => exact ⟨_, rfl⟩
  declared := by
    rintro type path members members' info ⟨hequivalent, hordered, hordered'⟩ hinfo field hfield
    obtain ⟨hpresent, hdeclared, -⟩ := hequivalent.members hinfo
    have hboth := hpresent field.name (TypeDecl.conceals_of_visible hfield)
    have hvalues := hdeclared field hfield
    cases hvalue : members.lookup field.name with
    | none =>
        have hnone : members'.lookup field.name = none := by simpa [hvalue] using hboth
        rw [hnone]
        exact .none
    | some value =>
        obtain ⟨value', hvalue'⟩ : ∃ value', members'.lookup field.name = some value' :=
          Option.isSome_iff_exists.1 (by rw [← hboth, hvalue]; rfl)
        rw [hvalue']
        exact .some ⟨hvalues value value' hvalue hvalue', hordered.member hvalue,
          hordered'.member hvalue'⟩
  undeclared := by
    rintro type path members members' info ⟨hequivalent, hordered, hordered'⟩ hinfo
    obtain ⟨hpresent, -, hundeclared⟩ := hequivalent.members hinfo
    have hlookup : ∀ (members : Json.Members) (name : String),
        (members.filter fun entry => !info.decl.declares entry.1).lookup name
          = if info.decl.declares name then none else members.lookup name := by
      intro members name
      rw [AssocList.lookup_filter members fun name => !info.decl.declares name]
      cases info.decl.declares name <;> rfl
    have hfiltered : ∀ {members : Json.Members}, Json.Members.Ordered members →
        Json.Members.Ordered (members.filter fun entry => !info.decl.declares entry.1) :=
      fun hmembers => hmembers.filter _
    refine (hfiltered hordered.members).forall₂ (hfiltered hordered'.members)
      (R := fun _ value value' =>
        schema.Equivalent .untyped value value' ∧ value.Ordered ∧ value'.Ordered) ?_ ?_
    · intro name
      rw [hlookup, hlookup]
      cases hdeclares : info.decl.declares name with
      | true => rfl
      | false => exact hpresent name (TypeDecl.conceals_of_undeclared hdeclares)
    · intro name value value' hvalue hvalue'
      rw [hlookup] at hvalue hvalue'
      cases hdeclares : info.decl.declares name with
      | true => simp [hdeclares] at hvalue
      | false =>
          rw [hdeclares] at hvalue hvalue'
          exact ⟨hundeclared name value value' hdeclares hvalue hvalue', hordered.member hvalue,
            hordered'.member hvalue'⟩
  entries := by
    rintro type entry path members members' ⟨hequivalent, hordered, hordered'⟩ hentry
    cases hequivalent with
    | scalar hscalar => exact absurd hscalar Bool.false_ne_true
    | unknown => cases hentry
    | described => cases hentry
    | entries hentry' hpresent hvalues =>
        obtain rfl := Option.some.inj (hentry'.symm.trans hentry)
        exact hordered.members.forall₂ hordered'.members
          (R := fun _ value value' =>
            schema.Equivalent _ value value' ∧ value.Ordered ∧ value'.Ordered) hpresent
          fun name value value' hvalue hvalue' =>
            ⟨hvalues name value value' hvalue hvalue', hordered.member hvalue,
              hordered'.member hvalue'⟩

end Schema

/-! ## One session, twice -/

namespace Filtering

variable {schema : Schema}

/-- In one session, values that differ in hidden members alone raise the same questions. -/
theorem guides_follow [Glob.Engine] (placeholder : Option Json) :
    (following id schema).Guides schema.equivalents (Session.guide placeholder)
      (Session.guide placeholder) where
  describe _ _ _ _ _ _ _ h := follows_describe_bind (fun _ => rfl) h
  includes _ path _ _ _ := follows_includes path
  placeholder := rfl

end Filtering

/-- **Hidden members do not show.**  In one session, with whatever its caches hold, values that
differ in hidden members alone are pruned to the same value or to the same fault, and leave the
same filter and session behind. -/
theorem Session.prune_eq_of_equivalent [Glob.Engine] (session : Session) (bound : BoundFilter)
    (placeholder : Option Json) (root : Owner) {value value' : Json} (hordered : value.Ordered)
    (hordered' : value'.Ordered)
    (h : session.registry.schema.Equivalent (Json.rootType root) value value') :
    session.prune bound placeholder root value = session.prune bound placeholder root value' := by
  have hpair : session.registry.schema.equivalents.Rel (Json.rootType root) [] value value' :=
    ⟨h, hordered, hordered'⟩
  have hsame := (Simulation.prune (Filtering.guides_follow placeholder) hpair
    ⟨bound, session⟩ rfl).1
  exact congrArg (fun run => (run.1, run.2.bound, run.2.session)) hsame

/-- The owner of an account has a pin that is hidden, and of a type that is not known. -/
def ownerTypes : List TypeDecl :=
  [⟨"Owner", [⟨"name", [], false, false, .untyped⟩, ⟨"pin", [], true, false, .described "Pin"⟩]⟩]

/-- Whether an owner has a pin does not show, not even where it is asked for. -/
theorem prune_owners :
    (Session.ofSettings .default ownerTypes).prune (.ofFilter "name,pin" none) none
        (.described "Owner") (.array [.object [("name", .string "a"), ("pin", .object [])]])
      = (Session.ofSettings .default ownerTypes).prune (.ofFilter "name,pin" none) none
        (.described "Owner") (.array [.object [("name", .string "a")]]) := by
  let schema := (Schema.empty true).registerAll ownerTypes
  have howners : schema.find? "Owner" = some ((ownerTypes[0]).info true) := rfl
  have hequivalent : schema.Equivalent (.described "Owner")
      (.array [.object [("name", .string "a"), ("pin", .object [])]])
      (.array [.object [("name", .string "a")]]) := by
    refine .array rfl fun index item item' hitem hitem' => ?_
    cases index with
    | zero =>
        obtain rfl := Option.some.inj hitem
        obtain rfl := Option.some.inj hitem'
        exact .without_concealed howners
    | succ index => cases hitem
  have hpin : Json.Ordered (.object [("name", .string "a"), ("pin", .object [])]) := by
    refine Json.ordered_object (by decide +kernel) ?_
    simp only [List.forall_mem_cons]
    exact ⟨Json.ordered_of_isScalar rfl, Json.ordered_object .nil nofun, nofun⟩
  have hnone : Json.Ordered (.object [("name", .string "a")]) :=
    Json.ordered_object (by decide +kernel)
      (List.forall_mem_singleton.2 (Json.ordered_of_isScalar rfl))
  exact Session.prune_eq_of_equivalent _ _ _ _
    (Json.ordered_array (List.forall_mem_singleton.2 hpin))
    (Json.ordered_array (List.forall_mem_singleton.2 hnone)) hequivalent

end FieldFilter
