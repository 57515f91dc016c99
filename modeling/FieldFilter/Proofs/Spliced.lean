import FieldFilter.Proofs.Contributions

/-!
# The names of a written object

An object of a described type is written with the members that are included, and those of unwrapped
objects stand among them.  So a name can come from three sides: from a declared field, from a member
that is not declared, and from an object that is spliced in, where the same three sides are open
again.  Which of the names of an object are written follows from the declarations and from what is
included, without walking.

* `Schema.Writes` — where the name of a member comes from.
* `Schema.Writes.imp` — names depend on what is included below the path of the object only.
* **`Schema.writes_iff`** — these are the names of the included contributions, by induction on the
  value.
* **`Guide.isSome_writeDescribed`** — a walk writes these names and no others.
-/

namespace FieldFilter

/-- An object of a described type at a path is written with a member of some name.  Hidden fields
are not visible, and are not undeclared either. -/
inductive Schema.Writes (schema : Schema) (Included : Path → Prop) :
    String → Path → Json.Members → String → Prop where
  | declared {type : String} {parent : Path} {members : Json.Members} {info : TypeInfo}
    {field : FieldDecl} {value : Json} (hinfo : schema.find? type = some info)
    (hfield : field ∈ info.decl.visible) (hvalue : members.lookup field.name = some value)
    (hwhole : field.spliced? value = none)
    (hincluded : Included (parent.child field.name (some (.described type)))) :
    Writes schema Included type parent members field.name
  | undeclared {type : String} {parent : Path} {members : Json.Members} {info : TypeInfo}
    {name : String} (hinfo : schema.find? type = some info) (hname : name ∈ members.map (·.1))
    (hundeclared : info.decl.declares name = false)
    (hincluded : Included (parent.child name (some (.described type)))) :
    Writes schema Included type parent members name
  | spliced {type : String} {parent : Path} {members : Json.Members} {info : TypeInfo}
    {field : FieldDecl} {value : Json} {inner : String} {below : Json.Members} {name : String}
    (hinfo : schema.find? type = some info) (hfield : field ∈ info.decl.visible)
    (hvalue : members.lookup field.name = some value)
    (hspliced : field.spliced? value = some (inner, below))
    (h : Writes schema Included inner (parent.child field.name (some (.described type))) below
      name) : Writes schema Included type parent members name

/-- A name comes from one declared field, which the object has. -/
def Schema.FieldWrites (schema : Schema) (Included : Path → Prop) (type : String) (parent : Path)
    (members : Json.Members) (field : FieldDecl) (name : String) : Prop :=
  ∃ value, members.lookup field.name = some value
    ∧ match field.spliced? value with
      | some (inner, below) => schema.Writes Included inner
          (parent.child field.name (some (.described type))) below name
      | none => name = field.name ∧ Included (parent.child field.name (some (.described type)))

namespace Schema.Writes

variable {schema : Schema} {Included : Path → Prop} {type : String} {parent : Path}
  {members : Json.Members} {name : String}

/-- Where a name comes from, in an object of a type that the schema has. -/
theorem iff_of_find? {info : TypeInfo} (hinfo : schema.find? type = some info) :
    schema.Writes Included type parent members name
      ↔ (∃ field ∈ info.decl.visible,
          schema.FieldWrites Included type parent members field name)
        ∨ (name ∈ members.map (·.1) ∧ info.decl.declares name = false)
          ∧ Included (parent.child name (some (.described type))) := by
  constructor
  · intro h
    cases h with
    | @declared _ _ _ _ field value hinfo' hfield hvalue hwhole hincluded =>
      obtain rfl := Option.some.inj (hinfo'.symm.trans hinfo)
      exact .inl ⟨field, hfield, value, hvalue, by simp [hwhole, hincluded]⟩
    | undeclared hinfo' hname hundeclared hincluded =>
      obtain rfl := Option.some.inj (hinfo'.symm.trans hinfo)
      exact .inr ⟨⟨hname, hundeclared⟩, hincluded⟩
    | @spliced _ _ _ _ field value _ _ _ hinfo' hfield hvalue hspliced h =>
      obtain rfl := Option.some.inj (hinfo'.symm.trans hinfo)
      exact .inl ⟨field, hfield, value, hvalue, by simpa [hspliced] using h⟩
  · rintro (⟨field, hfield, value, hvalue, h⟩ | ⟨⟨hname, hundeclared⟩, hincluded⟩)
    · cases hspliced : field.spliced? value with
      | none =>
        rw [hspliced] at h
        obtain ⟨rfl, hincluded⟩ := h
        exact .declared hinfo hfield hvalue hspliced hincluded
      | some spliced =>
        rw [hspliced] at h
        exact .spliced hinfo hfield hvalue hspliced h
    · exact .undeclared hinfo hname hundeclared hincluded

/-- Which names are written depends on what is included below the path only. -/
theorem imp {Included' : Path → Prop} (h : schema.Writes Included type parent members name)
    (himp : ∀ path, Included (parent ++ path) → Included' (parent ++ path)) :
    schema.Writes Included' type parent members name := by
  induction h with
  | declared hinfo hfield hvalue hwhole hincluded =>
    exact .declared hinfo hfield hvalue hwhole (himp _ hincluded)
  | undeclared hinfo hname hundeclared hincluded =>
    exact .undeclared hinfo hname hundeclared (himp _ hincluded)
  | spliced hinfo hfield hvalue hspliced _ ih =>
    refine .spliced hinfo hfield hvalue hspliced (ih fun path hpath => ?_)
    rw [Path.child, List.append_assoc] at hpath ⊢
    exact himp _ hpath

/-- A name is written at an included path. -/
theorem exists_included (h : schema.Writes Included type parent members name) :
    ∃ path, Included (parent ++ path) := by
  induction h with
  | declared _ _ _ _ hincluded => exact ⟨_, hincluded⟩
  | undeclared _ _ _ hincluded => exact ⟨_, hincluded⟩
  | spliced _ _ _ _ _ ih =>
    obtain ⟨path, hpath⟩ := ih
    rw [Path.child, List.append_assoc] at hpath
    exact ⟨_, hpath⟩

/-- Where everything is included, the path does not matter. -/
theorem rebase (h : schema.Writes (fun _ => True) type parent members name) (parent' : Path) :
    schema.Writes (fun _ => True) type parent' members name := by
  induction h generalizing parent' with
  | declared hinfo hfield hvalue hwhole => exact .declared hinfo hfield hvalue hwhole True.intro
  | undeclared hinfo hname hundeclared => exact .undeclared hinfo hname hundeclared True.intro
  | spliced hinfo hfield hvalue hspliced _ ih =>
    exact .spliced hinfo hfield hvalue hspliced (ih _)

end Schema.Writes

/-! ## The contributions of a name -/

namespace Schema

variable {schema : Schema} {Included : Path → Prop} {members : Json.Members}

/-- A name comes from the contributions of that name that are included. -/
def ContributesNames (schema : Schema) (Included : Path → Prop) (members : Json.Members) : Prop :=
  ∀ (type : String) (parent : Path) (name : String),
    schema.Writes Included type parent members name
      ↔ ∃ contribution ∈ schema.contributions type parent members,
        contribution.name = name ∧ Included contribution.path

/-- A name comes from a field if one of the contributions for that field is included. -/
theorem fieldWrites_iff
    (hbelow : ∀ name below, members.lookup name = some (.object below) →
      schema.ContributesNames Included below) {type : String} {parent : Path} {field : FieldDecl}
    {name : String} :
    schema.FieldWrites Included type parent members field name
      ↔ ∃ contribution ∈ schema.fieldContributions type parent members field,
        contribution.name = name ∧ Included contribution.path := by
  rw [FieldWrites, fieldContributions]
  cases hvalue : members.lookup field.name with
  | none => simp
  | some value =>
    simp only [Option.some.injEq, exists_eq_left']
    cases hspliced : field.spliced? value with
    | none => simp [eq_comm]
    | some spliced =>
      obtain ⟨inner, below⟩ := spliced
      obtain ⟨-, -, rfl⟩ := FieldDecl.spliced?_eq_some.1 hspliced
      exact hbelow field.name below hvalue _ _ _

/-- **A name comes from one of its contributions**, one that is included. -/
theorem writes_iff (members : Json.Members) : schema.ContributesNames Included members := by
  have hall : ∀ value : Json, ∀ members, value = .object members →
      schema.ContributesNames Included members := by
    intro value
    induction value using Json.induct with
    | object members ih =>
      rintro _ ⟨⟩
      intro type parent name
      have hbelow : ∀ name below, members.lookup name = some (.object below) →
          schema.ContributesNames Included below := fun name below hvalue =>
        ih _ (AssocList.mem_of_lookup hvalue) below rfl
      cases hinfo : schema.find? type with
      | none =>
        rw [contributions, hinfo]
        refine iff_of_false (fun h => ?_) (by simp)
        cases h <;> simp_all
      | some info =>
        have hundeclared := @Contribution.exists_mem_ofMembers (.described type) .untyped parent
          (members.filter fun entry => !info.decl.declares entry.1) name Included
        rw [Writes.iff_of_find? hinfo, contributions_eq hinfo]
        simp only [fieldWrites_iff hbelow, List.mem_append, or_and_right, exists_or, hundeclared]
        refine or_congr ?_ (and_congr_left' (by simp [List.mem_map, List.mem_filter]))
        constructor
        · rintro ⟨field, hfield, contribution, hmem, hcontribution⟩
          exact ⟨contribution, List.mem_flatMap.2 ⟨field, hfield, hmem⟩, hcontribution⟩
        · rintro ⟨contribution, hmem, hcontribution⟩
          obtain ⟨field, hfield, hmem⟩ := List.mem_flatMap.1 hmem
          exact ⟨field, hfield, contribution, hmem, hcontribution⟩
    | _ =>
      intro members h
      cases h
  exact hall (.object members) members rfl

end Schema

/-! ## What a walk writes -/

namespace Guide

variable {ε : Type} {guide : Guide (Except ε)} {schema : Schema} {type : String} {parent : Path}
  {members : Json.Members} {out after : Json.Members}

/-- An object of a described type is written with the names that come to it. -/
def WritesNames (guide : Guide (Except ε)) (schema : Schema) (members : Json.Members) : Prop :=
  ∀ (type : String) (parent : Path) (out after : Json.Members),
    guide.writeDescribed (Json.visitMembers guide members) type parent out = .ok after →
      ∀ name, (after.lookup name).isSome = true
        ↔ (out.lookup name).isSome = true
          ∨ schema.Writes (guide.includes · = .ok true) type parent members name

/-- The names after the entries of a map were written. -/
theorem isSome_writeMap (hplaceholder : guide.placeholder = none) {entry : FieldType}
    (h : guide.writeMap entry parent (Json.visitMembers guide members) out = .ok after)
    (name : String) :
    (after.lookup name).isSome = true
      ↔ (out.lookup name).isSome = true
        ∨ name ∈ members.map (·.1)
          ∧ guide.includes (parent.child name (some (.map mapType))) = .ok true := by
  have hnames := @Contribution.exists_mem_ofMembers (.map mapType) entry parent members name
    (guide.includes · = .ok true)
  rw [writeMap_eq, writeAll_eq_contribute] at h
  rw [isSome_of_contributions hplaceholder h, hnames]

/-- **The names of a written object** are those that come to it from its declared fields, from its
undeclared members and from what is spliced in. -/
theorem isSome_writeDescribed (hplaceholder : guide.placeholder = none)
    (hdescribe : ∀ type info, guide.describe type = .ok info → schema.find? type = some info)
    (members : Json.Members) : guide.WritesNames schema members := by
  intro type parent out after h name
  rw [isSome_of_contributions hplaceholder
    (writeDescribed_contributions hdescribe members type parent out after h), Schema.writes_iff]

end Guide

end FieldFilter
