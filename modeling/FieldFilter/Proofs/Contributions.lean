import FieldFilter.Proofs.Offers
import FieldFilter.Proofs.Walk
import Mathlib.Data.List.Induction

/-!
# The members that come to an object

An object of a described type is written with its own members and with those of the objects that
are spliced in, at any depth.  All of them are written into one object, one after the other, so a
later one takes the place of an earlier one of the same name.  Which members come to an object and
in which order follows from the declarations; what is included decides only what becomes of them.

* `FieldDecl.spliced?` — the object that is spliced in for a field.
* `Schema.contributions` — the members that come to an object, in the order they are written in.
* **`Guide.writeObject_contributions`** — an object is written from these, one by one.
* `Contribution.last?` — the one of a name that is written last.
* **`Guide.slot_of_contributions`** — it decides what stands under its name.
* **`Schema.contributionInduct`** — induction on a value along what comes to its objects.
* `Schema.exists_offers_of_mem` — without unwrapped fields, these are the members offered.
-/

namespace FieldFilter

/-- The described type and the members of an object that is spliced in for an unwrapped field. -/
def FieldDecl.spliced? (field : FieldDecl) (value : Json) : Option (String × Json.Members) :=
  match field.unwrapped, field.type, value with
  | true, .described inner, .object members => some (inner, members)
  | _, _, _ => none

theorem FieldDecl.spliced?_eq_some {field : FieldDecl} {value : Json} {inner : String}
    {below : Json.Members} :
    field.spliced? value = some (inner, below)
      ↔ field.unwrapped = true ∧ field.type = .described inner ∧ value = .object below := by
  unfold spliced?
  split
  · next hunwrapped htype =>
    simp [hunwrapped, htype]
  · next hother =>
    refine iff_of_false (by simp) ?_
    rintro ⟨hunwrapped, htype, rfl⟩
    exact hother _ _ hunwrapped htype rfl

/-- A member that comes to an object: its name there, its declared type, its path and its value. -/
structure Contribution where
  name : String
  type : FieldType
  path : Path
  value : Json

/-- The members of an object as they are, all of one declared type and asked about in one owner. -/
def Contribution.ofMembers (owner : Owner) (type : FieldType) (parent : Path)
    (members : Json.Members) : List Contribution :=
  members.map fun entry => ⟨entry.1, type, parent.child entry.1 (some owner), entry.2⟩

/-- Members as they are contribute their names. -/
theorem Contribution.exists_mem_ofMembers {owner : Owner} {type : FieldType} {parent : Path}
    {members : Json.Members} {name : String} {Included : Path → Prop} :
    (∃ contribution ∈ ofMembers owner type parent members,
        contribution.name = name ∧ Included contribution.path)
      ↔ name ∈ members.map (·.1) ∧ Included (parent.child name (some owner)) := by
  constructor
  · rintro ⟨_, hmem, rfl, hincluded⟩
    obtain ⟨entry, hentry, rfl⟩ := List.mem_map.1 hmem
    exact ⟨List.mem_map_of_mem hentry, hincluded⟩
  · rintro ⟨hname, hincluded⟩
    obtain ⟨entry, hentry, rfl⟩ := List.mem_map.1 hname
    exact ⟨_, List.mem_map_of_mem hentry, rfl, hincluded⟩

/-- An object that is spliced in is smaller than the object around it. -/
theorem Json.sizeOf_spliced {members below : Json.Members} {field : FieldDecl} {value : Json}
    {inner : String} (hvalue : members.lookup field.name = some value)
    (hspliced : field.spliced? value = some (inner, below)) : sizeOf below < sizeOf members := by
  obtain ⟨-, -, rfl⟩ := FieldDecl.spliced?_eq_some.1 hspliced
  have hmember := List.sizeOf_lt_of_mem (AssocList.mem_of_lookup hvalue)
  simp only [Prod.mk.sizeOf_spec, Json.object.sizeOf_spec] at hmember
  omega

namespace Schema

/-- The members that come to an object of a described type at a path: those of its visible fields,
with the members of an object that is spliced in where its field stands, and then those that are
not declared. -/
def contributions (schema : Schema) (type : String) (parent : Path) (members : Json.Members) :
    List Contribution :=
  match schema.find? type with
  | none => []
  | some info =>
    (info.decl.visible.flatMap fun field =>
      match _ : members.lookup field.name with
      | none => []
      | some value =>
        let path := parent.child field.name (some (.described type))
        match _ : field.spliced? value with
        | some (inner, below) => contributions schema inner path below
        | none => [⟨field.name, field.type, path, value⟩])
      ++ Contribution.ofMembers (.described type) .untyped parent
        (members.filter fun entry => !info.decl.declares entry.1)
termination_by sizeOf members
decreasing_by exact Json.sizeOf_spliced ‹_› ‹_›

/-- The members that come to an object for one of its fields. -/
def fieldContributions (schema : Schema) (type : String) (parent : Path) (members : Json.Members)
    (field : FieldDecl) : List Contribution :=
  match members.lookup field.name with
  | none => []
  | some value =>
    let path := parent.child field.name (some (.described type))
    match field.spliced? value with
    | some (inner, below) => schema.contributions inner path below
    | none => [⟨field.name, field.type, path, value⟩]

/-- The members that come to an object of a declared type. -/
def contributionsAt (schema : Schema) (type : FieldType) (parent : Path)
    (members : Json.Members) : List Contribution :=
  match type with
  | .described type => schema.contributions type parent members
  | .map (some entry) =>
    Contribution.ofMembers (.map Guide.mapType) (.described entry) parent members
  | .map none | .untyped => Contribution.ofMembers (.map Guide.mapType) .untyped parent members

variable {schema : Schema} {type : String} {parent : Path} {members : Json.Members}

/-- What comes to an object of a type that the schema has. -/
theorem contributions_eq {info : TypeInfo} (hinfo : schema.find? type = some info) :
    schema.contributions type parent members
      = info.decl.visible.flatMap (schema.fieldContributions type parent members)
        ++ Contribution.ofMembers (.described type) .untyped parent
          (members.filter fun entry => !info.decl.declares entry.1) := by
  rw [contributions, hinfo]
  dsimp only
  congr 2
  funext field
  rw [fieldContributions]
  split <;> split <;> simp_all

/-- A member that comes to an object is one of its own or comes to an object that is spliced in. -/
theorem exists_of_mem_contributions {contribution : Contribution}
    (h : contribution ∈ schema.contributions type parent members) :
    (contribution.name, contribution.value) ∈ members
      ∨ ∃ name inner path below, (name, .object below) ∈ members
        ∧ contribution ∈ schema.contributions inner path below := by
  cases hinfo : schema.find? type with
  | none =>
    rw [contributions, hinfo] at h
    cases h
  | some info =>
    rw [contributions_eq hinfo, List.mem_append, List.mem_flatMap] at h
    rcases h with ⟨field, -, h⟩ | h
    · rw [fieldContributions] at h
      split at h
      · cases h
      · next value hvalue =>
        have hmem := AssocList.mem_of_lookup hvalue
        dsimp only at h
        split at h
        · next inner below hspliced =>
          obtain ⟨-, -, rfl⟩ := FieldDecl.spliced?_eq_some.1 hspliced
          exact .inr ⟨_, _, _, _, hmem, h⟩
        · rw [List.mem_singleton.1 h]
          exact .inl hmem
    · obtain ⟨entry, hentry, rfl⟩ := List.mem_map.1 h
      exact .inl (List.mem_filter.1 hentry).1

/-- **Induction along what comes to the objects of a value**, and along the items of its arrays. -/
theorem contributionInduct {Motive : Json → Prop}
    (scalar : ∀ value, value.isScalar = true → Motive value)
    (array : ∀ items : List Json, (∀ item ∈ items, Motive item) → Motive (.array items))
    (object : ∀ members : Json.Members,
      (∀ type parent, ∀ contribution ∈ schema.contributionsAt type parent members,
        Motive contribution.value) → Motive (.object members))
    (value : Json) : Motive value := by
  -- what is spliced in is written into the object around it, so its members are kept beside it
  have hall : ∀ value, Motive value ∧ ∀ members, value = .object members →
      ∀ type parent, ∀ contribution ∈ schema.contributions type parent members,
        Motive contribution.value := by
    intro value
    induction value using Json.induct with
    | array items ih => exact ⟨array items fun item hitem => (ih item hitem).1, nofun⟩
    | object members ih =>
      have hcontributions : ∀ type parent,
          ∀ contribution ∈ schema.contributions type parent members, Motive contribution.value := by
        intro type parent contribution hmem
        rcases exists_of_mem_contributions hmem with hown | ⟨name, inner, path, below, hmem, h⟩
        · exact (ih _ hown).1
        · exact (ih _ hmem).2 below rfl inner path contribution h
      refine ⟨object members ?_, ?_⟩
      · intro type parent contribution hmem
        have hown : ∀ {entry}, contribution ∈ Contribution.ofMembers (.map Guide.mapType) entry
            parent members → Motive contribution.value := by
          intro entry hmem
          obtain ⟨member, hmember, rfl⟩ := List.mem_map.1 hmem
          exact (ih member hmember).1
        rcases type with - | type | ⟨- | entry⟩
        · exact hown hmem
        · exact hcontributions type parent contribution hmem
        · exact hown hmem
        · exact hown hmem
      · rintro _ ⟨⟩
        exact hcontributions
    | _ => exact ⟨scalar _ rfl, nofun⟩
  exact (hall value).1

end Schema

/-! ## In plain types -/

/-- A member that is offered, as it comes to an object. -/
def Contribution.ofOffer (owner : Owner) (parent : Path) (offer : String × FieldType × Json) :
    Contribution :=
  ⟨offer.1, offer.2.1, parent.child offer.1 (some owner), offer.2.2⟩

namespace Schema

variable {schema : Schema} {parent : Path} {members : Json.Members}

/-- Members as they are come to an object as they are offered. -/
theorem ofMembers_eq_map (owner : Owner) (type : FieldType) (parent : Path)
    (members : Json.Members) :
    Contribution.ofMembers owner type parent members
      = (members.map fun member => (member.1, type, member.2)).map (.ofOffer owner parent) := by
  rw [Contribution.ofMembers, List.map_map]
  rfl

/-- If no field is unwrapped, the declared members come to an object as they are offered. -/
theorem flatMap_fieldContributions {type : String} {fields : List FieldDecl}
    (hfields : ∀ field ∈ fields, field.unwrapped = false) :
    fields.flatMap (schema.fieldContributions type parent members)
      = (Guide.declared members fields).map (.ofOffer (.described type) parent) := by
  induction fields with
  | nil => rfl
  | cons field rest ih =>
    obtain ⟨hfield, hrest⟩ := List.forall_mem_cons.1 hfields
    rw [List.flatMap_cons, ih hrest, fieldContributions, Guide.declared, Guide.declared,
      List.filterMap_cons]
    cases members.lookup field.name with
    | none => rfl
    | some value =>
      have hwhole : field.spliced? value = none := by
        simp [FieldDecl.spliced?, hfield]
      simp [hwhole, Contribution.ofOffer]

/-- **In plain types, what comes to an object is what it offers**, if anything comes to it. -/
theorem exists_offers_of_mem (hplain : ∀ info ∈ schema.types, info.decl.IsPlain)
    (hnodup : (members.map (·.1)).Nodup) {type : FieldType} {contribution : Contribution}
    (hmem : contribution ∈ schema.contributionsAt type parent members) :
    ∃ offers, schema.Offers type members offers
      ∧ schema.contributionsAt type parent members = offers.map (.ofOffer type.owner parent) := by
  rcases type with - | type | ⟨- | entry⟩
  · exact ⟨_, offers_map hnodup (fun _ => rfl) (fun _ => rfl), ofMembers_eq_map _ _ _ _⟩
  · cases hinfo : schema.find? type with
    | none =>
      rw [contributionsAt, contributions, hinfo] at hmem
      cases hmem
    | some info =>
      have hdecl := hplain info (List.mem_of_find?_eq_some hinfo)
      have hvisible : ∀ field ∈ info.decl.visible, field.unwrapped = false :=
        fun field hfield => hdecl.unwrapped field (List.mem_filter.1 hfield).1
      refine ⟨_, offers_described hnodup hinfo hdecl, ?_⟩
      rw [contributionsAt, contributions_eq hinfo, flatMap_fieldContributions hvisible,
        ofMembers_eq_map, List.map_append]
      rfl
  · exact ⟨_, offers_map hnodup (fun _ => rfl) (fun _ => rfl), ofMembers_eq_map _ _ _ _⟩
  · exact ⟨_, offers_map hnodup (fun _ => rfl) (fun _ => rfl), ofMembers_eq_map _ _ _ _⟩

end Schema

/-! ## Writing what comes to an object -/

namespace Guide

section Monadic

variable {m : Type → Type} [Monad m] (guide : Guide m)

/-- Writes a member into the object it comes to. -/
def contribute (out : Json.Members) (contribution : Contribution) : m Json.Members :=
  guide.writeField contribution.name
    ((contribution.value.visit guide).write contribution.type contribution.path)
    contribution.path out

/-- Members are written one by one as they are. -/
theorem writeAll_eq_contribute [LawfulMonad m] (owner : Owner) (type : FieldType) (parent : Path)
    (members out : Json.Members) :
    guide.writeAll owner parent
        ((Json.visitMembers guide members).map fun member => (member.1, type, member.2)) out
      = (Contribution.ofMembers owner type parent members).foldlM guide.contribute out := by
  induction members generalizing out with
  | nil => rfl
  | cons head rest ih =>
    rw [Json.visitMembers, List.map_cons, writeAll, Contribution.ofMembers, List.map_cons,
      List.foldlM_cons]
    exact congrArg _ (funext ih)

end Monadic

variable {ε : Type} {guide : Guide (Except ε)} {schema : Schema} {type : String} {parent : Path}
  {members out after : Json.Members}

/-- What comes out of two computations comes out of the second one. -/
theorem exists_of_bind_eq_ok {α β : Type} {first : Except ε α} {next : α → Except ε β} {b : β}
    (h : (first >>= next) = .ok b) : ∃ a, first = .ok a ∧ next a = .ok b := by
  cases first with
  | error fault => cases h
  | ok a => exact ⟨a, rfl, h⟩

/-- Writing a declared member that the object has: its object is spliced in, or it is written
itself. -/
theorem writeDeclared_cons {field : FieldDecl} {rest : List FieldDecl} {value : Json}
    (hvalue : members.lookup field.name = some value) :
    guide.writeDeclared (Json.visitMembers guide members) type parent (field :: rest) out
      = (match field.spliced? value with
        | some (inner, below) => guide.writeDescribed (Json.visitMembers guide below) inner
            (parent.child field.name (some (.described type))) out
        | none => guide.writeField field.name
            ((value.visit guide).write field.type
              (parent.child field.name (some (.described type))))
            (parent.child field.name (some (.described type))) out)
        >>= guide.writeDeclared (Json.visitMembers guide members) type parent rest := by
  rw [writeDeclared, Json.lookup_visitMembers, hvalue]
  obtain ⟨name, views, hidden, unwrapped, fieldType⟩ := field
  cases unwrapped with
  | false => rfl
  | true =>
    cases fieldType with
    | described inner => cases value <;> rfl
    | _ => rfl

/-- An object of a described type is written from what comes to it. -/
def WritesContributions (guide : Guide (Except ε)) (schema : Schema) (members : Json.Members) :
    Prop :=
  ∀ (type : String) (parent : Path) (out after : Json.Members),
    guide.writeDescribed (Json.visitMembers guide members) type parent out = .ok after →
      (schema.contributions type parent members).foldlM guide.contribute out = .ok after

/-- The declared members are written from what comes to the object for their fields. -/
theorem writeDeclared_contributions
    (hbelow : ∀ name below, members.lookup name = some (.object below) →
      guide.WritesContributions schema below) {fields : List FieldDecl}
    (h : guide.writeDeclared (Json.visitMembers guide members) type parent fields out = .ok after) :
    (fields.flatMap (schema.fieldContributions type parent members)).foldlM guide.contribute out
      = .ok after := by
  induction fields generalizing out with
  | nil => exact h
  | cons field rest ih =>
    rw [List.flatMap_cons, List.foldlM_append]
    cases hvalue : members.lookup field.name with
    | none =>
      rw [writeDeclared, Json.lookup_visitMembers, hvalue] at h
      rw [Schema.fieldContributions, hvalue]
      exact ih h
    | some value =>
      rw [writeDeclared_cons hvalue] at h
      obtain ⟨next, hnext, hrest⟩ := exists_of_bind_eq_ok h
      have hfield : (schema.fieldContributions type parent members field).foldlM guide.contribute
          out = .ok next := by
        rw [Schema.fieldContributions, hvalue]
        dsimp only
        cases hspliced : field.spliced? value with
        | none =>
          rw [hspliced] at hnext
          simpa [contribute] using hnext
        | some spliced =>
          obtain ⟨inner, below⟩ := spliced
          rw [hspliced] at hnext
          obtain ⟨-, -, rfl⟩ := FieldDecl.spliced?_eq_some.1 hspliced
          exact hbelow field.name below hvalue _ _ _ _ hnext
      rw [hfield]
      exact ih hrest

/-- An object of a described type is written from what comes to it, among other members. -/
theorem writeDescribed_contributions
    (hdescribe : ∀ type info, guide.describe type = .ok info → schema.find? type = some info)
    (members : Json.Members) : guide.WritesContributions schema members := by
  have hall : ∀ value : Json, ∀ members, value = .object members →
      guide.WritesContributions schema members := by
    intro value
    induction value using Json.induct with
    | object members ih =>
      rintro _ ⟨⟩
      intro type parent out after h
      obtain ⟨info, hinfo, h⟩ := exists_of_bind_eq_ok h
      obtain ⟨middle, hdeclared, hundeclared⟩ := exists_of_bind_eq_ok h
      have hbelow : ∀ name below, members.lookup name = some (.object below) →
          guide.WritesContributions schema below := fun name below hvalue =>
        ih _ (AssocList.mem_of_lookup hvalue) below rfl
      rw [Json.filter_visitMembers fun name => !info.decl.declares name, writeUndeclared_eq,
        writeAll_eq_contribute] at hundeclared
      rw [Schema.contributions_eq (hdescribe type info hinfo), List.foldlM_append,
        writeDeclared_contributions hbelow hdeclared]
      exact hundeclared
    | _ => exact fun _ h => nomatch h
  exact hall (.object members) members rfl

/-- **An object is written from what comes to it**, one member after the other. -/
theorem writeObject_contributions
    (hdescribe : ∀ type info, guide.describe type = .ok info → schema.find? type = some info)
    {type : FieldType}
    (h : guide.writeObject (Json.visitMembers guide members) type parent = .ok out) :
    (schema.contributionsAt type parent members).foldlM guide.contribute [] = .ok out := by
  have hmap : ∀ {entry},
      guide.writeMap entry parent (Json.visitMembers guide members) [] = .ok out →
        (Contribution.ofMembers (.map mapType) entry parent members).foldlM guide.contribute []
          = .ok out := by
    intro entry h
    rwa [writeMap_eq, writeAll_eq_contribute] at h
  rcases type with - | type | ⟨- | entry⟩
  · exact hmap h
  · exact writeDescribed_contributions hdescribe members type parent [] out h
  · exact hmap h
  · exact hmap h

end Guide

/-! ## The last of a name -/

/-- The last of some contributions that has a name. -/
def Contribution.last? (name : String) (contributions : List Contribution) :
    Option Contribution :=
  contributions.reverse.find? (·.name == name)

/-- One contribution more is the last of its name, and changes nothing about other names. -/
theorem Contribution.last?_concat (name : String) (contributions : List Contribution)
    (last : Contribution) :
    last? name (contributions ++ [last])
      = if last.name = name then some last else last? name contributions := by
  rw [last?, last?, List.reverse_append, List.reverse_singleton, List.singleton_append,
    List.find?_cons]
  by_cases hname : last.name = name
  · simp [hname]
  · simp [hname, beq_eq_false_iff_ne.2 hname]

/-- The last contribution of a name has the name. -/
theorem Contribution.mem_of_last? {name : String} {contributions : List Contribution}
    {last : Contribution} (h : last? name contributions = some last) :
    last ∈ contributions ∧ last.name = name := by
  have hname : last.name = name := by simpa using List.find?_some h
  exact ⟨List.mem_reverse.1 (List.mem_of_find?_eq_some h), hname⟩

namespace Guide

variable {ε : Type} {guide : Guide (Except ε)} {contributions : List Contribution}
  {out after : Json.Members}

/-- What becomes of a member: it is set to its pruned value, to the placeholder, or left out. -/
theorem writeField_eq_ok {name : String} {value : Except ε Json} {path : Path}
    (h : guide.writeField name value path out = .ok after) :
    (guide.includes path = .ok true
        ∧ ∃ pruned, value = .ok pruned ∧ after = Json.insert name pruned out)
      ∨ guide.includes path = .ok false ∧ after = match guide.placeholder with
        | some placeholder => Json.insert name placeholder out
        | none => out := by
  obtain ⟨included, hpath, h⟩ := exists_of_bind_eq_ok h
  cases included with
  | true =>
    obtain ⟨pruned, hvalue, h⟩ := exists_of_bind_eq_ok h
    exact .inl ⟨hpath, pruned, hvalue, (Except.ok.inj h).symm⟩
  | false =>
    refine .inr ⟨hpath, ?_⟩
    cases hplaceholder : guide.placeholder with
    | none =>
      rw [hplaceholder] at h
      exact (Except.ok.inj h).symm
    | some placeholder =>
      rw [hplaceholder] at h
      exact (Except.ok.inj h).symm

/-- What stands under a name after some contributions were written. -/
inductive Slot (guide : Guide (Except ε)) (contributions : List Contribution) (name : String) :
    Option Json → Prop where
  | absent (hlast : Contribution.last? name contributions = none) :
    Slot guide contributions name none
  | included {last : Contribution} {pruned : Json}
    (hlast : Contribution.last? name contributions = some last)
    (hpath : guide.includes last.path = .ok true)
    (hwrite : (last.value.visit guide).write last.type last.path = .ok pruned) :
    Slot guide contributions name (some pruned)
  | excluded {last : Contribution} {slot : Option Json}
    (hlast : Contribution.last? name contributions = some last)
    (hpath : guide.includes last.path = .ok false)
    (hslot : ∀ placeholder ∈ guide.placeholder, slot = some placeholder) :
    Slot guide contributions name slot

/-- **The last contribution of a name decides what stands under it.**  Only if that is excluded and
nothing is written in its place, an earlier one stays. -/
theorem slot_of_contributions (h : contributions.foldlM guide.contribute [] = .ok after)
    (name : String) : guide.Slot contributions name (after.lookup name) := by
  induction contributions using List.reverseRecOn generalizing after with
  | nil =>
    cases h
    exact .absent rfl
  | append_singleton contributions last ih =>
    rw [List.foldlM_append] at h
    obtain ⟨before, hbefore, hrest⟩ := exists_of_bind_eq_ok h
    have hstep : guide.contribute before last = .ok after := by simpa using hrest
    have hlast := Contribution.last?_concat name contributions last
    by_cases hname : last.name = name
    · subst hname
      rw [if_pos rfl] at hlast
      rcases writeField_eq_ok hstep with ⟨hpath, pruned, hwrite, rfl⟩ | ⟨hpath, rfl⟩
      · rw [Json.lookup_insert, if_pos rfl]
        exact .included hlast hpath hwrite
      · refine .excluded hlast hpath fun placeholder hplaceholder => ?_
        rw [Option.mem_def.1 hplaceholder, Json.lookup_insert, if_pos rfl]
    · rw [if_neg hname] at hlast
      have hsame : after.lookup name = before.lookup name := by
        rcases writeField_eq_ok hstep with ⟨-, pruned, -, rfl⟩ | ⟨-, rfl⟩
        · rw [Json.lookup_insert, if_neg (Ne.symm hname)]
        · split
          · rw [Json.lookup_insert, if_neg (Ne.symm hname)]
          · rfl
      have hslot := ih hbefore
      rw [hsame]
      generalize before.lookup name = slot at hslot ⊢
      cases hslot with
      | absent hnone => exact .absent (hlast.trans hnone)
      | included hsome hpath hwrite => exact .included (hlast.trans hsome) hpath hwrite
      | excluded hsome hpath hslot => exact .excluded (hlast.trans hsome) hpath hslot

/-- The names after a member was written: those before, and its own if it is included. -/
theorem isSome_writeField (hplaceholder : guide.placeholder = none) {name : String}
    {value : Except ε Json} {path : Path} (h : guide.writeField name value path out = .ok after)
    (other : String) :
    (after.lookup other).isSome = true
      ↔ (out.lookup other).isSome = true ∨ other = name ∧ guide.includes path = .ok true := by
  rcases writeField_cases hplaceholder h with ⟨hpath, rfl⟩ | ⟨pruned, hpath, -, rfl⟩
  · simp [hpath]
  · rw [Json.lookup_insert]
    by_cases hother : other = name
    · simp [hother, hpath]
    · simp [hother]

/-- Where nothing stands for what is excluded, a name is written if one of its contributions is
included. -/
theorem isSome_of_contributions (hplaceholder : guide.placeholder = none)
    (h : contributions.foldlM guide.contribute out = .ok after) (name : String) :
    (after.lookup name).isSome = true
      ↔ (out.lookup name).isSome = true
        ∨ ∃ contribution ∈ contributions, contribution.name = name
          ∧ guide.includes contribution.path = .ok true := by
  induction contributions generalizing out with
  | nil =>
    cases h
    simp
  | cons contribution rest ih =>
    rw [List.foldlM_cons] at h
    obtain ⟨next, hnext, hrest⟩ := exists_of_bind_eq_ok h
    rw [ih hrest, isSome_writeField hplaceholder hnext, or_assoc, List.exists_mem_cons_iff,
      eq_comm (a := name)]

end Guide

end FieldFilter
