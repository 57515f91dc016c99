import FieldFilter.Json.Prune
import FieldFilter.Proofs.Location
import Mathlib.Data.List.Nodup

/-!
# The members of an object, one by one

Pruning writes the members of an object in one of three ways, as the object is declared.  Where no
field is unwrapped the three are one: certain members are offered, each with its own declared type,
and what is written for one does not depend on the others.

* `Schema.memberType`, `Schema.hides` — what is declared about a member.
* `Schema.Offers` — the members of an object that are not hidden, each once.
* `Guide.writeAll` — writing members one by one.
* **`Guide.writeObject_eq`** — an object is written as its members are offered.
* **`Guide.writeAll_wrote`** — what becomes of every member that is offered.
-/

namespace FieldFilter

/-! ## What is declared about a member -/

/-- The type that the members of an object are asked about in. -/
def FieldType.owner : FieldType → Owner
  | .described type => .described type
  | .map _ | .untyped => .map Guide.mapType

namespace Schema

/-- The declared type of a member of an object. -/
def memberType (schema : Schema) : FieldType → String → FieldType
  | .described type, name =>
    match (schema.find? type).bind fun info => info.decl.field? name with
    | some field => field.type
    | none => .untyped
  | .map (some entry), _ => .described entry
  | .map none, _ | .untyped, _ => .untyped

/-- Whether a member of an object is declared and hidden. -/
def hides (schema : Schema) : FieldType → String → Bool
  | .described type, name =>
    (schema.find? type).any fun info =>
      info.decl.fields.any fun field => field.name == name && field.hidden
  | .map _, _ | .untyped, _ => false

/-- The members of an object that are asked about: those that are not hidden, each once and with
its declared type. -/
structure Offers {α : Type} (schema : Schema) (type : FieldType) (members : List (String × α))
    (offers : List (String × FieldType × α)) : Prop where
  nodup : (offers.map (·.1)).Nodup
  mem_iff : ∀ name declared member, (name, declared, member) ∈ offers ↔
    members.lookup name = some member ∧ schema.hides type name = false
      ∧ declared = schema.memberType type name

end Schema

/-- A declaration without two fields of one name and without an unwrapped field. -/
structure TypeDecl.IsPlain (decl : TypeDecl) : Prop where
  nodup : (decl.fields.map (·.name)).Nodup
  unwrapped : ∀ field ∈ decl.fields, field.unwrapped = false

instance (decl : TypeDecl) : Decidable decl.IsPlain :=
  decidable_of_iff ((decl.fields.map (·.name)).Nodup
      ∧ ∀ field ∈ decl.fields, field.unwrapped = false)
    ⟨fun h => ⟨h.1, h.2⟩, fun h => ⟨h.nodup, h.unwrapped⟩⟩

/-! ## Writing members one by one -/

namespace Guide

section Monadic

variable {m : Type → Type} [Monad m]

/-- Writes members of an object one by one, each as a value of its own declared type. -/
def writeAll (guide : Guide m) (owner : Owner) (parent : Path) :
    List (String × FieldType × Visit m) → Json.Members → m Json.Members
  | [], out => pure out
  | (name, type, member) :: rest, out => do
    let path := parent.child name (some owner)
    let out ← guide.writeField name (member.write type path) path out
    writeAll guide owner parent rest out

variable (guide : Guide m) (members : List (String × Visit m)) (parent : Path)

/-- The entries of a map are written one by one. -/
theorem writeMap_eq (entry : FieldType) (out : Json.Members) :
    guide.writeMap entry parent members out
      = guide.writeAll (.map mapType) parent
          (members.map fun member => (member.1, entry, member.2)) out := by
  induction members generalizing out with
  | nil => rfl
  | cons head rest ih =>
      rw [writeMap, List.map_cons, writeAll]
      exact congrArg _ (funext ih)

/-- The undeclared members of an object are written one by one. -/
theorem writeUndeclared_eq (type : String) (out : Json.Members) :
    guide.writeUndeclared type parent members out
      = guide.writeAll (.described type) parent
          (members.map fun member => (member.1, .untyped, member.2)) out := by
  induction members generalizing out with
  | nil => rfl
  | cons head rest ih =>
      rw [writeUndeclared, List.map_cons, writeAll]
      exact congrArg _ (funext ih)

/-- The members of an object that are among the given fields, in the order of the fields. -/
def declared {α : Type} (members : List (String × α)) (fields : List FieldDecl) :
    List (String × FieldType × α) :=
  fields.filterMap fun field =>
    (members.lookup field.name).map fun member => (field.name, field.type, member)

/-- If no field is unwrapped, the declared members of an object are written one by one. -/
theorem writeDeclared_eq (type : String) {fields : List FieldDecl}
    (hfields : ∀ field ∈ fields, field.unwrapped = false) (out : Json.Members) :
    guide.writeDeclared members type parent fields out
      = guide.writeAll (.described type) parent (declared members fields) out := by
  induction fields generalizing out with
  | nil => rfl
  | cons field rest ih =>
      obtain ⟨hfield, hrest⟩ := List.forall_mem_cons.1 hfields
      rw [writeDeclared, declared, List.filterMap_cons]
      cases members.lookup field.name with
      | none => exact ih hrest out
      | some member =>
          rw [hfield]
          exact congrArg _ (funext (ih hrest))

/-- Writing members and then others is writing all of them. -/
theorem writeAll_append [LawfulMonad m] (owner : Owner)
    (offers others : List (String × FieldType × Visit m)) (out : Json.Members) :
    (guide.writeAll owner parent offers out >>= guide.writeAll owner parent others)
      = guide.writeAll owner parent (offers ++ others) out := by
  induction offers generalizing out with
  | nil => rw [writeAll, pure_bind, List.nil_append]
  | cons offer rest ih =>
      rw [writeAll, List.cons_append, writeAll, bind_assoc]
      exact congrArg _ (funext ih)

end Monadic

end Guide

/-! ## Which members are offered -/

namespace TypeDecl

variable {decl : TypeDecl}

/-- Where no two visible fields have one name, each is the field of its name. -/
theorem field?_eq_some (hnodup : (decl.visible.map (·.name)).Nodup) {field : FieldDecl}
    (hfield : field ∈ decl.visible) : decl.field? field.name = some field := by
  rw [field?]
  cases hfound : decl.visible.find? (·.name == field.name) with
  | none =>
      have hne := List.find?_eq_none.1 hfound field hfield
      exact absurd (beq_self_eq_true field.name) hne
  | some found =>
      have hname : found.name = field.name := by
        simpa using List.find?_some hfound
      rw [List.inj_on_of_nodup_map hnodup (List.mem_of_find?_eq_some hfound) hfield hname]

/-- No field has a name that is not declared. -/
theorem name_ne_of_undeclared {name : String} (h : decl.declares name = false) :
    ∀ field ∈ decl.fields, field.name ≠ name := by
  intro field hmem hname
  have hdeclares : decl.declares name = true :=
    List.any_eq_true.2 ⟨field, hmem, beq_iff_eq.2 hname⟩
  exact Bool.false_ne_true (h.symm.trans hdeclares)

theorem field?_eq_none {name : String} (h : decl.declares name = false) :
    decl.field? name = none := by
  refine List.find?_eq_none.2 ?_
  intro field hmem hname
  exact name_ne_of_undeclared h field (List.mem_filter.1 hmem).1 (beq_iff_eq.1 hname)

end TypeDecl

namespace TypeDecl.IsPlain

variable {decl : TypeDecl}

/-- A visible field is the field of its name. -/
theorem field?_eq_some (h : decl.IsPlain) {field : FieldDecl} (hmem : field ∈ decl.fields)
    (hvisible : field.hidden = false) : decl.field? field.name = some field :=
  TypeDecl.field?_eq_some (h.nodup.sublist (List.filter_sublist.map _))
    (List.mem_filter.2 ⟨hmem, by rw [hvisible]; rfl⟩)

/-- A name is hidden if the field of that name is, and not otherwise. -/
theorem any_hidden (h : decl.IsPlain) {field : FieldDecl} (hmem : field ∈ decl.fields) :
    (decl.fields.any fun other => other.name == field.name && other.hidden) = field.hidden := by
  rw [Bool.eq_iff_iff, List.any_eq_true]
  constructor
  · rintro ⟨other, hother, hboth⟩
    obtain ⟨hname, hhidden⟩ := Bool.and_eq_true_iff.1 hboth
    rw [← List.inj_on_of_nodup_map h.nodup hother hmem (beq_iff_eq.1 hname)]
    exact hhidden
  · intro hhidden
    exact ⟨field, hmem, Bool.and_eq_true_iff.2 ⟨beq_self_eq_true _, hhidden⟩⟩

end TypeDecl.IsPlain

namespace Guide

variable {α : Type} {members : List (String × α)}

theorem mem_declared {fields : List FieldDecl} {name : String} {type : FieldType} {member : α} :
    (name, type, member) ∈ declared members fields
      ↔ ∃ field ∈ fields, field.name = name ∧ field.type = type
          ∧ members.lookup name = some member := by
  simp only [declared, List.mem_filterMap, Option.map_eq_some_iff, Prod.mk.injEq]
  constructor
  · rintro ⟨field, hmem, found, hfound, rfl, rfl, rfl⟩
    exact ⟨field, hmem, rfl, rfl, hfound⟩
  · rintro ⟨field, hmem, rfl, rfl, hfound⟩
    exact ⟨field, hmem, member, hfound, rfl, rfl, rfl⟩

/-- Fields of distinct names give members of distinct names. -/
theorem nodup_declared {fields : List FieldDecl} (h : (fields.map (·.name)).Nodup) :
    ((declared members fields).map (·.1)).Nodup := by
  have hpairs : (declared members fields).Pairwise fun offer later => offer.1 ≠ later.1 := by
    refine List.Pairwise.filterMap _ ?_ (List.pairwise_map.1 h)
    intro field later hne offer hoffer other hother
    obtain ⟨_, _, rfl⟩ := Option.map_eq_some_iff.1 hoffer
    obtain ⟨_, _, rfl⟩ := Option.map_eq_some_iff.1 hother
    exact hne
  exact List.pairwise_map.2 hpairs

end Guide

namespace Schema

variable {schema : Schema} {α : Type} {members : List (String × α)}

/-- Where all members are declared alike and none is hidden, all of them are offered. -/
theorem offers_map (hnodup : (members.map (·.1)).Nodup) {type entry : FieldType}
    (hentry : ∀ name, schema.memberType type name = entry)
    (hshown : ∀ name, schema.hides type name = false) :
    schema.Offers type members (members.map fun member => (member.1, entry, member.2)) where
  nodup := by
    rw [List.map_map]
    exact hnodup
  mem_iff := by
    intro name declared member
    rw [hentry, hshown, ← AssocList.mem_iff_lookup hnodup]
    simp only [List.mem_map, Prod.mk.injEq, Prod.exists]
    constructor
    · rintro ⟨_, _, hmem, rfl, rfl, rfl⟩
      exact ⟨hmem, True.intro, rfl⟩
    · rintro ⟨hmem, -, rfl⟩
      exact ⟨name, member, hmem, rfl, rfl, rfl⟩

/-- In an object of a described type its visible fields are offered first, and then what is not
declared. -/
theorem offers_described (hnodup : (members.map (·.1)).Nodup) {type : String} {info : TypeInfo}
    (hinfo : schema.find? type = some info) (hplain : info.decl.IsPlain) :
    schema.Offers (.described type) members
      (Guide.declared members info.decl.visible
        ++ (members.filter fun entry => !info.decl.declares entry.1).map
            fun member => (member.1, .untyped, member.2)) where
  nodup := by
    rw [List.map_append, List.nodup_append']
    refine ⟨Guide.nodup_declared ?_, ?_, ?_⟩
    · exact hplain.nodup.sublist (List.filter_sublist.map _)
    · rw [List.map_map]
      exact hnodup.sublist (List.filter_sublist.map _)
    · intro name hdeclared hundeclared
      rw [List.map_map] at hundeclared
      obtain ⟨⟨_, type, member⟩, hoffer, rfl⟩ := List.mem_map.1 hdeclared
      obtain ⟨field, hfield, hname, -, -⟩ := Guide.mem_declared.1 hoffer
      obtain ⟨entry, hentry, hsame⟩ := List.mem_map.1 hundeclared
      have hnot := (List.mem_filter.1 hentry).2
      have hdeclares : info.decl.declares entry.1 = true :=
        List.any_eq_true.2 ⟨field, (List.mem_filter.1 hfield).1,
          beq_iff_eq.2 (hname.trans hsame.symm)⟩
      rw [hdeclares] at hnot
      exact absurd hnot Bool.false_ne_true
  mem_iff := by
    intro name declared member
    rw [List.mem_append, Guide.mem_declared, memberType, hides, hinfo]
    dsimp only [Option.any_some, Option.bind_some]
    cases hdeclares : info.decl.declares name with
    | true =>
        obtain ⟨field, hfield, hname⟩ := List.any_eq_true.1 hdeclares
        rw [beq_iff_eq] at hname
        subst hname
        rw [hplain.any_hidden hfield]
        constructor
        · rintro (⟨other, hother, hname, rfl, hlookup⟩ | hundeclared)
          · obtain ⟨hmem, hvisible⟩ := List.mem_filter.1 hother
            obtain rfl := List.inj_on_of_nodup_map hplain.nodup hmem hfield hname
            have hshown : other.hidden = false := by simpa using hvisible
            rw [hplain.field?_eq_some hmem hshown]
            exact ⟨hlookup, hshown, rfl⟩
          · simp [hdeclares] at hundeclared
        · rintro ⟨hlookup, hshown, rfl⟩
          rw [hplain.field?_eq_some hfield hshown]
          exact Or.inl ⟨field, List.mem_filter.2 ⟨hfield, by rw [hshown]; rfl⟩, rfl, rfl, hlookup⟩
    | false =>
        have hnone := TypeDecl.name_ne_of_undeclared hdeclares
        have hshown : (info.decl.fields.any fun field => field.name == name && field.hidden)
            = false := by
          refine List.any_eq_false.2 ?_
          intro field hmem hboth
          exact hnone field hmem (beq_iff_eq.1 (Bool.and_eq_true_iff.1 hboth).1)
        rw [TypeDecl.field?_eq_none hdeclares, hshown, ← AssocList.mem_iff_lookup hnodup]
        constructor
        · rintro (⟨field, hmem, hname, -, -⟩ | hundeclared)
          · exact absurd hname (hnone field (List.mem_filter.1 hmem).1)
          · simp only [List.mem_map, List.mem_filter, Prod.mk.injEq, Prod.exists] at hundeclared
            obtain ⟨_, _, ⟨hmem, -⟩, rfl, rfl, rfl⟩ := hundeclared
            exact ⟨hmem, rfl, rfl⟩
        · rintro ⟨hmem, -, rfl⟩
          refine Or.inr (List.mem_map.2 ⟨(name, member), List.mem_filter.2 ⟨hmem, ?_⟩, rfl⟩)
          rw [hdeclares]
          rfl

end Schema

/-! ## What is written -/

namespace Guide

variable {ε : Type} {guide : Guide (Except ε)} {schema : Schema} {parent : Path}

/-- Where all members are declared alike and none is hidden, an object is written as its members
are offered. -/
theorem writeMap_offers {members : List (String × Visit (Except ε))}
    (hnodup : (members.map (·.1)).Nodup) {type entry : FieldType}
    (howner : type.owner = .map mapType) (hentry : ∀ name, schema.memberType type name = entry)
    (hshown : ∀ name, schema.hides type name = false) :
    ∃ offers, schema.Offers type members offers
      ∧ guide.writeMap entry parent members [] = guide.writeAll type.owner parent offers [] := by
  rw [writeMap_eq, howner]
  exact ⟨_, Schema.offers_map hnodup hentry hshown, rfl⟩

/-- **An object is written as its members are offered**, if its type is described. -/
theorem writeObject_eq
    (hdescribe : ∀ type info, guide.describe type = .ok info → schema.find? type = some info)
    (hplain : ∀ info ∈ schema.types, info.decl.IsPlain)
    {members : List (String × Visit (Except ε))} (hnodup : (members.map (·.1)).Nodup)
    {type : FieldType} (parent : Path)
    (hknown : ∀ name, type = .described name → ∃ info, guide.describe name = .ok info) :
    ∃ offers, schema.Offers type members offers
      ∧ guide.writeObject members type parent = guide.writeAll type.owner parent offers [] := by
  rw [writeObject.eq_def]
  cases type with
  | described type =>
      obtain ⟨info, hinfo⟩ := hknown type rfl
      have hfind : schema.find? type = some info := hdescribe type info hinfo
      have hdecl : info.decl.IsPlain := hplain info (List.mem_of_find?_eq_some hfind)
      have hvisible : ∀ field ∈ info.decl.visible, field.unwrapped = false :=
        fun field hmem => hdecl.unwrapped field (List.mem_filter.1 hmem).1
      refine ⟨_, Schema.offers_described hnodup hfind hdecl, ?_⟩
      dsimp only
      rw [← writeAll_append, FieldType.owner, ← funext (writeUndeclared_eq guide _ parent type),
        ← writeDeclared_eq guide members parent type hvisible, writeDescribed, hinfo]
      rfl
  | map entry =>
      cases entry with
      | some entry => exact writeMap_offers hnodup rfl (fun _ => rfl) fun _ => rfl
      | none => exact writeMap_offers hnodup rfl (fun _ => rfl) fun _ => rfl
  | untyped => exact writeMap_offers hnodup rfl (fun _ => rfl) fun _ => rfl

/-- An object that is written has a type that is described. -/
theorem exists_describe_of_writeObject {members : List (String × Visit (Except ε))}
    {type : FieldType} {out : Json.Members}
    (h : guide.writeObject members type parent = .ok out) {name : String}
    (htype : type = .described name) : ∃ info, guide.describe name = .ok info := by
  subst htype
  cases hinfo : guide.describe name with
  | ok info => exact ⟨info, rfl⟩
  | error fault =>
      rw [writeObject, writeDescribed, hinfo] at h
      cases h

/-- What is written of an object is what is written of the members it offers. -/
theorem writeObject_offers
    (hdescribe : ∀ type info, guide.describe type = .ok info → schema.find? type = some info)
    (hplain : ∀ info ∈ schema.types, info.decl.IsPlain)
    {members : List (String × Visit (Except ε))} (hnodup : (members.map (·.1)).Nodup)
    {type : FieldType} {out : Json.Members}
    (h : guide.writeObject members type parent = .ok out) :
    ∃ offers, schema.Offers type members offers
      ∧ guide.writeAll type.owner parent offers [] = .ok out := by
  obtain ⟨offers, hoffers, hwrite⟩ := writeObject_eq hdescribe hplain hnodup parent
    fun _ htype => exists_describe_of_writeObject h htype
  exact ⟨offers, hoffers, hwrite.symm.trans h⟩

/-- What becomes of a member that is asked about, where nothing stands for an excluded one. -/
inductive Wrote (guide : Guide (Except ε)) (path : Path) (value : Except ε Json) :
    Option Json → Prop where
  | excluded (hpath : guide.includes path = .ok false) : Wrote guide path value none
  | included {pruned : Json} (hpath : guide.includes path = .ok true)
    (hvalue : value = .ok pruned) : Wrote guide path value (some pruned)

/-- A member that is asked about is left out or set to its pruned value. -/
theorem writeField_cases (hplaceholder : guide.placeholder = none) {name : String}
    {value : Except ε Json} {path : Path} {out after : Json.Members}
    (h : guide.writeField name value path out = .ok after) :
    (guide.includes path = .ok false ∧ after = out)
      ∨ ∃ pruned, guide.includes path = .ok true ∧ value = .ok pruned
          ∧ after = Json.insert name pruned out := by
  rw [writeField] at h
  rcases hpath : guide.includes path with fault | included
  · rw [hpath] at h
    cases h
  · rw [hpath] at h
    cases included with
    | false =>
        rw [hplaceholder] at h
        cases h
        exact Or.inl ⟨rfl, rfl⟩
    | true =>
        cases value with
        | error fault => cases h
        | ok pruned =>
            cases h
            exact Or.inr ⟨pruned, rfl, rfl, rfl⟩

/-- Members stay in order while others are written among them. -/
theorem ordered_writeAll (hplaceholder : guide.placeholder = none) {owner : Owner}
    {offers : List (String × FieldType × Visit (Except ε))} {out after : Json.Members}
    (h : guide.writeAll owner parent offers out = .ok after)
    (hordered : Json.Members.Ordered out) : Json.Members.Ordered after := by
  induction offers generalizing out with
  | nil =>
      cases h
      exact hordered
  | cons offer rest ih =>
      rw [writeAll] at h
      rcases hfirst : guide.writeField offer.1 (offer.2.2.write offer.2.1 _) _ out with
        fault | next
      · rw [hfirst] at h
        cases h
      · rw [hfirst] at h
        rcases writeField_cases hplaceholder hfirst with ⟨-, rfl⟩ | ⟨pruned, -, -, rfl⟩
        · exact ih h hordered
        · exact ih h (hordered.insert _ _)

/-- What is not offered is not written. -/
theorem lookup_writeAll (hplaceholder : guide.placeholder = none) {owner : Owner}
    {offers : List (String × FieldType × Visit (Except ε))} {out after : Json.Members}
    (h : guide.writeAll owner parent offers out = .ok after) {name : String}
    (hname : name ∉ offers.map (·.1)) : after.lookup name = out.lookup name := by
  induction offers generalizing out with
  | nil =>
      cases h
      rfl
  | cons offer rest ih =>
      obtain ⟨hne, hrest⟩ : name ≠ offer.1 ∧ name ∉ rest.map (·.1) := by
        simpa using hname
      rw [writeAll] at h
      rcases hfirst : guide.writeField offer.1 (offer.2.2.write offer.2.1 _) _ out with
        fault | next
      · rw [hfirst] at h
        cases h
      · rw [hfirst] at h
        rcases writeField_cases hplaceholder hfirst with ⟨-, rfl⟩ | ⟨pruned, -, -, rfl⟩
        · exact ih h hrest
        · rw [ih h hrest, Json.lookup_insert, if_neg hne]

/-- **What becomes of every member that is offered.** -/
theorem writeAll_wrote (hplaceholder : guide.placeholder = none) {owner : Owner}
    {offers : List (String × FieldType × Visit (Except ε))} (hnodup : (offers.map (·.1)).Nodup)
    {out after : Json.Members} (hfresh : ∀ offer ∈ offers, out.lookup offer.1 = none)
    (h : guide.writeAll owner parent offers out = .ok after) {name : String} {type : FieldType}
    {member : Visit (Except ε)} (hmem : (name, type, member) ∈ offers) :
    guide.Wrote (parent.child name (some owner))
      (member.write type (parent.child name (some owner))) (after.lookup name) := by
  induction offers generalizing out with
  | nil => cases hmem
  | cons offer rest ih =>
      obtain ⟨hne, hrest⟩ := List.nodup_cons.1 hnodup
      obtain ⟨hhead, htail⟩ := List.forall_mem_cons.1 hfresh
      rw [writeAll] at h
      rcases hfirst : guide.writeField offer.1 (offer.2.2.write offer.2.1 _) _ out with
        fault | next
      · rw [hfirst] at h
        cases h
      · rw [hfirst] at h
        have hcases := writeField_cases hplaceholder hfirst
        rcases List.mem_cons.1 hmem with rfl | hlater
        · rw [lookup_writeAll hplaceholder h hne]
          rcases hcases with ⟨hpath, rfl⟩ | ⟨pruned, hpath, hvalue, rfl⟩
          · rw [hhead]
            exact .excluded hpath
          · rw [Json.lookup_insert, if_pos rfl]
            exact .included hpath hvalue
        · refine ih hrest ?_ h hlater
          intro other hother
          rcases hcases with ⟨-, rfl⟩ | ⟨pruned, -, -, rfl⟩
          · exact htail other hother
          · rw [Json.lookup_insert, if_neg, htail other hother]
            intro hsame
            exact hne (List.mem_map.2 ⟨other, hother, hsame⟩)

end Guide

end FieldFilter
