import FieldFilter.Proofs.Offers
import FieldFilter.Proofs.Simulation
import Mathlib.Data.List.Forall2

/-!
# Two walks at once

`Json.prune` is written for any monad and asks its questions through a `Guide`.  Two walks can be
followed at once, in two monads and over two values, and what they give is related as soon as two
things are known: that the values they come to at the same time always go together, and that the
questions they ask there have related answers.

Which values go together at a place, under a declared type and at a path, is a `Pairing`.  A walk
over one value in two sessions, and one session over two values, are both walks along a pairing.

* `Schema.Pairing` — which values go together, and that they do so all the way down.
* `Schema.Region`, `Schema.Pairing.ofRegion` — one value with itself, as far as certain places go.
* `Simulation.Guides` — related answers along a pairing.
* `Simulation.Visits` — related ways to prune a value at a place.
* **`Simulation.prune`** — related walks.
-/

namespace FieldFilter

/-- The declared type of the entries of an object that is walked over as a map. -/
def FieldType.entry? : FieldType → Option FieldType
  | .described _ => none
  | .map (some entry) => some (.described entry)
  | .map none | .untyped => some .untyped

/-! ## The members that a walk visits -/

namespace Json

variable {m : Type → Type} [Monad m] {guide : Guide m}

theorem map_fst_visitMembers (members : Members) :
    (visitMembers guide members).map (·.1) = members.map (·.1) := by
  induction members with
  | nil => rfl
  | cons head rest ih => rw [visitMembers, List.map_cons, List.map_cons, ih]

theorem lookup_visitMembers (members : Members) (name : String) :
    (visitMembers guide members).lookup name = (members.lookup name).map (visit guide) := by
  induction members with
  | nil => rfl
  | cons head rest ih =>
      rw [visitMembers, AssocList.lookup_cons_ite, AssocList.lookup_cons_ite, ih]
      split <;> rfl

theorem filter_visitMembers (keep : String → Bool) (members : Members) :
    (visitMembers guide members).filter (fun entry => keep entry.1)
      = visitMembers guide (members.filter fun entry => keep entry.1) := by
  induction members with
  | nil => rfl
  | cons head rest ih =>
      rw [visitMembers, List.filter_cons, List.filter_cons, ih]
      cases keep head.1 <;> rfl

end Json

/-! ## Values that go together -/

namespace Schema

/-- Which values two walks may come to at the same time: at a place of a declared type and at a
path.  Two values that go together are of one kind, and so are their parts, as far as a walk looks
at them. -/
structure Pairing (schema : Schema) where
  Rel : FieldType → Path → Json → Json → Prop
  scalar {type : FieldType} {path : Path} {value value' : Json} :
    Rel type path value value' → value.isScalar = true → value' = value
  array {type : FieldType} {path : Path} {items : List Json} {value' : Json} :
    Rel type path (.array items) value' →
      ∃ items', value' = .array items' ∧ List.Forall₂ (Rel type path) items items'
  object {type : FieldType} {path : Path} {members : Json.Members} {value' : Json} :
    Rel type path (.object members) value' → ∃ members', value' = .object members'
  /-- The members that a visible field names go together at the type of that field. -/
  declared {type : String} {path : Path} {members members' : Json.Members} {info : TypeInfo} :
    Rel (.described type) path (.object members) (.object members') →
      schema.find? type = some info → ∀ field ∈ info.decl.visible,
        Option.Rel (Rel field.type (path.child field.name (some (.described type))))
          (members.lookup field.name) (members'.lookup field.name)
  /-- The members that are not declared go together, one by one. -/
  undeclared {type : String} {path : Path} {members members' : Json.Members} {info : TypeInfo} :
    Rel (.described type) path (.object members) (.object members') →
      schema.find? type = some info →
        List.Forall₂ (fun entry entry' => entry.1 = entry'.1
            ∧ Rel .untyped (path.child entry.1 (some (.described type))) entry.2 entry'.2)
          (members.filter fun entry => !info.decl.declares entry.1)
          (members'.filter fun entry => !info.decl.declares entry.1)
  /-- The entries of a map go together, one by one. -/
  entries {type entry : FieldType} {path : Path} {members members' : Json.Members} :
    Rel type path (.object members) (.object members') → type.entry? = some entry →
      List.Forall₂ (fun member member' => member.1 = member'.1
          ∧ Rel entry (path.child member.1 (some (.map Guide.mapType))) member.2 member'.2)
        members members'

/-- Places and values that a walk does not leave: from a value at a place it comes to values at
places of the same region. -/
structure Region (schema : Schema) where
  Holds : FieldType → Path → Json → Prop
  item {type : FieldType} {path : Path} {items : List Json} :
    Holds type path (.array items) → ∀ item ∈ items, Holds type path item
  declared {type : String} {path : Path} {members : Json.Members} {info : TypeInfo} :
    Holds (.described type) path (.object members) → schema.find? type = some info →
      ∀ field ∈ info.decl.visible, ∀ value, (field.name, value) ∈ members →
        Holds field.type (path.child field.name (some (.described type))) value
  undeclared {type : String} {path : Path} {members : Json.Members} {info : TypeInfo} :
    Holds (.described type) path (.object members) → schema.find? type = some info →
      ∀ entry ∈ members, info.decl.declares entry.1 = false →
        Holds .untyped (path.child entry.1 (some (.described type))) entry.2
  entries {type entry : FieldType} {path : Path} {members : Json.Members} :
    Holds type path (.object members) → type.entry? = some entry → ∀ member ∈ members,
      Holds entry (path.child member.1 (some (.map Guide.mapType))) member.2

/-- The region of all places and all values. -/
def Region.all (schema : Schema) : schema.Region where
  Holds _ _ _ := True
  item _ _ _ := True.intro
  declared _ _ _ _ _ _ := True.intro
  undeclared _ _ _ _ _ := True.intro
  entries _ _ _ _ := True.intro

/-- Every value of a region goes together with itself. -/
def Pairing.ofRegion {schema : Schema} (region : schema.Region) : schema.Pairing where
  Rel type path value value' := value' = value ∧ region.Holds type path value
  scalar h _ := h.1
  array := by
    rintro type path items _ ⟨rfl, hplace⟩
    exact ⟨items, rfl, List.forall₂_same.2 fun item hmem => ⟨rfl, region.item hplace item hmem⟩⟩
  object := by
    rintro type path members _ ⟨rfl, -⟩
    exact ⟨members, rfl⟩
  declared := by
    rintro type path members members' info ⟨hsame, hplace⟩ hinfo field hfield
    obtain rfl := Json.object.inj hsame
    cases hvalue : members'.lookup field.name with
    | none => exact .none
    | some value =>
        have hmem := AssocList.mem_of_lookup hvalue
        exact .some ⟨rfl, region.declared hplace hinfo field hfield value hmem⟩
  undeclared := by
    rintro type path members members' info ⟨hsame, hplace⟩ hinfo
    obtain rfl := Json.object.inj hsame
    refine List.forall₂_same.2 fun entry hentry => ⟨rfl, rfl, ?_⟩
    obtain ⟨hmem, hdeclares⟩ := List.mem_filter.1 hentry
    exact region.undeclared hplace hinfo entry hmem (by simpa using hdeclares)
  entries := by
    rintro type entry path members members' ⟨hsame, hplace⟩ hentry
    obtain rfl := Json.object.inj hsame
    exact List.forall₂_same.2 fun member hmem =>
      ⟨rfl, rfl, region.entries hplace hentry member hmem⟩

end Schema

/-! ## Related walks -/

namespace Simulation

variable {m n : Type → Type} [Monad m] [Monad n] (sim : Simulation m n)

/-- Two guides describe the types of a schema, give related answers to every question along a
pairing, and put the same in place of an excluded field.  A type is looked up for two objects that
go together at it. -/
structure Guides {schema : Schema} (pairing : schema.Pairing) (guide : Guide m)
    (guide' : Guide n) : Prop where
  describe : ∀ type path members members',
    pairing.Rel (.described type) path (.object members) (.object members') →
      ∀ (write : TypeInfo → m Json.Members) (write' : TypeInfo → n Json.Members),
        (∀ info, schema.find? type = some info → sim.Rel (write info) (write' info)) →
          sim.Rel (guide.describe type >>= write) (guide'.describe type >>= write')
  includes : ∀ type path value value', pairing.Rel type path value value' →
    sim.Rel (guide.includes path) (guide'.includes path)
  placeholder : guide.placeholder = guide'.placeholder

/-- At a place, two visits prune in related ways, and so does asking about the place. -/
structure Visits (guide : Guide m) (guide' : Guide n) (type : FieldType) (path : Path)
    (visit : Visit m) (visit' : Visit n) : Prop where
  includes : sim.Rel (guide.includes path) (guide'.includes path)
  write : sim.Rel (visit.write type path) (visit'.write type path)
  splice : ∀ inner, type = .described inner →
    Option.Rel (fun splice splice' => ∀ out, sim.Rel (splice inner path out)
      (splice' inner path out)) visit.splice? visit'.splice?

/-- Members of one name with related visits, as members of an owner. -/
def Members (guide : Guide m) (guide' : Guide n) (owner : Owner) (parent : Path)
    (type : FieldType) (entry : String × Visit m) (entry' : String × Visit n) : Prop :=
  entry.1 = entry'.1
    ∧ sim.Visits guide guide' type (parent.child entry.1 (some owner)) entry.2 entry'.2

variable {sim} {guide : Guide m} {guide' : Guide n} {members : List (String × Visit m)}
  {members' : List (String × Visit n)} {parent : Path}

theorem writeField (hplaceholder : guide.placeholder = guide'.placeholder) {type : FieldType}
    {path : Path} {visit : Visit m} {visit' : Visit n}
    (h : sim.Visits guide guide' type path visit visit') (name : String) (out : Json.Members) :
    sim.Rel (guide.writeField name (visit.write type path) path out)
      (guide'.writeField name (visit'.write type path) path out) := by
  simp only [Guide.writeField]
  refine sim.bind h.includes fun included => ?_
  cases included with
  | true => exact sim.bind h.write fun pruned => sim.pure _
  | false =>
      rw [hplaceholder]
      cases guide'.placeholder with
      | none => exact sim.pure out
      | some placeholder => exact sim.pure _

/-- Members that go together one by one are written in related ways. -/
theorem writeAll (hplaceholder : guide.placeholder = guide'.placeholder) {owner : Owner}
    {type : FieldType}
    (h : List.Forall₂ (sim.Members guide guide' owner parent type) members members')
    (out : Json.Members) :
    sim.Rel
      (guide.writeAll owner parent (members.map fun member => (member.1, type, member.2)) out)
      (guide'.writeAll owner parent (members'.map fun member => (member.1, type, member.2))
        out) := by
  induction h generalizing out with
  | nil => exact sim.pure out
  | @cons entry entry' rest rest' hentry _ ih =>
      obtain ⟨name, visit⟩ := entry
      obtain ⟨name', visit'⟩ := entry'
      obtain ⟨rfl, hvisit⟩ := hentry
      exact sim.bind (writeField hplaceholder hvisit name out) ih

/-- Fields that are found in both objects or in neither are written in related ways. -/
theorem writeDeclared (hplaceholder : guide.placeholder = guide'.placeholder) {type : String}
    {fields : List FieldDecl}
    (h : ∀ field ∈ fields, Option.Rel
      (sim.Visits guide guide' field.type (parent.child field.name (some (.described type))))
      (members.lookup field.name) (members'.lookup field.name)) (out : Json.Members) :
    sim.Rel (guide.writeDeclared members type parent fields out)
      (guide'.writeDeclared members' type parent fields out) := by
  induction fields generalizing out with
  | nil => exact sim.pure out
  | cons field rest ih =>
      obtain ⟨hfield, hrest⟩ := List.forall_mem_cons.1 h
      obtain ⟨name, views, hidden, unwrapped, declared⟩ := field
      simp only [Guide.writeDeclared]
      generalize members.lookup name = found at hfield ⊢
      generalize members'.lookup name = found' at hfield ⊢
      cases hfield with
      | none => exact ih hrest out
      | @some visit visit' hvisit =>
          have hwritten := writeField hplaceholder hvisit name out
          have hsplice := hvisit.splice
          obtain ⟨write, splice?⟩ := visit
          obtain ⟨write', splice?'⟩ := visit'
          -- only an unwrapped field of a described type whose value is an object is spliced
          cases unwrapped with
          | false => cases declared <;> exact sim.bind hwritten (ih hrest)
          | true =>
              cases declared with
              | untyped => exact sim.bind hwritten (ih hrest)
              | map entry => exact sim.bind hwritten (ih hrest)
              | described inner =>
                  cases hsplice inner rfl with
                  | none => exact sim.bind hwritten (ih hrest)
                  | some hspliced => exact sim.bind (hspliced out) (ih hrest)

theorem writeItems {type : FieldType} {items : List (Visit m)} {items' : List (Visit n)}
    (h : List.Forall₂ (sim.Visits guide guide' type parent) items items') :
    sim.Rel (Guide.writeItems type parent items) (Guide.writeItems type parent items') := by
  induction h with
  | nil => exact sim.pure []
  | cons hitem _ ih =>
      exact sim.bind hitem.write fun pruned => sim.bind ih fun others => sim.pure _

/-- An object of a described type is written in related ways, if its members go together. -/
theorem writeDescribed {schema : Schema} {pairing : schema.Pairing}
    (h : sim.Guides pairing guide guide') {type : String} {values values' : Json.Members}
    (hpair : pairing.Rel (.described type) parent (.object values) (.object values'))
    (hmembers : ∀ info, schema.find? type = some info →
      (∀ field ∈ info.decl.visible, Option.Rel
        (sim.Visits guide guide' field.type (parent.child field.name (some (.described type))))
        (members.lookup field.name) (members'.lookup field.name))
      ∧ List.Forall₂ (sim.Members guide guide' (.described type) parent .untyped)
        (members.filter fun entry => !info.decl.declares entry.1)
        (members'.filter fun entry => !info.decl.declares entry.1)) (out : Json.Members) :
    sim.Rel (guide.writeDescribed members type parent out)
      (guide'.writeDescribed members' type parent out) := by
  refine h.describe type _ _ _ hpair _ _ fun info hinfo => ?_
  obtain ⟨hdeclared, hundeclared⟩ := hmembers info hinfo
  refine sim.bind (writeDeclared h.placeholder hdeclared out) fun written => ?_
  rw [Guide.writeUndeclared_eq, Guide.writeUndeclared_eq]
  exact writeAll h.placeholder hundeclared written

/-- A map is written in related ways, if its entries go together. -/
theorem writeMap (hplaceholder : guide.placeholder = guide'.placeholder) {entry : FieldType}
    (h : List.Forall₂ (sim.Members guide guide' (.map Guide.mapType) parent entry) members
      members') :
    sim.Rel (guide.writeMap entry parent members [])
      (guide'.writeMap entry parent members' []) := by
  rw [Guide.writeMap_eq, Guide.writeMap_eq]
  exact writeAll hplaceholder h []

section Visit

variable {schema : Schema} {pairing : schema.Pairing}

/-- Items that go together one by one have related visits, if their values do. -/
theorem visitAll {type : FieldType} {items items' : List Json}
    (hvisit : ∀ item ∈ items, ∀ value', pairing.Rel type parent item value' →
      sim.Visits guide guide' type parent (item.visit guide) (value'.visit guide'))
    (h : List.Forall₂ (pairing.Rel type parent) items items') :
    List.Forall₂ (sim.Visits guide guide' type parent) (Json.visitAll guide items)
      (Json.visitAll guide' items') := by
  induction h with
  | nil => exact .nil
  | @cons item item' rest rest' hitem _ ih =>
      obtain ⟨hfirst, hrest⟩ := List.forall_mem_cons.1 hvisit
      exact .cons (hfirst item' hitem) (ih hrest)

/-- Members that go together one by one have related visits, if their values do. -/
theorem visitMembers {owner : Owner} {type : FieldType} {members members' : Json.Members}
    (hvisit : ∀ entry ∈ members, ∀ value',
      pairing.Rel type (parent.child entry.1 (some owner)) entry.2 value' →
        sim.Visits guide guide' type (parent.child entry.1 (some owner)) (entry.2.visit guide)
          (value'.visit guide'))
    (h : List.Forall₂ (fun entry entry' => entry.1 = entry'.1
      ∧ pairing.Rel type (parent.child entry.1 (some owner)) entry.2 entry'.2) members members') :
    List.Forall₂ (sim.Members guide guide' owner parent type) (Json.visitMembers guide members)
      (Json.visitMembers guide' members') := by
  induction h with
  | nil => exact .nil
  | @cons entry entry' rest rest' hentry _ ih =>
      obtain ⟨hfirst, hrest⟩ := List.forall_mem_cons.1 hvisit
      exact .cons ⟨hentry.1, hfirst entry'.2 hentry.2⟩ (ih hrest)

/-- The members of an object of a described type have related visits, if their values do. -/
theorem visitDescribed {type : String} {info : TypeInfo} {members members' : Json.Members}
    (hvisit : ∀ entry ∈ members, ∀ {type : FieldType} {path : Path} {value' : Json},
      pairing.Rel type path entry.2 value' →
        sim.Visits guide guide' type path (entry.2.visit guide) (value'.visit guide'))
    (hpair : pairing.Rel (.described type) parent (.object members) (.object members'))
    (hinfo : schema.find? type = some info) :
    (∀ field ∈ info.decl.visible, Option.Rel
        (sim.Visits guide guide' field.type (parent.child field.name (some (.described type))))
        ((Json.visitMembers guide members).lookup field.name)
        ((Json.visitMembers guide' members').lookup field.name))
      ∧ List.Forall₂ (sim.Members guide guide' (.described type) parent .untyped)
        ((Json.visitMembers guide members).filter fun entry => !info.decl.declares entry.1)
        ((Json.visitMembers guide' members').filter fun entry => !info.decl.declares entry.1) := by
  constructor
  · intro field hfield
    have hfields := pairing.declared hpair hinfo field hfield
    rw [Json.lookup_visitMembers, Json.lookup_visitMembers]
    generalize members'.lookup field.name = found' at hfields ⊢
    cases hvalue : members.lookup field.name with
    | none =>
        rw [hvalue] at hfields
        cases hfields
        exact .none
    | some value =>
        rw [hvalue] at hfields
        cases hfields with
        | some hvalues =>
            exact .some (hvisit (field.name, value) (AssocList.mem_of_lookup hvalue) hvalues)
  · have hundeclared := pairing.undeclared hpair hinfo
    rw [Json.filter_visitMembers fun name => !info.decl.declares name,
      Json.filter_visitMembers fun name => !info.decl.declares name]
    exact visitMembers (fun entry hmem _ => hvisit entry (List.mem_filter.1 hmem).1) hundeclared

/-- **Values that go together are pruned in related ways**, wherever they stand. -/
theorem visit (h : sim.Guides pairing guide guide') (value : Json) :
    ∀ {type : FieldType} {path : Path} {value' : Json}, pairing.Rel type path value value' →
      sim.Visits guide guide' type path (value.visit guide) (value'.visit guide') := by
  induction value using Json.induct with
  | array items ih =>
      intro type path value' hpair
      obtain ⟨items', rfl, hitems⟩ := pairing.array hpair
      have hvisits := visitAll (fun item hmem _ => ih item hmem) hitems
      exact {
        includes := h.includes type path _ _ hpair
        write := sim.bind (writeItems hvisits) fun pruned => sim.pure _
        splice := fun inner _ => .none }
  | object members ih =>
      intro type path value' hpair
      obtain ⟨members', rfl⟩ := pairing.object hpair
      have hdescribed : ∀ inner out, type = .described inner →
          sim.Rel (guide.writeDescribed (Json.visitMembers guide members) inner path out)
            (guide'.writeDescribed (Json.visitMembers guide' members') inner path out) := by
        rintro inner out rfl
        exact writeDescribed h hpair (fun info hinfo => visitDescribed ih hpair hinfo) out
      have hmap : ∀ entry, type.entry? = some entry →
          sim.Rel (guide.writeMap entry path (Json.visitMembers guide members) [])
            (guide'.writeMap entry path (Json.visitMembers guide' members') []) := by
        intro entry hentry
        exact writeMap h.placeholder
          (visitMembers (fun member hmem _ => ih member hmem) (pairing.entries hpair hentry))
      have hobject : sim.Rel (guide.writeObject (Json.visitMembers guide members) type path)
          (guide'.writeObject (Json.visitMembers guide' members') type path) := by
        cases type with
        | described inner => exact hdescribed inner [] rfl
        | untyped => exact hmap _ rfl
        | map entry => cases entry <;> exact hmap _ rfl
      exact {
        includes := h.includes type path _ _ hpair
        write := sim.bind hobject fun pruned => sim.pure _
        splice := fun inner htype => .some fun out => hdescribed inner out htype }
  | _ =>
      intro type path value' hpair
      obtain rfl := pairing.scalar hpair rfl
      exact {
        includes := h.includes type path _ _ hpair
        write := sim.pure _
        splice := fun inner _ => .none }

/-- **Values that go together at the root have related walks.** -/
theorem prune (h : sim.Guides pairing guide guide') {root : Owner} {value value' : Json}
    (hpair : pairing.Rel (Json.rootType root) [] value value') :
    sim.Rel (value.prune guide root) (value'.prune guide' root) :=
  (visit h value hpair).write

end Visit

end Simulation

end FieldFilter
