import FieldFilter.Proofs.Projection
import FieldFilter.Proofs.Walk

/-!
# Paths of one root

A walk hands down two things, the declared type of the value it has come to and the path that leads
there.  Both follow from the type it started from and the names on the way, if no two visible
fields of a type have one name.  The key of a path joins its names by dots and leaves out all owners
but the last; where no name has a dot the names can be read off it again, and with them everything.

* `Json.names` — the names of all members of a value, at any depth.
* `Schema.typeAt`, `Schema.Reaches` — what names without a dot lead to.
* `Schema.territory` — walks from one root over values without dots in their names come to nothing
  else.
* **`Schema.Reaches.eq_of_key_eq`** — of the paths that names without a dot lead to, two with one
  key are one path.
-/

namespace FieldFilter

/-! ## Names without a dot -/

namespace Json

mutual

/-- The names of the members of a value and of the values in it. -/
def names : Json → List String
  | .array items => namesAll items
  | .object members => namesMembers members
  | _ => []

def namesAll : List Json → List String
  | [] => []
  | item :: rest => names item ++ namesAll rest

def namesMembers : List (String × Json) → List String
  | [] => []
  | (name, value) :: rest => name :: names value ++ namesMembers rest

end

/-- No name in a value has a dot. -/
def Dotless (value : Json) : Prop :=
  ∀ name ∈ value.names, '.' ∉ name.toList

instance (value : Json) : Decidable value.Dotless :=
  inferInstanceAs (Decidable (∀ name ∈ value.names, '.' ∉ name.toList))

theorem namesAll_eq (items : List Json) : namesAll items = items.flatMap names := by
  induction items with
  | nil => rfl
  | cons item rest ih => rw [namesAll, List.flatMap_cons, ih]

theorem namesMembers_eq (members : Members) :
    namesMembers members = members.flatMap fun entry => entry.1 :: entry.2.names := by
  induction members with
  | nil => rfl
  | cons entry rest ih => rw [namesMembers, List.flatMap_cons, ih]

theorem Dotless.item {items : List Json} (h : (array items).Dotless) :
    ∀ item ∈ items, item.Dotless := by
  intro item hitem name hname
  refine h name ?_
  rw [names, namesAll_eq]
  exact List.mem_flatMap.2 ⟨item, hitem, hname⟩

theorem Dotless.member {members : Members} (h : (object members).Dotless) :
    ∀ entry ∈ members, '.' ∉ entry.1.toList ∧ entry.2.Dotless := by
  have hall : ∀ entry ∈ members, ∀ name ∈ entry.1 :: entry.2.names, '.' ∉ name.toList := by
    intro entry hentry name hname
    refine h name ?_
    rw [names, namesMembers_eq]
    exact List.mem_flatMap.2 ⟨entry, hentry, hname⟩
  intro entry hentry
  exact List.forall_mem_cons.1 (hall entry hentry)

end Json

namespace Path

variable {path path' : Path}

/-- Names without a dot can be read off the text that joins them by dots. -/
theorem splitOn_id (hpath : path ≠ []) (hnames : ∀ name ∈ path.map (·.name), '.' ∉ name.toList) :
    path.id.toList.splitOn '.' = (path.map (·.name)).map String.toList := by
  rw [id, String.toList_intercalate]
  refine List.splitOn_intercalate '.' (List.forall_mem_map.2 hnames) ?_
  simpa using hpath

theorem names_eq_of_id_eq (hpath : path ≠ []) (hpath' : path' ≠ [])
    (hnames : ∀ name ∈ path.map (·.name), '.' ∉ name.toList)
    (hnames' : ∀ name ∈ path'.map (·.name), '.' ∉ name.toList) (h : path.id = path'.id) :
    path.map (·.name) = path'.map (·.name) := by
  have hsame : (path.map (·.name)).map String.toList = (path'.map (·.name)).map String.toList := by
    rw [← splitOn_id hpath hnames, h, splitOn_id hpath' hnames']
  exact List.map_injective_iff.2 (fun _ _ => String.toList_inj.1) hsame

end Path

/-! ## What names lead to -/

namespace Schema

variable {schema : Schema}

/-- The declared type that names lead to. -/
def typeAt (schema : Schema) (root : FieldType) (names : List String) : FieldType :=
  names.foldl schema.memberType root

/-- Names without a dot lead from a root to a declared type along a path. -/
def Reaches (schema : Schema) (root type : FieldType) (path : Path) : Prop :=
  ∃ names : List String, (∀ name ∈ names, '.' ∉ name.toList)
    ∧ path = schema.pathTo root (names.map .member) ∧ type = schema.typeAt root names

theorem names_pathTo (root : FieldType) (names : List String) :
    (schema.pathTo root (names.map .member)).map (·.name) = names := by
  induction names generalizing root with
  | nil => rfl
  | cons name rest ih => rw [List.map_cons, pathTo, List.map_cons, ih]

/-- One more name leads to a member of what the names before it lead to. -/
theorem pathTo_concat (root : FieldType) (names : List String) (name : String) :
    schema.pathTo root ((names ++ [name]).map .member)
      = (schema.pathTo root (names.map .member)).child name
          (some (schema.typeAt root names).owner) := by
  induction names generalizing root with
  | nil => rfl
  | cons first rest ih =>
      rw [List.cons_append, List.map_cons, pathTo, ih, List.map_cons, pathTo]
      rfl

namespace Reaches

variable {root type : FieldType} {path : Path}

theorem nil (root : FieldType) : schema.Reaches root root [] :=
  ⟨[], nofun, rfl, rfl⟩

/-- From a type that is reached its members are. -/
theorem child (h : schema.Reaches root type path) {name : String} (hname : '.' ∉ name.toList) :
    schema.Reaches root (schema.memberType type name) (path.child name (some type.owner)) := by
  obtain ⟨names, hnames, rfl, rfl⟩ := h
  refine ⟨names ++ [name], ?_, (pathTo_concat root names name).symm, ?_⟩
  · rw [List.forall_mem_append]
    exact ⟨hnames, List.forall_mem_singleton.2 hname⟩
  · rw [typeAt, typeAt, List.foldl_append, List.foldl_cons, List.foldl_nil]

/-- **The key of a path that is reached is its own**, if it is a key that decisions are remembered
under. -/
theorem eq_of_key_eq {type' : FieldType} {path' : Path} (h : schema.Reaches root type path)
    (h' : schema.Reaches root type' path') (hcacheable : path.isCacheable = true)
    (hcacheable' : path'.isCacheable = true) (hkey : path.key = path'.key) : path = path' := by
  have hne : ∀ {path : Path}, path.isCacheable = true → path ≠ [] := by
    rintro _ hcacheable rfl
    exact Bool.false_ne_true hcacheable
  obtain ⟨names, hnames, rfl, -⟩ := h
  obtain ⟨names', hnames', rfl, -⟩ := h'
  have hsame := Path.names_eq_of_id_eq (hne hcacheable) (hne hcacheable')
    (by rwa [names_pathTo]) (by rwa [names_pathTo]) (congrArg PathIdentity.id hkey)
  rw [names_pathTo, names_pathTo] at hsame
  rw [hsame]

end Reaches

/-! ## What a walk comes to -/

/-- No type has two visible fields of one name. -/
def Unambiguous (schema : Schema) : Prop :=
  ∀ info ∈ schema.types, (info.decl.visible.map (·.name)).Nodup

instance (schema : Schema) : Decidable schema.Unambiguous :=
  inferInstanceAs (Decidable (∀ info ∈ schema.types, (info.decl.visible.map (·.name)).Nodup))

/-- Where no type has two visible fields of one name, a member is of the type of its field. -/
theorem memberType_of_visible (h : schema.Unambiguous) {type : String} {info : TypeInfo}
    (hinfo : schema.find? type = some info) {field : FieldDecl}
    (hfield : field ∈ info.decl.visible) :
    schema.memberType (.described type) field.name = field.type := by
  rw [memberType, hinfo, Option.bind_some,
    TypeDecl.field?_eq_some (h info (List.mem_of_find?_eq_some hinfo)) hfield]

theorem memberType_of_undeclared {type : String} {info : TypeInfo}
    (hinfo : schema.find? type = some info) {name : String}
    (hname : info.decl.declares name = false) :
    schema.memberType (.described type) name = .untyped := by
  rw [memberType, hinfo, Option.bind_some, TypeDecl.field?_eq_none hname]

/-- The members of a map are entries of it. -/
theorem memberType_of_entry? {type entry : FieldType} (h : type.entry? = some entry)
    (name : String) :
    schema.memberType type name = entry ∧ type.owner = .map Guide.mapType := by
  cases type with
  | described type => cases h
  | untyped => exact ⟨Option.some.inj h, rfl⟩
  | map type => cases type <;> exact ⟨Option.some.inj h, rfl⟩

/-- From one root, over values without dots in their names, a walk comes to what such names lead to
and to nothing else. -/
def territory (schema : Schema) (h : schema.Unambiguous) (root : FieldType) : schema.Region where
  Holds type path value := schema.Reaches root type path ∧ value.Dotless
  item hplace item hitem := ⟨hplace.1, hplace.2.item item hitem⟩
  declared := by
    intro type path members info hplace hinfo field hfield value hvalue
    obtain ⟨hname, hdotless⟩ := hplace.2.member _ hvalue
    have hchild := hplace.1.child hname
    rw [memberType_of_visible h hinfo hfield] at hchild
    exact ⟨hchild, hdotless⟩
  undeclared := by
    intro type path members info hplace hinfo entry hentry hundeclared
    obtain ⟨hname, hdotless⟩ := hplace.2.member entry hentry
    have hchild := hplace.1.child hname
    rw [memberType_of_undeclared hinfo hundeclared] at hchild
    exact ⟨hchild, hdotless⟩
  entries := by
    intro type entry path members hplace hentry member hmember
    obtain ⟨hname, hdotless⟩ := hplace.2.member member hmember
    obtain ⟨hentries, howner⟩ : schema.memberType type member.1 = entry
        ∧ type.owner = .map Guide.mapType := memberType_of_entry? hentry member.1
    have hchild := hplace.1.child hname
    rw [hentries, howner] at hchild
    exact ⟨hchild, hdotless⟩

end Schema

end FieldFilter
