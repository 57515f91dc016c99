import FieldFilter.Schema

/-!
# What is known of a declared type

From the declarations of a type a table of its views is built once, and the set of its unwrapped
names.  Everything that is decided later reads these and not the declarations.  This file says that
nothing is lost or made up on the way: each answer is told by the declarations alone.

**One name may be declared several times.**  The declarations of a name are taken together where it
is about views and about unwrapping.  It is in a view if one visible declaration puts it there, and
unwrapped if one visible declaration of a described type carries the flag.  The description of a
field is the first visible one, and a name is declared even if all its declarations are hidden.

**The labels of the two reserved views can also be written.**  The view `full` does not need the
label, and `base` is named by a label like any other view, next to the fields without labels.

* `FieldDecl.BelongsTo` — a declaration belongs to a view.
* `ViewTable.mem_members_add`, `ViewTable.mem_members_addField` — what one entry, and one
  declaration, adds to the views.
* **`ViewTable.mem_members_ofFields`** — the members of a view.
* `ViewTable.Peopled`, `ViewTable.mem_labels_iff` — the views that are listed.
* `TypeInfo.Reflects` — every answer is told by the declarations.
* **`TypeDecl.info_reflects`** — this holds of what is computed for any declared type.
-/

namespace FieldFilter

/-! ## Declarations -/

namespace FieldDecl

/-- A field is a visible declaration of a name. -/
def Shows (field : FieldDecl) (name : String) : Prop :=
  field.hidden = false ∧ field.name = name

/-- A field belongs to a view: it carries the label, or the view is the one of all fields, or it is
the base view, the field carries no label, and such fields are in the base view. -/
def BelongsTo (unlabelledInBase : Bool) (field : FieldDecl) (label : String) : Prop :=
  label ∈ field.views ∨ label = Name.fullView
    ∨ label = Name.baseView ∧ field.views = [] ∧ unlabelledInBase = true

end FieldDecl

namespace TypeDecl

/-- The visible fields are the declared ones that are not hidden. -/
theorem exists_mem_visible {decl : TypeDecl} {P : FieldDecl → Prop} :
    (∃ field ∈ decl.visible, P field) ↔ ∃ field ∈ decl.fields, field.hidden = false ∧ P field := by
  simp only [visible, List.mem_filter, Bool.not_eq_true', and_assoc]

/-- The unwrapped names of a type are those of its visible fields of a described type that carry
the flag. -/
theorem mem_unwrappedNames {decl : TypeDecl} {name : String} :
    name ∈ decl.unwrappedNames ↔ ∃ field ∈ decl.visible,
      field.unwrapped = true ∧ field.type.isDescribed = true ∧ field.name = name := by
  rw [unwrappedNames, NameSet.mem_foldl_insert]
  simp [and_assoc]

end TypeDecl

/-! ## The members of a view -/

namespace ViewTable

variable {table : ViewTable} {unlabelledInBase : Bool}

/-- A name added to a view is a member of it, next to all members there were. -/
theorem mem_members_add {label name view other : String} :
    other ∈ (table.add label name).members view
      ↔ other ∈ table.members view ∨ view = label ∧ other = name := by
  rw [members_add]
  split
  · next heq => rw [NameSet.mem_insert, heq, or_comm, and_iff_right rfl]
  · next hne => rw [or_iff_left fun h => hne h.1]

/-- A name added to several views is a member of these. -/
theorem mem_members_addAll {name view other : String} (labels : List String) :
    other ∈ (labels.foldl (fun table label => table.add label name) table).members view
      ↔ other ∈ table.members view ∨ view ∈ labels ∧ other = name := by
  induction labels generalizing table with
  | nil => simp
  | cons label rest ih =>
    rw [List.foldl_cons, ih, mem_members_add, List.mem_cons, or_and_right, or_assoc]

/-- **A declaration adds its name to the views that it belongs to**, and changes nothing else. -/
theorem mem_members_addField {field : FieldDecl} {view name : String} :
    name ∈ (addField unlabelledInBase table field).members view
      ↔ name ∈ table.members view
        ∨ field.BelongsTo unlabelledInBase view ∧ name = field.name := by
  rw [addField, mem_members_addAll]
  by_cases hbase : field.views = [] ∧ unlabelledInBase = true
  · rw [if_pos (by simpa using hbase), mem_members_add, mem_members_add]
    simp only [FieldDecl.BelongsTo, hbase, and_true, List.not_mem_nil, false_or, or_and_right,
      false_and, or_false, or_assoc]
  · rw [if_neg (by simpa using hbase), mem_members_add]
    simp only [FieldDecl.BelongsTo, hbase, and_false, or_false, or_and_right, or_assoc]
    exact or_congr_right or_comm

/-- **The members of a view** are the names of the declarations that belong to it. -/
theorem mem_members_ofFields {fields : List FieldDecl} {view name : String} :
    name ∈ (ofFields unlabelledInBase fields).members view
      ↔ ∃ field ∈ fields, field.name = name ∧ field.BelongsTo unlabelledInBase view := by
  have hfold : ∀ table : ViewTable,
      name ∈ (fields.foldl (addField unlabelledInBase) table).members view
        ↔ name ∈ table.members view
          ∨ ∃ field ∈ fields, field.name = name ∧ field.BelongsTo unlabelledInBase view := by
    induction fields with
    | nil => simp
    | cons field rest ih =>
      intro table
      simp only [List.foldl_cons, ih, mem_members_addField, List.mem_cons, exists_eq_or_imp]
      rw [or_assoc, and_comm (a := field.name = name), eq_comm (a := name)]
  rw [ofFields, hfold]
  exact or_iff_right List.not_mem_nil

/-! ## The views that are listed -/

/-- Every view that is listed has a member. -/
def Peopled (table : ViewTable) : Prop :=
  ∀ entry ∈ table, ∃ name, name ∈ entry.2

theorem Peopled.add (h : table.Peopled) (label name : String) :
    (table.add label name).Peopled := by
  induction table with
  | nil => exact List.forall_mem_singleton.2 ⟨name, NameSet.mem_insert.2 (.inl rfl)⟩
  | cons head tail ih =>
    obtain ⟨key, names⟩ := head
    obtain ⟨hhead, htail⟩ := List.forall_mem_cons.1 h
    unfold ViewTable.add
    split
    · exact List.forall_mem_cons.2 ⟨⟨name, NameSet.mem_insert.2 (.inl rfl)⟩, htail⟩
    · exact List.forall_mem_cons.2 ⟨hhead, ih htail⟩

theorem Peopled.addAll (h : table.Peopled) (labels : List String) (name : String) :
    (labels.foldl (fun table label => table.add label name) table).Peopled := by
  induction labels generalizing table with
  | nil => exact h
  | cons label rest ih => exact ih (h.add label name)

theorem Peopled.addField (h : table.Peopled) (field : FieldDecl) :
    (ViewTable.addField unlabelledInBase table field).Peopled := by
  have hfull := h.add Name.fullView field.name
  refine Peopled.addAll ?_ field.views field.name
  split
  · exact hfull.add Name.baseView field.name
  · exact hfull

theorem peopled_ofFields (unlabelledInBase : Bool) (fields : List FieldDecl) :
    (ofFields unlabelledInBase fields).Peopled := by
  have hfold : ∀ table : ViewTable, table.Peopled →
      (fields.foldl (addField unlabelledInBase) table).Peopled := by
    induction fields with
    | nil => exact fun table h => h
    | cons field rest ih => exact fun table h => ih _ (h.addField field)
  exact hfold [] (List.forall_mem_nil _)

/-- **The views that are listed are those that have a member.** -/
theorem mem_labels_iff (h : table.Peopled) {label : String} :
    label ∈ table.labels ↔ ∃ name, name ∈ table.members label := by
  rw [labels, NameSet.mem_foldl_insert, or_iff_right List.not_mem_nil, members]
  constructor
  · rintro ⟨entry, hentry, rfl⟩
    have hfound : (table.lookup entry.1).isSome = true :=
      List.lookup_isSome_iff.2 ⟨entry, hentry, beq_self_eq_true _⟩
    obtain ⟨names, hnames⟩ := Option.isSome_iff_exists.1 hfound
    rw [hnames, Option.getD_some]
    exact h _ (AssocList.mem_of_lookup hnames)
  · rintro ⟨name, hname⟩
    cases hnames : table.lookup label with
    | none =>
      rw [hnames] at hname
      cases hname
    | some names => exact ⟨_, AssocList.mem_of_lookup hnames, rfl⟩

end ViewTable

/-! ## What is known reflects what is declared -/

/-- What is known of a type reflects its declared fields: each answer is the one that the
declarations give. -/
structure TypeInfo.Reflects (unlabelledInBase : Bool) (fields : List FieldDecl) (info : TypeInfo) :
    Prop where
  member : ∀ label name, name ∈ info.views.members label
    ↔ ∃ field ∈ fields, field.Shows name ∧ field.BelongsTo unlabelledInBase label
  listed : ∀ label, label ∈ info.views.labels ↔ ∃ name, name ∈ info.views.members label
  unwrapped : ∀ name, name ∈ info.unwrapped
    ↔ ∃ field ∈ fields, field.Shows name ∧ field.unwrapped = true
      ∧ ∃ type, field.type = .described type
  /-- The field of a name is its first visible declaration. -/
  found : ∀ name field, info.decl.field? name = some field
    ↔ ∃ before after, fields = before ++ field :: after ∧ field.Shows name
      ∧ ∀ other ∈ before, ¬ other.Shows name
  missing : ∀ name, info.decl.field? name = none ↔ ∀ field ∈ fields, ¬ field.Shows name
  declared : ∀ name, info.decl.declares name = true ↔ ∃ field ∈ fields, field.name = name

namespace TypeDecl

variable {decl : TypeDecl}

theorem field?_eq (decl : TypeDecl) (name : String) :
    decl.field? name = decl.fields.find? fun field => !field.hidden && field.name == name := by
  rw [field?, visible, List.find?_filter]
  simp only [Bool.decide_and, Bool.decide_eq_true]

theorem shows_iff {field : FieldDecl} {name : String} :
    (!field.hidden && field.name == name) = true ↔ field.Shows name := by
  rw [Bool.and_eq_true, Bool.not_eq_true', beq_iff_eq, FieldDecl.Shows]

/-- **What is known of a type reflects its declarations**, however often a name or a label is
repeated, and whatever the flags of the fields. -/
theorem info_reflects (unlabelledInBase : Bool) (decl : TypeDecl) :
    (decl.info unlabelledInBase).Reflects unlabelledInBase decl.fields where
  member label name := by
    rw [info, ViewTable.mem_members_ofFields, exists_mem_visible]
    simp only [FieldDecl.Shows, and_assoc]
  listed label := ViewTable.mem_labels_iff (ViewTable.peopled_ofFields _ _)
  unwrapped name := by
    have hdescribed : ∀ type : FieldType,
        type.isDescribed = true ↔ ∃ inner, type = .described inner := by
      intro type
      cases type <;> simp [FieldType.isDescribed]
    rw [info, mem_unwrappedNames, exists_mem_visible]
    simp only [FieldDecl.Shows, hdescribed, and_comm, and_left_comm, and_assoc]
  found name field := by
    rw [info, field?_eq, List.find?_eq_some_iff_append, shows_iff]
    simp only [Bool.not_eq_true', ← Bool.not_eq_true, shows_iff]
    constructor
    · rintro ⟨hshows, before, after, hfields, hbefore⟩
      exact ⟨before, after, hfields, hshows, hbefore⟩
    · rintro ⟨before, after, hfields, hshows, hbefore⟩
      exact ⟨hshows, before, after, hfields, hbefore⟩
  missing name := by
    simp only [info, field?_eq, List.find?_eq_none, shows_iff]
  declared name := by
    simp only [info, declares, List.any_eq_true, beq_iff_eq]

end TypeDecl

end FieldFilter
