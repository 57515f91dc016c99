import FieldFilter.Proofs.Answers
import FieldFilter.Proofs.Meaning
import FieldFilter.Proofs.Projection
import FieldFilter.Proofs.Spliced
import FieldFilter.Proofs.ViewTable

/-!
# The blank filter

A blank filter asks for nothing.  There are no candidates on any level of its expression, so the one
way on is to pass over unwrapped fields, and a path is included if that leads to its end.  A field
that is unwrapped has no value of its own as long as its object is spliced in.  A value that is not
an object cannot be spliced in and is offered under the name of the field: it is *stranded*, and as
the field is passed over, it is written.

* `Schema.judge_blank` — the decision about a path.
* `Schema.Strands` — the stranded members of an object, those of spliced objects among them.
* **`Session.prune_blank`** — of an object these members are written, and no others.
* `Session.prune_strandedAudit_ne` — one that is written.
-/

namespace FieldFilter

/-! ## The unwrapped fields of described types -/

namespace Schema

/-- What the schema knows about each type was computed from its declaration. -/
def Computed (schema : Schema) : Prop :=
  ∀ info ∈ schema.types, info.unwrapped = info.decl.unwrappedNames

theorem Computed.register {schema : Schema} (h : schema.Computed) (decl : TypeDecl) :
    (schema.register decl).Computed := by
  intro info hinfo
  rcases List.mem_append.1 hinfo with hother | hnew
  · exact h info (List.mem_filter.1 hother).1
  · rw [List.mem_singleton.1 hnew]
    rfl

theorem computed_registerAll (unlabelledInBase : Bool) (decls : List TypeDecl) :
    ((Schema.empty unlabelledInBase).registerAll decls).Computed := by
  have hall : ∀ schema : Schema, schema.Computed → (schema.registerAll decls).Computed := by
    induction decls with
    | nil => exact fun schema h => h
    | cons decl rest ih => exact fun schema h => ih _ (h.register decl)
  exact hall _ (List.forall_mem_nil _)

/-- An unwrapped name is that of a visible field that carries the flag. -/
theorem Computed.mem_unwrapped {schema : Schema} (h : schema.Computed) {type : String}
    {info : TypeInfo} (hinfo : schema.find? type = some info) {name : String} :
    name ∈ info.unwrapped ↔ ∃ field ∈ info.decl.visible,
      field.unwrapped = true ∧ field.type.isDescribed = true ∧ field.name = name := by
  rw [h info (List.mem_of_find?_eq_some hinfo), TypeDecl.mem_unwrappedNames]

/-! ## The decision -/

variable {schema : Schema} {policy : ViewPolicy} {filter : String}

/-- A field whose object is spliced in is passed over. -/
theorem Computed.passesOver_of_spliced {type : String} {info : TypeInfo} {field : FieldDecl}
    {value : Json} {inner : String} {below : Json.Members} (h : schema.Computed)
    (hinfo : schema.find? type = some info) (hfield : field ∈ info.decl.visible)
    (hspliced : field.spliced? value = some (inner, below)) :
    schema.PassesOver ⟨field.name, some (.described type)⟩ := by
  obtain ⟨hunwrapped, htype, -⟩ := FieldDecl.spliced?_eq_some.1 hspliced
  rw [passesOver_iff hinfo, h.mem_unwrapped hinfo]
  exact ⟨field, hfield, hunwrapped, by rw [htype, FieldType.isDescribed], rfl⟩

/-- Where there are no candidates, the only way on is to pass over. -/
theorem follow_nil_cons (element : Element) (rest : Path) :
    Matching.follow schema.lookup policy ⟨[], false, []⟩ (element :: rest)
      = Matching.passesOver schema.lookup element >>= fun passed =>
          if passed then Matching.follow schema.lookup policy ⟨[], false, []⟩ rest
          else .ok false := by
  have hview : Matching.viewNode schema.lookup element [] = .ok none := by
    obtain ⟨name, owner⟩ := element
    rcases owner with - | ⟨type | type⟩ <;> rfl
  have hstep : Matching.step schema.lookup policy rest.isEmpty ⟨[], false, []⟩ element
      = Matching.passesOver schema.lookup element >>= fun passed =>
          .ok (if passed then .moved ⟨[], false, []⟩ else .decided false) := by
    rw [Matching.step, if_neg Bool.false_ne_true, hview]
    rfl
  rw [Matching.follow, hstep]
  rcases Matching.passesOver schema.lookup element with fault | ⟨_ | _⟩ <;> rfl

/-- **A blank filter includes a path if all its elements are passed over.** -/
theorem judge_blank [Glob.Engine] (hblank : Text.isAllBlank filter.toList = true) (path : Path) :
    schema.judge policy filter path = .ok true ↔ ∀ element ∈ path, schema.PassesOver element := by
  rw [judge_eq_ok_iff (Expression.parse_of_isAllBlank hblank), Expression.includes]
  induction path with
  | nil => exact iff_of_true rfl (List.forall_mem_nil _)
  | cons element rest ih =>
    rw [List.forall_mem_cons, ← ih, ← passesOver_eq_ok_true_iff, follow_nil_cons]
    rcases Matching.passesOver schema.lookup element with fault | ⟨_ | _⟩ <;>
      simp [bind, Except.bind]

/-! ## Stranded members -/

/-- A member of an object is stranded under a name: the name is unwrapped, but the value is not
spliced in.  So are those of the objects that are spliced in. -/
inductive Strands (schema : Schema) : String → Json.Members → String → Prop where
  | whole {type : String} {members : Json.Members} {info : TypeInfo} {field : FieldDecl}
    {value : Json} (hinfo : schema.find? type = some info) (hfield : field ∈ info.decl.visible)
    (hunwrapped : field.name ∈ info.unwrapped) (hvalue : members.lookup field.name = some value)
    (hwhole : field.spliced? value = none) : Strands schema type members field.name
  | spliced {type : String} {members : Json.Members} {info : TypeInfo} {field : FieldDecl}
    {value : Json} {inner : String} {below : Json.Members} {name : String}
    (hinfo : schema.find? type = some info) (hfield : field ∈ info.decl.visible)
    (hvalue : members.lookup field.name = some value)
    (hspliced : field.spliced? value = some (inner, below))
    (h : Strands schema inner below name) : Strands schema type members name

/-- The stranded members of an object at the root.  A map has no unwrapped fields. -/
def StrandsAt (schema : Schema) : Owner → Json.Members → String → Prop
  | .described type, members, name => schema.Strands type members name
  | .map _, _, _ => False

section Walk

variable [Glob.Engine] (hcomputed : schema.Computed)
  (hblank : Text.isAllBlank filter.toList = true) {type : String} {parent : Path}
  {members : Json.Members} {name : String}

include hblank in
/-- Below a path that is passed over, a member is included if it is passed over too. -/
theorem judge_blank_child (hparent : ∀ element ∈ parent, schema.PassesOver element)
    (name : String) (owner : Option Owner) :
    schema.judge policy filter (parent.child name owner) = .ok true
      ↔ schema.PassesOver ⟨name, owner⟩ := by
  rw [judge_blank hblank, Path.child, List.forall_mem_append, List.forall_mem_singleton]
  exact and_iff_right hparent

include hcomputed hblank in
/-- **What a blank filter writes of an object is what is stranded**, if all elements on the path of
the object are passed over.  The elements of a path to a spliced object are, so this is kept along
the way. -/
theorem writes_blank (hparent : ∀ element ∈ parent, schema.PassesOver element) :
    schema.Writes (schema.judge policy filter · = .ok true) type parent members name
      ↔ schema.Strands type members name := by
  constructor
  · intro h
    induction h with
    | declared hinfo hfield hvalue hwhole hincluded =>
      rw [judge_blank_child hblank hparent, passesOver_iff hinfo] at hincluded
      exact .whole hinfo hfield hincluded hvalue hwhole
    | undeclared hinfo _ hundeclared hincluded =>
      rw [judge_blank_child hblank hparent, passesOver_iff hinfo,
        hcomputed.mem_unwrapped hinfo] at hincluded
      obtain ⟨field, hfield, -, -, hname⟩ := hincluded
      exact absurd hname
        (TypeDecl.name_ne_of_undeclared hundeclared field (List.mem_filter.1 hfield).1)
    | spliced hinfo hfield hvalue hspliced _ ih =>
      have hpassed := hcomputed.passesOver_of_spliced hinfo hfield hspliced
      exact .spliced hinfo hfield hvalue hspliced
        (ih (List.forall_mem_append.2 ⟨hparent, List.forall_mem_singleton.2 hpassed⟩))
  · intro h
    induction h generalizing parent with
    | whole hinfo hfield hunwrapped hvalue hwhole =>
      refine .declared hinfo hfield hvalue hwhole ?_
      rwa [judge_blank_child hblank hparent, passesOver_iff hinfo]
    | spliced hinfo hfield hvalue hspliced _ ih =>
      have hpassed := hcomputed.passesOver_of_spliced hinfo hfield hspliced
      exact .spliced hinfo hfield hvalue hspliced
        (ih (List.forall_mem_append.2 ⟨hparent, List.forall_mem_singleton.2 hpassed⟩))

include hcomputed hblank in
/-- The names of an object that is written under a blank filter. -/
theorem isSome_writeObject_blank {root : Owner} {outs : Json.Members}
    (h : (schema.guide policy filter none).writeObject
      (Json.visitMembers (schema.guide policy filter none) members) (Json.rootType root) []
        = .ok outs) (name : String) :
    (outs.lookup name).isSome = true ↔ schema.StrandsAt root members name := by
  cases root with
  | described type =>
    have hwrites := @writes_blank schema policy filter _ hcomputed hblank type [] members name
      (List.forall_mem_nil _)
    rw [Guide.isSome_writeDescribed rfl (fun _ _ => find?_of_describe) members _ _ _ _ h]
    simpa [guide, StrandsAt] using hwrites
  | map type =>
    have hexcluded := @judge_blank_child schema policy filter _ hblank [] (List.forall_mem_nil _)
      name (some (.map Guide.mapType))
    rw [Guide.isSome_writeMap rfl h]
    simp [guide, hexcluded, PassesOver, StrandsAt]

end Walk

end Schema

/-- Members are empty if none of them is found. -/
theorem Json.eq_nil_iff_lookup {members : Json.Members} :
    members = [] ↔ ∀ name, ¬ (members.lookup name).isSome = true := by
  cases members with
  | nil => simp
  | cons first rest =>
    refine iff_of_false (List.cons_ne_nil _ _) fun hnone => hnone first.1 ?_
    rw [AssocList.lookup_cons_ite, if_pos rfl]
    rfl

/-- **A blank filter writes what is stranded.**  Without a cache of decisions and without a
placeholder, an object is written as an object, be the root a described type or a map.  It is empty,
unless a value that is not an object stands in an unwrapped field, of the root or of an object that
is spliced in; the names of such fields are written, and no others. -/
theorem Session.prune_blank [Glob.Engine] {settings : Settings}
    (hdisabled : settings.decisionCache.isDisabled = true) {types : List TypeDecl}
    {filter : String} (hblank : Text.isAllBlank filter.toList = true)
    {contextRoot : Option Owner} {root : Owner} {members : Json.Members} {out : Json}
    (h : ((ofSettings settings types).prune (.ofFilter filter contextRoot) none root
      (.object members)).1 = .ok out) :
    let schema := (ofSettings settings types).registry.schema
    ∃ outs, out = .object outs
      ∧ (outs = [] ↔ ∀ name, ¬ schema.StrandsAt root members name)
      ∧ ∀ name, ((outs.lookup name).isSome = true ↔ schema.StrandsAt root members name) := by
  rw [prune_of_isDisabled (truthful_ofSettings settings types) hdisabled
    (BoundFilter.truthful_ofFilter filter contextRoot)] at h
  obtain ⟨outs, rfl, hwritten⟩ := Schema.exists_of_write_object h
  have hcomputed := Schema.computed_registerAll settings.unlabelledInBase types
  have hnames := Schema.isSome_writeObject_blank hcomputed hblank hwritten
  refine ⟨outs, rfl, ?_, hnames⟩
  rw [Json.eq_nil_iff_lookup]
  exact forall_congr' fun name => not_congr (hnames name)

/-- An order with an audit whose members stand among its own, and an audit with a shift. -/
def strandedTypes : List TypeDecl :=
  [⟨"Order", [⟨"id", [], false, false, .untyped⟩,
      ⟨"audit", [], false, true, .described "Audit"⟩]⟩,
    ⟨"Audit", [⟨"by", [], false, false, .untyped⟩,
      ⟨"shift", [], false, true, .described "Shift"⟩]⟩,
    ⟨"Shift", [⟨"hour", [], false, false, .untyped⟩]⟩]

/-- An order pruned under a blank filter. -/
def prunedBlank (members : Json.Members) : Except Fault Json :=
  ((Session.ofSettings { Settings.default with decisionCache := .ofSize 0 } strandedTypes).prune
    (.ofFilter " " none) none (.described "Order") (.object members)).1

/-- The members of an order whose audit has no shift. -/
def unshiftedOrder : Json.Members :=
  [("audit", .object [("by", .string "x"), ("shift", .null)])]

/-- The shift of a spliced audit is null, so it is written. -/
theorem Session.prune_unshiftedOrder :
    prunedBlank unshiftedOrder = .ok (.object [("shift", .null)])
      ∧ ∃ outs, Json.object [("shift", .null)] = .object outs
        ∧ (outs = [] ↔ ∀ name, ¬ ((Schema.empty true).registerAll strandedTypes).StrandsAt
            (.described "Order") unshiftedOrder name)
        ∧ ∀ name, ((outs.lookup name).isSome = true
          ↔ ((Schema.empty true).registerAll strandedTypes).StrandsAt (.described "Order")
              unshiftedOrder name) := by
  have hpruned : prunedBlank unshiftedOrder = .ok (.object [("shift", .null)]) := by
    decide +kernel
  exact ⟨hpruned, Session.prune_blank rfl rfl hpruned⟩

/-- **A blank filter can write something:** an audit that is no object is no part of the order, but
it is passed over as if it were. -/
theorem Session.prune_strandedAudit_ne :
    ¬ ∀ out, prunedBlank [("audit", .string "x"), ("id", .number 1 0)] = .ok out →
        out = .object [] := by
  intro hempty
  have hpruned : prunedBlank [("audit", .string "x"), ("id", .number 1 0)]
      = .ok (.object [("audit", .string "x")]) := by
    decide +kernel
  cases hempty _ hpruned

end FieldFilter
