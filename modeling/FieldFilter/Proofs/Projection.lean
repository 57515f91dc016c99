import FieldFilter.Proofs.Memoryless
import FieldFilter.Proofs.Offers
import FieldFilter.Proofs.Prefix

/-!
# Pruning is a projection

Pruning walks over a value and its declared types at once and asks about every member it comes to.
This file says which locations are left without walking: those on which no member is hidden and
whose path is included.

* `Schema.pathTo`, `Schema.Shows` — the path of a location, and that no member on it is hidden.
* `Schema.judge_of_append` — what is included is reached through included members only.
* **`Schema.visit_isProjection`** — what is written at an included path is a projection, by
  induction on the value.  What is below an excluded member is excluded by the prefix property,
  although it is never asked about.
* **`Session.prune_isProjection`** — the same for a whole pass.
-/

namespace FieldFilter

namespace Schema

/-- The path of the last member of a location; items add nothing to it. -/
def pathTo (schema : Schema) : FieldType → Json.Location → Path
  | _, [] => []
  | type, .member name :: rest =>
    ⟨name, some type.owner⟩ :: pathTo schema (schema.memberType type name) rest
  | type, .item _ :: rest => pathTo schema type rest

/-- No member along a location is hidden. -/
def Shows (schema : Schema) : FieldType → Json.Location → Prop
  | _, [] => True
  | type, .member name :: rest =>
    schema.hides type name = false ∧ Shows schema (schema.memberType type name) rest
  | type, .item _ :: rest => Shows schema type rest

variable {schema : Schema} {policy : ViewPolicy} {filter : String} {expression : Expression}

/-! ## What the filter text decides -/

/-- What is included is reached through included members only. -/
theorem judge_of_append [Glob.Engine] (h : Expression.parse filter = .ok expression)
    {path rest : Path} (hincluded : schema.judge policy filter (path ++ rest) = .ok true) :
    schema.judge policy filter path = .ok true := by
  rw [judge_eq_ok_iff h] at hincluded ⊢
  exact Matching.follow_of_append hincluded

/-- The descriptions that a walk is told are those of the schema. -/
theorem find?_of_describe [Glob.Engine] {placeholder : Option Json} {type : String}
    {info : TypeInfo} (h : (schema.guide policy filter placeholder).describe type = .ok info) :
    schema.find? type = some info := by
  simp only [guide, describe] at h
  cases hfind : schema.find? type with
  | none =>
      rw [hfind] at h
      cases h
  | some found =>
      rw [hfind] at h
      cases h
      rfl

/-! ## The values that a walk writes -/

/-- The items of an array are written one by one. -/
theorem forall₂_writeItems {ε : Type} {guide : Guide (Except ε)} {type : FieldType}
    {parent : Path} {items outs : List Json}
    (h : Guide.writeItems type parent (Json.visitAll guide items) = .ok outs) :
    List.Forall₂ (fun item out => (Json.visit guide item).write type parent = .ok out) items
      outs := by
  induction items generalizing outs with
  | nil =>
      cases h
      exact .nil
  | cons item rest ih =>
      rw [Json.visitAll, Guide.writeItems] at h
      rcases hfirst : (Json.visit guide item).write type parent with fault | out
      · rw [hfirst] at h
        cases h
      · rw [hfirst] at h
        rcases hrest : Guide.writeItems type parent (Json.visitAll guide rest) with fault | others
        · rw [hrest] at h
          cases h
        · rw [hrest] at h
          cases h
          exact .cons hfirst (ih hrest)

/-- An array is written as an array of its items. -/
theorem exists_of_write_array {ε : Type} {guide : Guide (Except ε)} {type : FieldType}
    {parent : Path} {items : List Json} {out : Json}
    (h : (Json.visit guide (.array items)).write type parent = .ok out) :
    ∃ outs, out = .array outs
      ∧ Guide.writeItems type parent (Json.visitAll guide items) = .ok outs := by
  rw [Json.visit] at h
  dsimp only at h
  cases hitems : Guide.writeItems type parent (Json.visitAll guide items) with
  | error fault =>
      rw [hitems] at h
      cases h
  | ok outs =>
      rw [hitems] at h
      cases h
      exact ⟨outs, rfl, rfl⟩

/-- An object is written as an object of its members. -/
theorem exists_of_write_object {ε : Type} {guide : Guide (Except ε)} {type : FieldType}
    {parent : Path} {members : Json.Members} {out : Json}
    (h : (Json.visit guide (.object members)).write type parent = .ok out) :
    ∃ outs, out = .object outs
      ∧ guide.writeObject (Json.visitMembers guide members) type parent = .ok outs := by
  rw [Json.visit] at h
  dsimp only at h
  cases hmembers : guide.writeObject (Json.visitMembers guide members) type parent with
  | error fault =>
      rw [hmembers] at h
      cases h
  | ok outs =>
      rw [hmembers] at h
      cases h
      exact ⟨outs, rfl, rfl⟩

/-! ## The walk -/

/-- A location is left by a walk from a value of a declared type, at a path. -/
def Leaves [Glob.Engine] (schema : Schema) (policy : ViewPolicy) (filter : String)
    (type : FieldType) (parent : Path) (location : Json.Location) : Prop :=
  schema.Shows type location
    ∧ schema.judge policy filter (parent ++ schema.pathTo type location) = .ok true

/-- The root of what is written at an included path is left. -/
theorem leaves_nil [Glob.Engine] {type : FieldType} {parent : Path}
    (h : schema.judge policy filter parent = .ok true) :
    schema.Leaves policy filter type parent [] := by
  refine ⟨True.intro, ?_⟩
  rw [pathTo, List.append_nil]
  exact h

/-- Below a member that is shown, a location is left as it is from there. -/
theorem leaves_member [Glob.Engine] {type : FieldType} {parent : Path} {name : String}
    (hshown : schema.hides type name = false) (rest : Json.Location) :
    schema.Leaves policy filter type parent (.member name :: rest)
      ↔ schema.Leaves policy filter (schema.memberType type name)
          (parent.child name (some type.owner)) rest := by
  rw [Leaves, Leaves, Shows, pathTo, Path.child, List.append_assoc]
  exact and_congr_left' (and_iff_right hshown)

/-- Items leave no trace in a location. -/
theorem leaves_item [Glob.Engine] {type : FieldType} {parent : Path} (index : Nat)
    (rest : Json.Location) : schema.Leaves policy filter type parent (.item index :: rest)
      ↔ schema.Leaves policy filter type parent rest := by
  rw [Leaves, Leaves, Shows, pathTo]

/-- **What is written at an included path is a projection.** -/
theorem visit_isProjection [Glob.Engine] (hplain : ∀ info ∈ schema.types, info.decl.IsPlain)
    (hparse : Expression.parse filter = .ok expression) (value : Json) :
    ∀ {type : FieldType} {parent : Path} {out : Json}, value.Ordered →
      schema.judge policy filter parent = .ok true →
      (value.visit (schema.guide policy filter none)).write type parent = .ok out →
      out.IsProjection value (schema.Leaves policy filter type parent) := by
  induction value using Json.induct with
  | array items ih =>
      intro type parent out hordered hroot h
      obtain ⟨outs, rfl, hitems⟩ := exists_of_write_array h
      refine Json.isProjection_array (leaves_nil hroot) leaves_item ?_
      have hwritten := (List.forall₂_and_left items outs).2
        ⟨fun _ hmem => hmem, forall₂_writeItems hitems⟩
      refine hwritten.imp ?_
      rintro item out ⟨hmem, hwrite⟩
      exact ih item hmem (hordered.item hmem) hroot hwrite
  | object members ih =>
      intro type parent out hordered hroot h
      obtain ⟨outs, rfl, hmembers⟩ := exists_of_write_object h
      have hnodup : ((Json.visitMembers (schema.guide policy filter none) members).map
          (·.1)).Nodup := by
        rw [Json.map_fst_visitMembers]
        exact hordered.members.nodup
      obtain ⟨offers, hoffers, hall⟩ :=
        Guide.writeObject_offers (fun _ _ => find?_of_describe) hplain hnodup hmembers
      refine Json.isProjection_object (leaves_nil hroot)
        (Guide.ordered_writeAll rfl hall List.Pairwise.nil) ?_
      intro name
      have hunoffered : (∀ declared member, (name, declared, member) ∉ offers) →
          outs.lookup name = none := by
        intro hnone
        refine Guide.lookup_writeAll rfl hall ?_
        intro hmem
        obtain ⟨⟨_, declared, member⟩, hoffer, rfl⟩ := List.mem_map.1 hmem
        exact hnone declared member hoffer
      cases hvalue : members.lookup name with
      | none =>
          rw [hunoffered]
          · exact .absent
          · intro declared member hoffer
            have hlookup := ((hoffers.mem_iff _ _ _).1 hoffer).1
            rw [Json.lookup_visitMembers, hvalue] at hlookup
            cases hlookup
      | some value =>
          cases hshown : schema.hides type name with
          | true =>
              rw [hunoffered]
              · refine .dropped ?_
                rintro rest ⟨⟨hshown', -⟩, -⟩
                exact Bool.false_ne_true (hshown'.symm.trans hshown)
              · intro declared member hoffer
                have hshown' := ((hoffers.mem_iff _ _ _).1 hoffer).2.1
                exact Bool.false_ne_true (hshown'.symm.trans hshown)
          | false =>
              have hoffer : (name, schema.memberType type name,
                  Json.visit (schema.guide policy filter none) value) ∈ offers := by
                refine (hoffers.mem_iff _ _ _).2 ⟨?_, hshown, rfl⟩
                rw [Json.lookup_visitMembers, hvalue]
                rfl
              have hwrote := Guide.writeAll_wrote rfl hoffers.nodup (fun _ _ => rfl) hall hoffer
              generalize outs.lookup name = slot at hwrote ⊢
              cases hwrote with
              | excluded hpath =>
                  -- nothing below is asked about, so the prefix property has to exclude it
                  refine .dropped ?_
                  intro rest hleaves
                  have habove := judge_of_append hparse ((leaves_member hshown rest).1 hleaves).2
                  have hclash : (Except.ok false : Except Fault Bool) = .ok true :=
                    hpath.symm.trans habove
                  cases hclash
              | included hpath hpruned =>
                  refine .kept (Json.IsProjection.congr (leaves_member hshown) ?_)
                  exact ih (name, value) (AssocList.mem_of_lookup hvalue) (hordered.member hvalue)
                    hpath hpruned
  | _ =>
      intro type parent out _ hroot h
      cases h
      exact Json.isProjection_scalar rfl (leaves_nil hroot)

end Schema

/-- **Pruning a value is a projection.**  Without a cache of decisions and without a placeholder, a
location is left if no member along it is hidden and the path of its last member is included by
the expression of the filter. -/
theorem Session.prune_isProjection [Glob.Engine] {settings : Settings}
    (hdisabled : settings.decisionCache.isDisabled = true) {types : List TypeDecl}
    (hplain : ∀ info ∈ (ofSettings settings types).registry.schema.types, info.decl.IsPlain)
    {filter : String} {expression : Expression} (hparse : Expression.parse filter = .ok expression)
    {contextRoot : Option Owner} {root : Owner} {value out : Json} (hordered : value.Ordered)
    (h : ((ofSettings settings types).prune (.ofFilter filter contextRoot) none root value).1
      = .ok out) :
    let schema := (ofSettings settings types).registry.schema
    out.IsProjection value fun location =>
      schema.Shows (Json.rootType root) location
        ∧ expression.includes schema.lookup settings.policy
            (schema.pathTo (Json.rootType root) location) = .ok true := by
  intro schema
  rw [prune_of_isDisabled (truthful_ofSettings settings types) hdisabled
    (BoundFilter.truthful_ofFilter filter contextRoot)] at h
  refine Json.IsProjection.congr ?_ (Schema.visit_isProjection hplain hparse value hordered rfl h)
  intro location
  exact and_congr_right' (Schema.judge_eq_ok_iff hparse _ true).symm

/-- An order has lines, and a note that is hidden. -/
def orderTypes : List TypeDecl :=
  [⟨"Order", [⟨"id", [], false, false, .untyped⟩,
      ⟨"lines", [], false, false, .described "Line"⟩, ⟨"note", [], true, false, .untyped⟩]⟩,
    ⟨"Line", [⟨"count", [], false, false, .untyped⟩, ⟨"sku", [], false, false, .untyped⟩]⟩]

/-- An order of one line. -/
def order : Json :=
  .object [("id", .number 7 0),
    ("lines", .array [.object [("count", .number 2 0), ("sku", .string "a")]]),
    ("note", .string "n")]

/-- The lines of an order without their counts, and its note. -/
def linesAndNote : Expression :=
  ⟨"lines\x7bsku\x7d,note",
    [⟨.exact "lines", false, true, false, [.leaf (.exact "sku")]⟩, .leaf (.exact "note")]⟩

/-- Of the order only its line is left, and of that only what is asked for: the note is hidden. -/
theorem isProjection_order :
    (Json.object [("lines", .array [.object [("sku", .string "a")]])]).IsProjection order
      fun location =>
        ((Schema.empty true).registerAll orderTypes).Shows (.described "Order") location
          ∧ linesAndNote.includes ((Schema.empty true).registerAll orderTypes).lookup
              ⟨false, true⟩ (((Schema.empty true).registerAll orderTypes).pathTo
                (.described "Order") location) = .ok true := by
  have hline : (Json.object [("count", .number 2 0), ("sku", .string "a")]).Ordered := by
    refine Json.ordered_object (by decide +kernel) ?_
    simp only [List.forall_mem_cons]
    exact ⟨Json.ordered_of_isScalar rfl, Json.ordered_of_isScalar rfl, nofun⟩
  have hordered : order.Ordered := by
    refine Json.ordered_object (by decide +kernel) ?_
    simp only [List.forall_mem_cons]
    exact ⟨Json.ordered_of_isScalar rfl, Json.ordered_array (List.forall_mem_singleton.2 hline),
      Json.ordered_of_isScalar rfl, nofun⟩
  have hparse : Expression.parse linesAndNote.source = .ok linesAndNote := by decide +kernel
  have hpruned : ((Session.ofSettings { Settings.default with decisionCache := .ofSize 0 }
      orderTypes).prune (.ofFilter linesAndNote.source none) none (.described "Order") order).1
        = .ok (Json.object [("lines", .array [.object [("sku", .string "a")]])]) := by
    decide +kernel
  exact Session.prune_isProjection rfl (by decide +kernel) hparse hordered hpruned

end FieldFilter
