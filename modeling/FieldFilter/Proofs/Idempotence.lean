import FieldFilter.Proofs.Concealed
import FieldFilter.Proofs.Projection

/-!
# Pruning twice is pruning once

Where no field is unwrapped, a member that is written stands where it stood, so it has the path and
the declared type that it had.  What is left of a value has therefore nothing more to lose: all its
objects are of known types, no member of it is hidden, and every member is included.  Such a value
is *settled*, and a settled value is written as it is.

* `Schema.Settled` — values of which a walk takes nothing away.
* **`Schema.settled_of_write`** — what a walk writes is settled.
* **`Schema.write_of_settled`** — a walk writes a settled value as it is.
* **`Session.prune_idempotent`** — so a second pass changes nothing.
-/

namespace FieldFilter

namespace Schema

/-- A walk takes nothing away from a value of a declared type at a path: its objects are of types
that are known, their members are in order, and every member is shown and included. -/
inductive Settled (schema : Schema) (Includes : Path → Prop) : FieldType → Path → Json → Prop where
  | scalar {type : FieldType} {path : Path} {value : Json} (h : value.isScalar = true) :
    Settled schema Includes type path value
  | array {type : FieldType} {path : Path} {items : List Json}
    (h : ∀ item ∈ items, Settled schema Includes type path item) :
    Settled schema Includes type path (.array items)
  | object {type : FieldType} {path : Path} {members : Json.Members}
    (hknown : ∀ name, type = .described name → (schema.find? name).isSome = true)
    (hordered : Json.Members.Ordered members)
    (hshown : ∀ name value, members.lookup name = some value → schema.hides type name = false)
    (hincluded : ∀ name value, members.lookup name = some value →
      Includes (path.child name (some type.owner)))
    (h : ∀ name value, members.lookup name = some value → Settled schema Includes
      (schema.memberType type name) (path.child name (some type.owner)) value) :
    Settled schema Includes type path (.object members)

end Schema

/-! ## Members that are all included -/

namespace Guide

variable {ε : Type} {guide : Guide (Except ε)} {owner : Owner} {parent : Path}

/-- Members that are included and can be pruned are written. -/
theorem exists_writeAll {offers : List (String × FieldType × Visit (Except ε))}
    (h : ∀ name type member, (name, type, member) ∈ offers →
      guide.includes (parent.child name (some owner)) = .ok true
        ∧ ∃ value, member.write type (parent.child name (some owner)) = .ok value)
    (out : Json.Members) : ∃ after, guide.writeAll owner parent offers out = .ok after := by
  induction offers generalizing out with
  | nil => exact ⟨out, rfl⟩
  | cons offer rest ih =>
    obtain ⟨name, type, member⟩ := offer
    obtain ⟨hincluded, value, hvalue⟩ := h name type member List.mem_cons_self
    obtain ⟨after, hafter⟩ := ih (fun other type member hmem =>
      h other type member (List.mem_cons_of_mem _ hmem)) (Json.insert name value out)
    refine ⟨after, ?_⟩
    rw [writeAll, writeField, hincluded, hvalue]
    exact hafter

/-- Items that are written as they are make an array that is. -/
theorem writeItems_self {type : FieldType} {path : Path} {items : List Json}
    (h : ∀ item ∈ items, (item.visit guide).write type path = .ok item) :
    writeItems type path (Json.visitAll guide items) = .ok items := by
  induction items with
  | nil => rfl
  | cons item rest ih =>
    obtain ⟨hitem, hrest⟩ := List.forall_mem_cons.1 h
    rw [Json.visitAll, writeItems, hitem, ih hrest]
    rfl

end Guide

namespace Schema

variable [Glob.Engine] {schema : Schema} {policy : ViewPolicy} {filter : String}

/-- The description of a type that is known is what a walk is told. -/
theorem exists_describe {placeholder : Option Json} {type : String}
    (h : (schema.find? type).isSome = true) :
    ∃ info, (schema.guide policy filter placeholder).describe type = .ok info := by
  obtain ⟨info, hinfo⟩ := Option.isSome_iff_exists.1 h
  refine ⟨info, ?_⟩
  simp only [guide, describe, hinfo]
  rfl

/-- What is found among members that were written was offered, included and pruned. -/
theorem Offers.exists_of_lookup {type : FieldType} {parent : Path} {members outs : Json.Members}
    {offers : List (String × FieldType × Visit (Except Fault))}
    (hoffers : schema.Offers type
      (Json.visitMembers (schema.guide policy filter none) members) offers)
    (hall : (schema.guide policy filter none).writeAll type.owner parent offers [] = .ok outs)
    {name : String} {out : Json} (hout : outs.lookup name = some out) :
    ∃ value, members.lookup name = some value ∧ schema.hides type name = false
      ∧ schema.judge policy filter (parent.child name (some type.owner)) = .ok true
      ∧ (value.visit (schema.guide policy filter none)).write (schema.memberType type name)
          (parent.child name (some type.owner)) = .ok out := by
  have hoffered : name ∈ offers.map (·.1) := by
    by_contra hnone
    rw [Guide.lookup_writeAll rfl hall hnone] at hout
    cases hout
  obtain ⟨⟨_, declared, member⟩, hoffer, rfl⟩ := List.mem_map.1 hoffered
  obtain ⟨hmember, hshown, rfl⟩ := (hoffers.mem_iff _ _ _).1 hoffer
  rw [Json.lookup_visitMembers, Option.map_eq_some_iff] at hmember
  obtain ⟨value, hvalue, rfl⟩ := hmember
  have hwrote := Guide.writeAll_wrote rfl hoffers.nodup (fun _ _ => rfl) hall hoffer
  rw [hout] at hwrote
  cases hwrote with
  | included hpath hpruned => exact ⟨value, hvalue, hshown, hpath, hpruned⟩

/-- **What a walk writes is settled**, by induction on the value. -/
theorem settled_of_write (hplain : ∀ info ∈ schema.types, info.decl.IsPlain) (value : Json) :
    ∀ {type : FieldType} {path : Path} {out : Json}, value.Ordered →
      (value.visit (schema.guide policy filter none)).write type path = .ok out →
      schema.Settled (schema.judge policy filter · = .ok true) type path out := by
  induction value using Json.induct with
  | array items ih =>
    intro type path out hordered h
    obtain ⟨outs, rfl, hitems⟩ := exists_of_write_array h
    have hwritten := (List.forall₂_and_left items outs).2
      ⟨fun _ hmem => hmem, forall₂_writeItems hitems⟩
    refine .array fun out hout => ?_
    obtain ⟨index, hindex, rfl⟩ := List.getElem_of_mem hout
    obtain ⟨hmem, hwrite⟩ := hwritten.get (hwritten.length_eq.symm ▸ hindex) hindex
    exact ih _ hmem (hordered.item hmem) hwrite
  | object members ih =>
    intro type path out hordered h
    obtain ⟨outs, rfl, hmembers⟩ := exists_of_write_object h
    have hnodup : ((Json.visitMembers (schema.guide policy filter none) members).map
        (·.1)).Nodup := by
      rw [Json.map_fst_visitMembers]
      exact hordered.members.nodup
    obtain ⟨offers, hoffers, hall⟩ :=
      Guide.writeObject_offers (fun _ _ => find?_of_describe) hplain hnodup hmembers
    have hfound := fun name out =>
      @hoffers.exists_of_lookup _ schema policy filter type path members outs offers hall name out
    refine .object ?_ (Guide.ordered_writeAll rfl hall .nil) ?_ ?_ ?_
    · intro name htype
      obtain ⟨info, hinfo⟩ := Guide.exists_describe_of_writeObject hmembers htype
      rw [find?_of_describe hinfo]
      rfl
    · intro name out hout
      obtain ⟨_, -, hshown, -⟩ := hfound name out hout
      exact hshown
    · intro name out hout
      obtain ⟨_, -, -, hpath, -⟩ := hfound name out hout
      exact hpath
    · intro name out hout
      obtain ⟨value, hvalue, -, -, hwrite⟩ := hfound name out hout
      exact ih (name, value) (AssocList.mem_of_lookup hvalue) (hordered.member hvalue) hwrite
  | _ =>
    intro type path out _ h
    cases h
    exact .scalar rfl

/-- Members that are shown, included and written as they are make an object that is. -/
theorem Offers.writeAll_self {type : FieldType} {parent : Path} {members : Json.Members}
    {offers : List (String × FieldType × Visit (Except Fault))}
    (hoffers : schema.Offers type
      (Json.visitMembers (schema.guide policy filter none) members) offers)
    (hordered : Json.Members.Ordered members)
    (hshown : ∀ name value, members.lookup name = some value → schema.hides type name = false)
    (hincluded : ∀ name value, members.lookup name = some value →
      schema.judge policy filter (parent.child name (some type.owner)) = .ok true)
    (hself : ∀ name value, members.lookup name = some value →
      (value.visit (schema.guide policy filter none)).write (schema.memberType type name)
        (parent.child name (some type.owner)) = .ok value) :
    (schema.guide policy filter none).writeAll type.owner parent offers [] = .ok members := by
  obtain ⟨outs, hall⟩ : ∃ outs,
      (schema.guide policy filter none).writeAll type.owner parent offers [] = .ok outs := by
    refine Guide.exists_writeAll (fun name declared member hoffer => ?_) []
    obtain ⟨hmember, -, rfl⟩ := (hoffers.mem_iff _ _ _).1 hoffer
    rw [Json.lookup_visitMembers, Option.map_eq_some_iff] at hmember
    obtain ⟨value, hvalue, rfl⟩ := hmember
    exact ⟨hincluded name value hvalue, value, hself name value hvalue⟩
  have hlookup : ∀ name, outs.lookup name = members.lookup name := by
    intro name
    cases hout : outs.lookup name with
    | some out =>
      obtain ⟨value, hvalue, -, -, hpruned⟩ := hoffers.exists_of_lookup hall hout
      rw [hself name value hvalue] at hpruned
      rw [hvalue, Except.ok.inj hpruned]
    | none =>
      cases hvalue : members.lookup name with
      | none => rfl
      | some value =>
        have hoffer : (name, schema.memberType type name,
            Json.visit (schema.guide policy filter none) value) ∈ offers := by
          refine (hoffers.mem_iff _ _ _).2 ⟨?_, hshown name value hvalue, rfl⟩
          rw [Json.lookup_visitMembers, hvalue]
          rfl
        have hwrote := Guide.writeAll_wrote rfl hoffers.nodup (fun _ _ => rfl) hall hoffer
        rw [hout] at hwrote
        cases hwrote with
        | excluded hpath =>
          have hclash := hpath.symm.trans (hincluded name value hvalue)
          cases hclash
  rw [hall, (Guide.ordered_writeAll rfl hall .nil).eq_of_lookup hordered hlookup]

/-- **A walk writes a settled value as it is.** -/
theorem write_of_settled (hplain : ∀ info ∈ schema.types, info.decl.IsPlain) {type : FieldType}
    {path : Path} {value : Json}
    (h : schema.Settled (schema.judge policy filter · = .ok true) type path value) :
    (value.visit (schema.guide policy filter none)).write type path = .ok value := by
  induction h with
  | @scalar type path value hscalar =>
    cases value with
    | array => cases hscalar
    | object => cases hscalar
    | _ => rfl
  | array _ ih =>
    rw [Json.visit]
    dsimp only
    rw [Guide.writeItems_self ih]
    rfl
  | @object type path members hknown hordered hshown hincluded _ ih =>
    have hnodup : ((Json.visitMembers (schema.guide policy filter none) members).map
        (·.1)).Nodup := by
      rw [Json.map_fst_visitMembers]
      exact hordered.nodup
    obtain ⟨offers, hoffers, hwrite⟩ := Guide.writeObject_eq (fun _ _ => find?_of_describe) hplain
      hnodup path fun name htype => exists_describe (hknown name htype)
    rw [Json.visit]
    dsimp only
    rw [hwrite, hoffers.writeAll_self hordered hshown hincluded ih]
    rfl

end Schema

/-- **Pruning is idempotent** where no field is unwrapped and no type has two fields of one name.
Without a cache of decisions and without a placeholder, what is left of a value is pruned to itself,
by a new session and by the session that the first pass leaves behind. -/
theorem Session.prune_idempotent [Glob.Engine] {settings : Settings}
    (hdisabled : settings.decisionCache.isDisabled = true) {types : List TypeDecl}
    (hplain : ∀ info ∈ (ofSettings settings types).registry.schema.types, info.decl.IsPlain)
    {filter : String} {contextRoot : Option Owner} {root : Owner} {value out : Json}
    (hordered : value.Ordered)
    (h : ((ofSettings settings types).prune (.ofFilter filter contextRoot) none root value).1
      = .ok out) :
    ((ofSettings settings types).prune (.ofFilter filter contextRoot) none root out).1 = .ok out
      ∧ let (_, bound, later) :=
          (ofSettings settings types).prune (.ofFilter filter contextRoot) none root value
        (later.prune bound none root out).1 = .ok out := by
  have hsession := truthful_ofSettings settings types
  have hbound := BoundFilter.truthful_ofFilter filter contextRoot
  have hlater := forgetful_prune hsession hdisabled hbound none root value
  rw [prune_of_isDisabled hsession hdisabled hbound] at h
  have hagain := Schema.write_of_settled hplain (Schema.settled_of_write hplain value hordered h)
  constructor
  · rw [prune_of_isDisabled hsession hdisabled hbound]
    exact hagain
  · dsimp only
    rw [prune_of_isDisabled hlater.session hlater.decisions hlater.bound]
    exact hagain

/-- A basket has items by their names, and a voucher that is hidden. -/
def basketTypes : List TypeDecl :=
  [⟨"Basket", [⟨"items", [], false, false, .map (some "Item")⟩,
      ⟨"voucher", [], true, false, .untyped⟩]⟩,
    ⟨"Item", [⟨"count", [], false, false, .untyped⟩, ⟨"price", [], false, false, .untyped⟩]⟩]

/-- A basket of one item, with a voucher and with a note that nothing is declared about. -/
def basket : Json :=
  .object [("items", .object [("tea", .object [("count", .number 2 0), ("price", .number 350 2)])]),
    ("note", .string "n"), ("voucher", .string "v")]

/-- What is left of the basket without the price. -/
def pricelessBasket : Json :=
  .object [("items", .object [("tea", .object [("count", .number 2 0)])]), ("note", .string "n")]

/-- The basket without the price, pruned once more, is the same. -/
theorem Session.prune_pricelessBasket :
    let session := ofSettings { Settings.default with decisionCache := .ofSize 0 } basketTypes
    let bound := BoundFilter.ofFilter "items\x7btea\x7b-price\x7d\x7d,note,voucher" none
    (∀ info ∈ session.registry.schema.types, info.decl.IsPlain)
      ∧ (session.prune bound none (.described "Basket") basket).1 = .ok pricelessBasket
      ∧ (session.prune bound none (.described "Basket") pricelessBasket).1 = .ok pricelessBasket := by
  intro session bound
  have hplain : ∀ info ∈ session.registry.schema.types, info.decl.IsPlain := by decide +kernel
  have hitem : (Json.object [("count", .number 2 0), ("price", .number 350 2)]).Ordered := by
    refine Json.ordered_object (by decide +kernel) ?_
    simp only [List.forall_mem_cons]
    exact ⟨Json.ordered_of_isScalar rfl, Json.ordered_of_isScalar rfl, nofun⟩
  have hordered : basket.Ordered := by
    refine Json.ordered_object (by decide +kernel) ?_
    simp only [List.forall_mem_cons]
    refine ⟨Json.ordered_object (by decide +kernel) (List.forall_mem_singleton.2 hitem),
      Json.ordered_of_isScalar rfl, Json.ordered_of_isScalar rfl, nofun⟩
  have hpruned : (session.prune bound none (.described "Basket") basket).1
      = .ok pricelessBasket := by decide +kernel
  exact ⟨hplain, hpruned, (Session.prune_idempotent rfl hplain hordered hpruned).1⟩

end FieldFilter
