import FieldFilter.Proofs.Contributions
import FieldFilter.Proofs.Projection

/-!
# Placeholders

A walk can leave out what is excluded or put a placeholder in its place.  Apart from the
placeholders both give the same, except where several members come to an object under one name.
There the last one decides: if it is excluded, its placeholder takes the place of an earlier member
that is included and that stays if nothing is put in its place.  Such a location is *masked*.

* `Json.Fills` — a value with placeholders added to another one, and put over its masked locations.
* `Schema.Masks` — where a placeholder takes the place of something.
* `Schema.visit_fills` — two walks over one value, by induction along what comes to its objects.
* **`Session.prune_placeholder`** — the same for two passes.
* `Session.prune_masked_ne` — an included value that a placeholder takes the place of.
* **`Session.prune_placeholder_of_plain`** — nothing is masked where no field is unwrapped.
-/

namespace FieldFilter

namespace Json

/-! ## Values with placeholders -/

/-- A location is neither masked nor below a masked one. -/
def Clear (Masked : Location → Prop) (location : Location) : Prop :=
  ∀ above, above <+: location → ¬ Masked above

/-- A value is another one with placeholders.  It has all that is at the clear locations of the
other; what objects there have besides is the placeholder; and so is what stands at the masked
locations, where the other has something else. -/
structure Fills (full out placeholder : Json) (Masked : Location → Prop) : Prop where
  alike : ∀ location kept, Clear Masked location → out.at? location = some kept →
    ∃ value, full.at? location = some value ∧ kept.Alike value
  added : ∀ location members members' name value, Clear Masked location →
    out.at? location = some (.object members) → full.at? location = some (.object members') →
      members.lookup name = none → members'.lookup name = some value → value = placeholder
  masked : ∀ location, Masked location →
    (out.at? location).isSome = true ∧ full.at? location = some placeholder

/-- A location is clear if its first step is and the rest of it is clear from there. -/
theorem clear_cons {Masked : Location → Prop} {step : Step} {rest : Location} :
    Clear Masked (step :: rest) ↔ ¬ Masked [] ∧ Clear (fun rest => Masked (step :: rest)) rest := by
  constructor
  · intro h
    refine ⟨h [] List.nil_prefix, ?_⟩
    intro above habove
    exact h (step :: above) ((List.prefix_cons_inj step).2 habove)
  · rintro ⟨hroot, hrest⟩ above habove
    cases above with
    | nil => exact hroot
    | cons first above =>
      obtain ⟨rfl, hmore⟩ := List.cons_prefix_cons.1 habove
      exact hrest above hmore

/-- A location is followed step by step. -/
theorem at?_cons (value : Json) (step : Step) (rest : Location) :
    value.at? (step :: rest) = (value.at? [step]).bind fun value => value.at? rest := by
  cases value <;> cases step <;> simp [at?]

/-- A value has placeholders at the same locations in other words. -/
theorem Fills.congr {placeholder out full : Json} {Masked Masked' : Location → Prop}
    (h : Fills full out placeholder Masked')
    (hsame : ∀ location, Masked location ↔ Masked' location) :
    Fills full out placeholder Masked := by
  obtain rfl : Masked = Masked' := funext fun location => propext (hsame location)
  exact h

/-- What becomes of a part of a value: it is nowhere, or added as a placeholder, or a placeholder
takes its place, or it has placeholders itself. -/
inductive FillsPart (placeholder : Json) (Masked : Location → Prop) :
    Option Json → Option Json → Prop where
  | absent (h : ∀ rest, ¬ Masked rest) : FillsPart placeholder Masked none none
  | added (h : ∀ rest, ¬ Masked rest) : FillsPart placeholder Masked none (some placeholder)
  | masked {out : Json} (h : ∀ rest, Masked rest ↔ rest = []) :
    FillsPart placeholder Masked (some out) (some placeholder)
  | filled {out full : Json} (hroot : ¬ Masked []) (h : Fills full out placeholder Masked) :
    FillsPart placeholder Masked (some out) (some full)

/-- A part that is not masked has placeholders itself. -/
theorem FillsPart.exists_filled {placeholder out : Json} {Masked : Location → Prop}
    {slot : Option Json} (h : FillsPart placeholder Masked (some out) slot)
    (hclear : ¬ Masked []) :
    ∃ full, slot = some full ∧ Fills full out placeholder Masked := by
  cases h with
  | masked hmasked => exact absurd ((hmasked []).2 rfl) hclear
  | filled _ hfills => exact ⟨_, rfl, hfills⟩

/-- A value with a root of the right kind has placeholders if its parts have. -/
theorem fills_of_parts {placeholder out full : Json} {Masked : Location → Prop}
    (hroot : ¬ Masked []) (halike : out.Alike full)
    (h : ∀ step, FillsPart placeholder (fun rest => Masked (step :: rest)) (out.at? [step])
      (full.at? [step])) : Fills full out placeholder Masked where
  alike := by
    intro location kept hclear hkept
    cases location with
    | nil =>
      obtain rfl := Option.some.inj ((at?_nil out).symm.trans hkept)
      exact ⟨full, at?_nil full, halike⟩
    | cons step rest =>
      obtain ⟨-, hrest⟩ := clear_cons.1 hclear
      have hpart := h step
      rw [at?_cons] at hkept ⊢
      obtain ⟨out', hout', hkept⟩ := Option.bind_eq_some_iff.1 hkept
      rw [hout'] at hpart
      obtain ⟨full', hfull', hfills⟩ := hpart.exists_filled (hrest [] List.nil_prefix)
      rw [hfull']
      exact hfills.alike rest kept hrest hkept
  added := by
    intro location members members' name value hclear hout hfull hnone hsome
    cases location with
    | nil =>
      obtain rfl := Option.some.inj ((at?_nil out).symm.trans hout)
      obtain rfl := Option.some.inj ((at?_nil full).symm.trans hfull)
      have hpart := h (.member name)
      rw [at?_member, at?_member, hnone, hsome] at hpart
      simp only [Option.bind_none, Option.bind_some, at?_nil] at hpart
      cases hpart with
      | added => rfl
    | cons step rest =>
      obtain ⟨-, hrest⟩ := clear_cons.1 hclear
      have hpart := h step
      rw [at?_cons] at hout hfull
      obtain ⟨out', hout', hout⟩ := Option.bind_eq_some_iff.1 hout
      rw [hout'] at hpart
      obtain ⟨full', hfull', hfills⟩ := hpart.exists_filled (hrest [] List.nil_prefix)
      rw [hfull'] at hfull
      exact hfills.added rest members members' name value hrest hout hfull hnone hsome
  masked := by
    intro location hmasked
    cases location with
    | nil => exact absurd hmasked hroot
    | cons step rest =>
      have hpart := h step
      rw [at?_cons out, at?_cons full]
      generalize out.at? [step] = slot at hpart ⊢
      generalize full.at? [step] = slot' at hpart ⊢
      cases hpart with
      | absent hnone => exact absurd hmasked (hnone rest)
      | added hnone => exact absurd hmasked (hnone rest)
      | masked honly =>
        obtain rfl := (honly rest).1 hmasked
        simp
      | filled _ hfills => exact hfills.masked rest hmasked

end Json

/-! ## Where a placeholder takes the place of something -/

namespace Schema

open Json

/-- A location of a value is masked: it is the name of a member of which the last one that comes to
the object is excluded, and an earlier one is included. -/
inductive Masks (schema : Schema) (Included : Path → Prop) :
    FieldType → Path → Json → Location → Prop where
  | here {type : FieldType} {parent : Path} {members : Members} {name : String}
    {last earlier : Contribution}
    (hlast : Contribution.last? name (schema.contributionsAt type parent members) = some last)
    (hexcluded : ¬ Included last.path)
    (hearlier : earlier ∈ schema.contributionsAt type parent members)
    (hname : earlier.name = name) (hincluded : Included earlier.path) :
    Masks schema Included type parent (.object members) [.member name]
  | member {type : FieldType} {parent : Path} {members : Members} {name : String}
    {last : Contribution} {rest : Location}
    (hlast : Contribution.last? name (schema.contributionsAt type parent members) = some last)
    (hincluded : Included last.path)
    (h : Masks schema Included last.type last.path last.value rest) :
    Masks schema Included type parent (.object members) (.member name :: rest)
  | item {type : FieldType} {parent : Path} {items : List Json} {index : Nat} {item : Json}
    {rest : Location} (hitem : items[index]? = some item)
    (h : Masks schema Included type parent item rest) :
    Masks schema Included type parent (.array items) (.item index :: rest)

namespace Masks

variable {schema : Schema} {Included : Path → Prop} {type : FieldType} {parent : Path}
  {members : Members} {name : String} {last : Contribution} {rest : Location}

theorem not_nil {value : Json} : ¬ schema.Masks Included type parent value [] := nofun

/-- Where nothing comes to an object under a name, nothing is masked there. -/
theorem not_member
    (hlast : Contribution.last? name (schema.contributionsAt type parent members) = none) :
    ¬ schema.Masks Included type parent (.object members) (.member name :: rest) := by
  intro h
  cases h with
  | here hlast' => simp [hlast] at hlast'
  | member hlast' => simp [hlast] at hlast'

/-- Below a member that is included, what is masked is what is masked in its value. -/
theorem member_iff_of_included
    (hlast : Contribution.last? name (schema.contributionsAt type parent members) = some last)
    (hincluded : Included last.path) :
    schema.Masks Included type parent (.object members) (.member name :: rest)
      ↔ schema.Masks Included last.type last.path last.value rest := by
  constructor
  · intro h
    cases h with
    | here hlast' hexcluded =>
      obtain rfl := Option.some.inj (hlast.symm.trans hlast')
      exact absurd hincluded hexcluded
    | member hlast' _ h =>
      obtain rfl := Option.some.inj (hlast.symm.trans hlast')
      exact h
  · exact .member hlast hincluded

/-- A member that is excluded is masked if one of its name is included. -/
theorem member_iff_of_excluded
    (hlast : Contribution.last? name (schema.contributionsAt type parent members) = some last)
    (hexcluded : ¬ Included last.path) :
    schema.Masks Included type parent (.object members) (.member name :: rest)
      ↔ rest = [] ∧ ∃ earlier ∈ schema.contributionsAt type parent members,
          earlier.name = name ∧ Included earlier.path := by
  constructor
  · intro h
    cases h with
    | here _ _ hearlier hname hincluded => exact ⟨rfl, _, hearlier, hname, hincluded⟩
    | member hlast' hincluded =>
      obtain rfl := Option.some.inj (hlast.symm.trans hlast')
      exact absurd hincluded hexcluded
  · rintro ⟨rfl, earlier, hearlier, hname, hincluded⟩
    exact .here hlast hexcluded hearlier hname hincluded

theorem not_of_isScalar {value : Json} (hscalar : value.isScalar = true) {location : Location} :
    ¬ schema.Masks Included type parent value location := by
  intro h
  cases h <;> cases hscalar

/-- In an array, what is masked is what is masked in its items. -/
theorem item_iff {items : List Json} {index : Nat} {item : Json}
    (hitem : items[index]? = some item) :
    schema.Masks Included type parent (.array items) (.item index :: rest)
      ↔ schema.Masks Included type parent item rest := by
  constructor
  · intro h
    cases h with
    | item hitem' h =>
      obtain rfl := Option.some.inj (hitem.symm.trans hitem')
      exact h
  · exact .item hitem

end Masks

variable {schema : Schema}

/-- **In plain types nothing is masked**, as no two members come to an object under one name. -/
theorem not_masks_of_plain (hplain : ∀ info ∈ schema.types, info.decl.IsPlain)
    {Included : Path → Prop} {type : FieldType} {value : Json} {location : Json.Location}
    (hordered : value.Ordered) : ¬ schema.Masks Included type parent value location := by
  intro h
  induction h with
  | here hlast hexcluded hearlier hname hincluded =>
    obtain ⟨hmem, hname'⟩ := Contribution.mem_of_last? hlast
    obtain ⟨offers, hoffers, hsame⟩ := exists_offers_of_mem hplain hordered.members.nodup hmem
    have hnodup := hoffers.nodup
    rw [hsame] at hmem hearlier
    obtain ⟨offer, hoffer, rfl⟩ := List.mem_map.1 hmem
    obtain ⟨offer', hoffer', rfl⟩ := List.mem_map.1 hearlier
    obtain rfl := List.inj_on_of_nodup_map hnodup hoffer hoffer' (hname'.trans hname.symm)
    exact hexcluded hincluded
  | member hlast _ _ ih =>
    obtain ⟨hmem, -⟩ := Contribution.mem_of_last? hlast
    obtain ⟨offers, hoffers, hsame⟩ := exists_offers_of_mem hplain hordered.members.nodup hmem
    rw [hsame] at hmem
    obtain ⟨⟨name, declared, value⟩, hoffer, rfl⟩ := List.mem_map.1 hmem
    exact ih (hordered.member ((hoffers.mem_iff _ _ _).1 hoffer).1)
  | item hitem _ ih => exact ih (hordered.item (List.mem_of_getElem? hitem))

/-! ## Two walks -/

/-- A value without parts is written as it is. -/
theorem write_of_isScalar {ε : Type} {guide : Guide (Except ε)} {value out : Json}
    (hscalar : value.isScalar = true) {type : FieldType} {parent : Path}
    (h : (value.visit guide).write type parent = .ok out) : out = value := by
  cases value with
  | array => cases hscalar
  | object => cases hscalar
  | _ => exact (Except.ok.inj h).symm

variable {policy : ViewPolicy} {filter : String} {placeholder : Json}

/-- A value is written with placeholders as it is written without them, but for the placeholders. -/
def FillsWritten [Glob.Engine] (schema : Schema) (policy : ViewPolicy) (filter : String)
    (placeholder value : Json) (type : FieldType) (parent : Path) : Prop :=
  ∀ out full, (value.visit (schema.guide policy filter none)).write type parent = .ok out →
    (value.visit (schema.guide policy filter (some placeholder))).write type parent = .ok full →
      Fills full out placeholder
        (schema.Masks (schema.judge policy filter · = .ok true) type parent value)

/-- What is written under a name without placeholders and with them. -/
theorem fillsPart_of_contributions [Glob.Engine] {type : FieldType} {parent : Path}
    {members outs fulls : Members}
    (ih : ∀ contribution ∈ schema.contributionsAt type parent members, schema.FillsWritten policy
      filter placeholder contribution.value contribution.type contribution.path)
    (hout : (schema.contributionsAt type parent members).foldlM
      (schema.guide policy filter none).contribute [] = .ok outs)
    (hfull : (schema.contributionsAt type parent members).foldlM
      (schema.guide policy filter (some placeholder)).contribute [] = .ok fulls) (name : String) :
    FillsPart placeholder
      (fun rest => schema.Masks (schema.judge policy filter · = .ok true) type parent
        (.object members) (.member name :: rest)) (outs.lookup name) (fulls.lookup name) := by
  have hslot := Guide.slot_of_contributions hout name
  have hslot' := Guide.slot_of_contributions hfull name
  have hsome := Guide.isSome_of_contributions rfl hout name
  generalize outs.lookup name = slot at hslot hsome ⊢
  generalize fulls.lookup name = slot' at hslot' ⊢
  cases hslot' with
  | absent hlast =>
    cases hslot with
    | absent => exact .absent fun rest => Masks.not_member hlast
    | included hlast' => simp [hlast] at hlast'
    | excluded hlast' => simp [hlast] at hlast'
  | included hlast hpath hwrite' =>
    cases hslot with
    | absent hlast' => simp [hlast] at hlast'
    | included hlast' _ hwrite =>
      obtain rfl := Option.some.inj (hlast.symm.trans hlast')
      have hmasks := fun rest => @Masks.member_iff_of_included schema
        (schema.judge policy filter · = .ok true) type parent members name _ rest hlast hpath
      have hfills := ih _ (Contribution.mem_of_last? hlast).1 _ _ hwrite hwrite'
      exact .filled (fun hroot => Masks.not_nil ((hmasks []).1 hroot)) (hfills.congr hmasks)
    | excluded hlast' hpath' =>
      obtain rfl := Option.some.inj (hlast.symm.trans hlast')
      cases hpath.symm.trans hpath'
  | @excluded last _ hlast hpath hplaced =>
    have hexcluded : ¬ schema.judge policy filter last.path = .ok true := by
      intro hincluded
      cases hpath.symm.trans hincluded
    have hmasks := fun rest => @Masks.member_iff_of_excluded schema
      (schema.judge policy filter · = .ok true) type parent members name last rest hlast hexcluded
    obtain rfl := hplaced placeholder rfl
    cases slot with
    | none =>
      refine .added fun rest hmasked => ?_
      cases hsome.2 (.inr ((hmasks rest).1 hmasked).2)
    | some out =>
      have hearlier := (hsome.1 rfl).resolve_left (by simp)
      exact .masked fun rest => (hmasks rest).trans (and_iff_left hearlier)

/-- What is written for an item without placeholders and with them. -/
theorem fillsPart_of_items [Glob.Engine] {type : FieldType} {parent : Path}
    {items outs fulls : List Json}
    (ih : ∀ item ∈ items, schema.FillsWritten policy filter placeholder item type parent)
    (hout : List.Forall₂ (fun item out =>
      (item.visit (schema.guide policy filter none)).write type parent = .ok out) items outs)
    (hfull : List.Forall₂ (fun item full =>
      (item.visit (schema.guide policy filter (some placeholder))).write type parent = .ok full)
        items fulls) (index : Nat) :
    FillsPart placeholder
      (fun rest => schema.Masks (schema.judge policy filter · = .ok true) type parent (.array items)
        (.item index :: rest)) outs[index]? fulls[index]? := by
  by_cases hindex : index < items.length
  · have hindex' : index < outs.length := hout.length_eq ▸ hindex
    have hindex'' : index < fulls.length := hfull.length_eq ▸ hindex
    have hmasks := fun rest => @Masks.item_iff schema (schema.judge policy filter · = .ok true) type
      parent rest items index _ (List.getElem?_eq_getElem hindex)
    have hfills := ih _ (List.getElem_mem hindex) _ _ (hout.get hindex hindex')
      (hfull.get hindex hindex'')
    rw [List.getElem?_eq_getElem hindex', List.getElem?_eq_getElem hindex'']
    exact .filled (fun hroot => Masks.not_nil ((hmasks []).1 hroot)) (hfills.congr hmasks)
  · have hnone : ∀ {values : List Json}, items.length = values.length → values[index]? = none :=
      fun hlength => List.getElem?_eq_none (hlength ▸ Nat.le_of_not_lt hindex)
    rw [hnone hout.length_eq, hnone hfull.length_eq]
    refine .absent fun rest hmasked => ?_
    cases hmasked with
    | item hitem => simp [hnone rfl] at hitem

/-- **A value is written with placeholders as it is written without them**, at every place. -/
theorem visit_fills [Glob.Engine] (value : Json) (type : FieldType) (parent : Path) :
    schema.FillsWritten policy filter placeholder value type parent := by
  induction value using schema.contributionInduct generalizing type parent with
  | scalar value hscalar =>
    intro out full hout hfull
    obtain rfl := write_of_isScalar hscalar hout
    obtain rfl := write_of_isScalar hscalar hfull
    refine fills_of_parts Masks.not_nil (alike_of_isScalar hscalar) fun step => ?_
    rw [at?_of_isScalar hscalar]
    exact .absent fun rest => Masks.not_of_isScalar hscalar
  | array items ih =>
    intro out full hout hfull
    obtain ⟨outs, rfl, houts⟩ := exists_of_write_array hout
    obtain ⟨fulls, rfl, hfulls⟩ := exists_of_write_array hfull
    have hwritten := forall₂_writeItems houts
    have hwritten' := forall₂_writeItems hfulls
    refine fills_of_parts Masks.not_nil (hwritten.length_eq.symm.trans hwritten'.length_eq) ?_
    rintro (name | index)
    · rw [at?_array_member, at?_array_member]
      exact .absent nofun
    · have hpart := fillsPart_of_items (fun item hmem => ih item hmem type parent) hwritten
        hwritten' index
      simpa using hpart
  | object members ih =>
    intro out full hout hfull
    obtain ⟨outs, rfl, houts⟩ := exists_of_write_object hout
    obtain ⟨fulls, rfl, hfulls⟩ := exists_of_write_object hfull
    refine fills_of_parts Masks.not_nil True.intro ?_
    rintro (name | index)
    · have hpart := fillsPart_of_contributions
        (fun contribution hmem => ih type parent contribution hmem _ _)
        (Guide.writeObject_contributions (fun _ _ => find?_of_describe) houts)
        (Guide.writeObject_contributions (fun _ _ => find?_of_describe) hfulls) name
      simpa using hpart
    · rw [at?_object_item, at?_object_item]
      exact .absent nofun

end Schema

/-- **Placeholders only add**, apart from the masked locations.  Without a cache of decisions, a
value pruned with a placeholder has all that it has when it is pruned without one, in the same place
and of the same kind, and every member that it has besides is the placeholder.  Where several
members come to one object under one name and the last one is excluded, its placeholder takes the
place of what was included before it. -/
theorem Session.prune_placeholder [Glob.Engine] {settings : Settings}
    (hdisabled : settings.decisionCache.isDisabled = true) {types : List TypeDecl}
    {filter : String} {contextRoot : Option Owner} {root : Owner}
    {placeholder value out full : Json}
    (hout : ((ofSettings settings types).prune (.ofFilter filter contextRoot) none root value).1
      = .ok out)
    (hfull : ((ofSettings settings types).prune (.ofFilter filter contextRoot) (some placeholder)
      root value).1 = .ok full) :
    let schema := (ofSettings settings types).registry.schema
    full.Fills out placeholder
      (schema.Masks (schema.judge settings.policy filter · = .ok true) (Json.rootType root) []
        value) := by
  have hbound := BoundFilter.truthful_ofFilter filter contextRoot
  rw [prune_of_isDisabled (truthful_ofSettings settings types) hdisabled hbound] at hout hfull
  exact Schema.visit_fills value _ _ _ _ hout hfull

/-- An order has an audit whose members stand among its own, and both have an identifier. -/
def clashingTypes : List TypeDecl :=
  [⟨"Order", [⟨"id", [], false, false, .untyped⟩, ⟨"note", [], false, false, .untyped⟩,
      ⟨"audit", [], false, true, .described "Audit"⟩]⟩,
    ⟨"Audit", [⟨"id", [], false, false, .untyped⟩, ⟨"by", [], false, false, .untyped⟩]⟩]

def clashingOrder : Json :=
  .object [("audit", .object [("by", .string "x"), ("id", .number 7 0)]), ("id", .number 1 0),
    ("note", .string "n")]

/-- The order with its own identifier and the author of its audit. -/
def identifiedOrder (placeholder : Option Json) : Except Fault Json :=
  ((Session.ofSettings { Settings.default with decisionCache := .ofSize 0 } clashingTypes).prune
    (.ofFilter "id,audit\x7bby\x7d" none) placeholder (.described "Order") clashingOrder).1

/-- The note is excluded, and so is the identifier of the audit, which is written after that of the
order. -/
theorem Session.prune_clashingOrder :
    identifiedOrder none = .ok (.object [("by", .string "x"), ("id", .number 1 0)])
      ∧ identifiedOrder (some (.string "***"))
        = .ok (.object [("by", .string "x"), ("id", .string "***"), ("note", .string "***")])
      ∧ (Json.object [("by", .string "x"), ("id", .string "***"), ("note", .string "***")]).Fills
          (.object [("by", .string "x"), ("id", .number 1 0)]) (.string "***")
          (((Schema.empty true).registerAll clashingTypes).Masks
            (((Schema.empty true).registerAll clashingTypes).judge ⟨false, true⟩
              "id,audit\x7bby\x7d" · = .ok true) (.described "Order") [] clashingOrder) := by
  have hout : identifiedOrder none = .ok (.object [("by", .string "x"), ("id", .number 1 0)]) := by
    decide +kernel
  have hfull : identifiedOrder (some (.string "***"))
      = .ok (.object [("by", .string "x"), ("id", .string "***"), ("note", .string "***")]) := by
    decide +kernel
  exact ⟨hout, hfull, Session.prune_placeholder rfl hout hfull⟩

/-- **A placeholder can take the place of something:** the identifier of the order is included, and
the placeholder for that of the audit is written over it. -/
theorem Session.prune_masked_ne :
    ¬ ∀ out full, identifiedOrder none = .ok out →
        identifiedOrder (some (.string "***")) = .ok full →
          ∀ location kept, out.at? location = some kept →
            ∃ value, full.at? location = some value ∧ kept.Alike value := by
  intro hkept
  have hout : identifiedOrder none = .ok (.object [("by", .string "x"), ("id", .number 1 0)]) := by
    decide +kernel
  have hfull : identifiedOrder (some (.string "***"))
      = .ok (.object [("by", .string "x"), ("id", .string "***"), ("note", .string "***")]) := by
    decide +kernel
  obtain ⟨value, hvalue, halike⟩ := hkept _ _ hout hfull [.member "id"] (.number 1 0)
    (by simp [AssocList.lookup_cons_ite])
  obtain rfl : value = .string "***" := by simpa [AssocList.lookup_cons_ite, eq_comm] using hvalue
  cases halike

/-- **In plain types placeholders only add.**  Where no field is unwrapped, a value pruned with a
placeholder has all that it has when it is pruned without one, and besides it placeholders only. -/
theorem Session.prune_placeholder_of_plain [Glob.Engine] {settings : Settings}
    (hdisabled : settings.decisionCache.isDisabled = true) {types : List TypeDecl}
    (hplain : ∀ info ∈ (ofSettings settings types).registry.schema.types, info.decl.IsPlain)
    {filter : String} {contextRoot : Option Owner} {root : Owner}
    {placeholder value out full : Json} (hordered : value.Ordered)
    (hout : ((ofSettings settings types).prune (.ofFilter filter contextRoot) none root value).1
      = .ok out)
    (hfull : ((ofSettings settings types).prune (.ofFilter filter contextRoot) (some placeholder)
      root value).1 = .ok full) : full.Fills out placeholder fun _ => False := by
  have hbound := BoundFilter.truthful_ofFilter filter contextRoot
  rw [prune_of_isDisabled (truthful_ofSettings settings types) hdisabled hbound] at hout hfull
  refine (Schema.visit_fills value _ _ _ _ hout hfull).congr fun location => ?_
  exact iff_of_false id (Schema.not_masks_of_plain hplain hordered)

end FieldFilter
