import FieldFilter.Json
import Mathlib.Data.List.Forall2
import Mathlib.Tactic.ByContra

/-!
# Locations in a JSON value

A location is a way into a value: names of members and indexes of items, from the root.  Two values
are compared location by location, which is how a value that was pruned is compared with the one
it was made from.

* `Json.at?` — the value at a location.
* `Json.Ordered` — every object lists its members in increasing order of their names.
* `Json.Alike` — values of one kind: the same scalar, arrays of one length, or objects.
* `Json.IsProjection` — a value that was cut down to some of its locations.
* **`Json.induct`** — induction on a value, for the members and items of which it is known.
-/

namespace FieldFilter.Json

/-- One step into a value. -/
inductive Step where
  /-- To the member of a name. -/
  | member (name : String)
  /-- To the item of an index. -/
  | item (index : Nat)
  deriving DecidableEq, Repr

/-- A way into a value, from its root. -/
abbrev Location := List Step

/-- The value at a location, if there is one. -/
def at? : Json → Location → Option Json
  | value, [] => some value
  | .object members, .member name :: rest => (members.lookup name).bind fun value => value.at? rest
  | .array items, .item index :: rest => items[index]?.bind fun value => value.at? rest
  | _, _ :: _ => none

/-- Members in increasing order of their names, none of which occurs twice. -/
def Members.Ordered (members : Members) : Prop :=
  members.Pairwise fun entry later => entry.1 < later.1

instance (members : Members) : Decidable (Members.Ordered members) :=
  inferInstanceAs (Decidable (members.Pairwise fun entry later => entry.1 < later.1))

/-- Every object of a value has its members in order. -/
def Ordered (value : Json) : Prop :=
  ∀ location members, value.at? location = some (.object members) → Members.Ordered members

/-- Values of one kind: the same scalar, arrays of one length, or objects. -/
def Alike : Json → Json → Prop
  | .array items, .array items' => items.length = items'.length
  | .object _, .object _ => True
  | .array _, _ | .object _, _ | _, .array _ | _, .object _ => False
  | value, value' => value = value'

/-- A value cut down to the locations to be kept: it has these and no others, and what it has is
of the kind it was.  Its objects are in order, so a location shows all there is. -/
structure IsProjection (out value : Json) (Keeps : Location → Prop) : Prop where
  ordered : out.Ordered
  isSome_at? : ∀ location,
    (out.at? location).isSome = true ↔ (value.at? location).isSome = true ∧ Keeps location
  alike : ∀ location original kept, value.at? location = some original →
    out.at? location = some kept → original.Alike kept

@[simp] theorem at?_nil (value : Json) : value.at? [] = some value := by
  rw [at?]

@[simp] theorem at?_member (members : Members) (name : String) (rest : Location) :
    (object members).at? (.member name :: rest)
      = (members.lookup name).bind fun value => value.at? rest := by
  rw [at?]

@[simp] theorem at?_item (items : List Json) (index : Nat) (rest : Location) :
    (array items).at? (.item index :: rest) = items[index]?.bind fun value => value.at? rest := by
  rw [at?]

theorem at?_object_item (members : Members) (index : Nat) (rest : Location) :
    (object members).at? (.item index :: rest) = none := by
  simp [at?]

theorem at?_array_member (items : List Json) (name : String) (rest : Location) :
    (array items).at? (.member name :: rest) = none := by
  simp [at?]

/-! ## Members in order -/

section Members

variable {members : Members} {name : String} {value : Json}

/-- The names of members in order are distinct. -/
theorem Members.Ordered.nodup (h : Members.Ordered members) : (members.map (·.1)).Nodup :=
  List.pairwise_map.2 (List.Pairwise.imp (fun hlt => String.ne_of_lt hlt) h)

/-- Adding a member adds nothing else. -/
theorem mem_insert {entry : String × Json} (h : entry ∈ insert name value members) :
    entry = (name, value) ∨ entry ∈ members := by
  induction members with
  | nil => exact Or.inl (List.mem_singleton.1 h)
  | cons head tail ih =>
      obtain ⟨key, old⟩ := head
      rw [insert] at h
      split at h
      · exact List.mem_cons.1 h
      · split at h
        · exact (List.mem_cons.1 h).imp_right (List.mem_cons_of_mem _)
        · rcases List.mem_cons.1 h with rfl | hrest
          · exact Or.inr List.mem_cons_self
          · exact (ih hrest).imp_right (List.mem_cons_of_mem _)

/-- **Members stay in order** when one is added. -/
theorem Members.Ordered.insert (h : Members.Ordered members) (name : String) (value : Json) :
    Members.Ordered (insert name value members) := by
  induction members with
  | nil => exact List.pairwise_singleton _ _
  | cons head tail ih =>
      obtain ⟨key, old⟩ := head
      obtain ⟨hhead, htail⟩ := List.pairwise_cons.1 h
      rw [Json.insert]
      split
      · next hlt =>
        refine List.pairwise_cons.2 ⟨?_, h⟩
        intro entry hmem
        rcases List.mem_cons.1 hmem with rfl | hrest
        · exact hlt
        · exact String.lt_trans hlt (hhead entry hrest)
      · next hle =>
        split
        · next heq =>
          subst heq
          exact List.pairwise_cons.2 ⟨hhead, htail⟩
        · next hne =>
          refine List.pairwise_cons.2 ⟨?_, ih htail⟩
          intro entry hmem
          rcases mem_insert hmem with rfl | hrest
          · by_contra hnot
            exact hne (String.le_antisymm (String.not_lt.1 hnot) (String.not_lt.1 hle))
          · exact hhead entry hrest

end Members

/-! ## Values in order -/

/-- Whether a value has no parts. -/
def isScalar : Json → Bool
  | .array _ | .object _ => false
  | _ => true

theorem at?_of_isScalar {value : Json} (h : value.isScalar = true) (step : Step)
    (rest : Location) : value.at? (step :: rest) = none := by
  cases value with
  | array => exact absurd h Bool.false_ne_true
  | object => exact absurd h Bool.false_ne_true
  | _ => simp [at?]

theorem ordered_of_isScalar {value : Json} (h : value.isScalar = true) : value.Ordered := by
  intro location members hat
  cases location with
  | nil =>
      rw [at?_nil, Option.some.injEq] at hat
      subst hat
      exact absurd h Bool.false_ne_true
  | cons step rest =>
      rw [at?_of_isScalar h] at hat
      cases hat

/-- An array is ordered if its items are. -/
theorem ordered_array {items : List Json} (h : ∀ item ∈ items, item.Ordered) :
    (array items).Ordered := by
  intro location members hat
  cases location with
  | nil => simp at hat
  | cons step rest =>
      cases step with
      | member name =>
          rw [at?_array_member] at hat
          cases hat
      | item index =>
          rw [at?_item] at hat
          obtain ⟨item, hitem, hrest⟩ := Option.bind_eq_some_iff.1 hat
          exact h item (List.mem_of_getElem? hitem) rest members hrest

/-- An object is ordered if its members are in order and their values are ordered. -/
theorem ordered_object {members : Members} (hmembers : Members.Ordered members)
    (h : ∀ entry ∈ members, entry.2.Ordered) : (object members).Ordered := by
  intro location inner hat
  cases location with
  | nil =>
      rw [at?_nil, Option.some.injEq, object.injEq] at hat
      subst hat
      exact hmembers
  | cons step rest =>
      cases step with
      | item index =>
          rw [at?_object_item] at hat
          cases hat
      | member name =>
          rw [at?_member] at hat
          obtain ⟨value, hvalue, hrest⟩ := Option.bind_eq_some_iff.1 hat
          exact h (name, value) (AssocList.mem_of_lookup hvalue) rest inner hrest

theorem Ordered.members {members : Members} (h : (object members).Ordered) :
    Members.Ordered members :=
  h [] members (at?_nil _)

theorem Ordered.member {members : Members} (h : (object members).Ordered) {name : String}
    {value : Json} (hvalue : members.lookup name = some value) : value.Ordered := by
  intro location inner hat
  refine h (.member name :: location) inner ?_
  rw [at?_member, hvalue]
  exact hat

theorem Ordered.item {items : List Json} (h : (array items).Ordered) {item : Json}
    (hitem : item ∈ items) : item.Ordered := by
  obtain ⟨index, hindex⟩ := List.getElem?_of_mem hitem
  intro location inner hat
  refine h (.item index :: location) inner ?_
  rw [at?_item, hindex]
  exact hat

/-! ## Projections, from the inside out -/

section Projection

variable {Keeps : Location → Prop}

/-- A projection to some locations is one to the same locations in other words. -/
theorem IsProjection.congr {out value : Json} {Keeps' : Location → Prop}
    (h : ∀ location, Keeps location ↔ Keeps' location) (hprojection : out.IsProjection value Keeps') :
    out.IsProjection value Keeps where
  ordered := hprojection.ordered
  isSome_at? := by
    intro location
    rw [h, hprojection.isSome_at?]
  alike := hprojection.alike

/-- A value with an ordered root of the right kind is a projection if it is one below its root. -/
theorem isProjection_of_steps {out value : Json} (hroot : Keeps []) (hordered : out.Ordered)
    (halike : value.Alike out)
    (hsome : ∀ step rest, (out.at? (step :: rest)).isSome = true
      ↔ (value.at? (step :: rest)).isSome = true ∧ Keeps (step :: rest))
    (hbelow : ∀ step rest original kept, value.at? (step :: rest) = some original →
      out.at? (step :: rest) = some kept → original.Alike kept) :
    out.IsProjection value Keeps where
  ordered := hordered
  isSome_at? := by
    intro location
    cases location with
    | nil => simp [hroot]
    | cons step rest => exact hsome step rest
  alike := by
    intro location original kept horiginal hkept
    cases location with
    | nil =>
        rw [at?_nil, Option.some.injEq] at horiginal hkept
        subst horiginal hkept
        exact halike
    | cons step rest => exact hbelow step rest original kept horiginal hkept

theorem alike_of_isScalar {value : Json} (h : value.isScalar = true) : value.Alike value := by
  cases value with
  | array => exact absurd h Bool.false_ne_true
  | object => exact absurd h Bool.false_ne_true
  | _ => simp [Alike]

theorem isProjection_scalar {value : Json} (h : value.isScalar = true) (hroot : Keeps []) :
    value.IsProjection value Keeps := by
  refine isProjection_of_steps hroot (ordered_of_isScalar h) (alike_of_isScalar h) ?_ ?_
  · intro step rest
    simp [at?_of_isScalar h]
  · intro step rest original kept _ hkept
    rw [at?_of_isScalar h] at hkept
    cases hkept

/-- An array of projections is a projection of the array, if it does not matter at which item a
location goes on. -/
theorem isProjection_array {items outs : List Json} {Below : Location → Prop} (hroot : Keeps [])
    (hbelow : ∀ index rest, Keeps (.item index :: rest) ↔ Below rest)
    (h : List.Forall₂ (fun item out => IsProjection out item Below) items outs) :
    (array outs).IsProjection (array items) Keeps := by
  have hordered : (array outs).Ordered := by
    refine ordered_array ?_
    intro out hout
    obtain ⟨index, hindex, rfl⟩ := List.getElem_of_mem hout
    exact (h.get (h.length_eq.symm ▸ hindex) hindex).ordered
  refine isProjection_of_steps hroot hordered h.length_eq ?_ ?_
  · intro step rest
    cases step with
    | member name => simp [at?_array_member]
    | item index =>
        rw [at?_item, at?_item, hbelow]
        by_cases hindex : index < outs.length
        · have hindex' : index < items.length := h.length_eq.symm ▸ hindex
          rw [List.getElem?_eq_getElem hindex, List.getElem?_eq_getElem hindex']
          exact (h.get hindex' hindex).isSome_at? rest
        · have hindex' : ¬ index < items.length := h.length_eq.symm ▸ hindex
          rw [List.getElem?_eq_none (Nat.le_of_not_lt hindex),
            List.getElem?_eq_none (Nat.le_of_not_lt hindex')]
          simp
  · intro step rest original kept horiginal hkept
    cases step with
    | member name =>
        rw [at?_array_member] at hkept
        cases hkept
    | item index =>
        rw [at?_item] at horiginal hkept
        obtain ⟨item, hitem, horiginal⟩ := Option.bind_eq_some_iff.1 horiginal
        obtain ⟨out, hout, hkept⟩ := Option.bind_eq_some_iff.1 hkept
        obtain ⟨hindex, rfl⟩ := List.getElem?_eq_some_iff.1 hout
        obtain ⟨hindex', rfl⟩ := List.getElem?_eq_some_iff.1 hitem
        exact (h.get hindex' hindex).alike rest original kept horiginal hkept

/-- What becomes of a member: it is gone with all that is below it, or it is cut down. -/
inductive IsMemberProjection (Keeps : Location → Prop) : Option Json → Option Json → Prop where
  | absent : IsMemberProjection Keeps none none
  | dropped {value : Json} (h : ∀ rest, ¬ Keeps rest) : IsMemberProjection Keeps none (some value)
  | kept {out value : Json} (h : out.IsProjection value Keeps) :
    IsMemberProjection Keeps (some out) (some value)

/-- An object is a projection if every member is. -/
theorem isProjection_object {members outs : Members} (hroot : Keeps [])
    (hordered : Members.Ordered outs)
    (h : ∀ name, IsMemberProjection (fun rest => Keeps (.member name :: rest)) (outs.lookup name)
      (members.lookup name)) :
    (object outs).IsProjection (object members) Keeps := by
  have hvalues : (object outs).Ordered := by
    refine ordered_object hordered ?_
    rintro ⟨name, out⟩ hout
    have hname := h name
    rw [(AssocList.mem_iff_lookup hordered.nodup).1 hout] at hname
    generalize members.lookup name = slot at hname
    cases hname with
    | kept hkept => exact hkept.ordered
  refine isProjection_of_steps hroot hvalues True.intro ?_ ?_
  · intro step rest
    cases step with
    | item index => simp [at?_object_item]
    | member name =>
        rw [at?_member, at?_member]
        have hname := h name
        generalize outs.lookup name = slot at hname ⊢
        generalize members.lookup name = slot' at hname ⊢
        cases hname with
        | absent => simp
        | dropped hdropped => simp [hdropped rest]
        | kept hkept => exact hkept.isSome_at? rest
  · intro step rest original kept horiginal hkept
    cases step with
    | item index =>
        rw [at?_object_item] at hkept
        cases hkept
    | member name =>
        rw [at?_member] at horiginal hkept
        have hname := h name
        generalize outs.lookup name = slot at hname hkept
        generalize members.lookup name = slot' at hname horiginal
        cases hname with
        | absent => cases hkept
        | dropped => cases hkept
        | kept hprojection => exact hprojection.alike rest original kept horiginal hkept

end Projection

/-! ## Induction on a value -/

/-- **Induction on a value.**  What holds of a value if it holds of its items or of its members
holds of every value. -/
@[elab_as_elim]
theorem induct {Motive : Json → Prop} (null : Motive .null) (bool : ∀ value, Motive (.bool value))
    (number : ∀ mantissa places, Motive (.number mantissa places))
    (string : ∀ value, Motive (.string value))
    (array : ∀ items : List Json, (∀ item ∈ items, Motive item) → Motive (.array items))
    (object : ∀ members : Members, (∀ entry ∈ members, Motive entry.2) →
      Motive (.object members)) (value : Json) : Motive value := by
  refine @Json.rec Motive (fun items => ∀ item ∈ items, Motive item)
    (fun members => ∀ entry ∈ members, Motive entry.2) (fun entry => Motive entry.2)
    null bool number string array object ?_ ?_ ?_ ?_ ?_ value
  · exact fun _ hmem => nomatch hmem
  · exact fun first rest hfirst hrest => List.forall_mem_cons.2 ⟨hfirst, hrest⟩
  · exact fun _ hmem => nomatch hmem
  · exact fun first rest hfirst hrest => List.forall_mem_cons.2 ⟨hfirst, hrest⟩
  · exact fun _ _ hvalue => hvalue

end FieldFilter.Json
