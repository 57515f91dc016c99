import FieldFilter.AssocList

/-!
# JSON values

The values that are filtered.  An object keeps its members in increasing order of their names, so
that walking over them is determined by what they are.

Main definitions:

* `Json` — a value; numbers are kept as written, up to their decimal value;
* `Json.insert` — members with one more.
-/

namespace FieldFilter

inductive Json where
  | null
  | bool (value : Bool)
  /-- The number `mantissa` divided by ten to the power `places`. -/
  | number (mantissa : Int) (places : Nat)
  | string (value : String)
  | array (items : List Json)
  /-- The members in increasing order of their names. -/
  | object (members : List (String × Json))
  deriving Repr, Inhabited

namespace Json

abbrev Members := List (String × Json)

/-- Members with one more; a member of that name is replaced. -/
def insert (name : String) (value : Json) : Members → Members
  | [] => [(name, value)]
  | (head, other) :: tail =>
    if name < head then (name, value) :: (head, other) :: tail
    else if name = head then (name, value) :: tail
    else (head, other) :: insert name value tail

/-- The value of a name among members with one more. -/
theorem lookup_insert (name other : String) (value : Json) (members : Members) :
    (insert name value members).lookup other
      = if other = name then some value else members.lookup other := by
  induction members with
  | nil => simp [insert, AssocList.lookup_cons_ite]
  | cons head tail ih =>
    obtain ⟨key, old⟩ := head
    unfold insert
    split
    · simp [AssocList.lookup_cons_ite]
    · split
      · next hk =>
        subst hk
        by_cases h : other = name <;> simp [AssocList.lookup_cons_ite, h]
      · next hk =>
        by_cases h : other = key
        · subst h
          simp [Ne.symm hk]
        · simp [AssocList.lookup_cons_ite, ih, h]

/-- An object with the given members; of two with one name the later one stays. -/
def ofMembers (members : Members) : Json :=
  .object (members.foldl (fun members entry => insert entry.1 entry.2 members) [])

/-! ## Equality of values is decidable -/

mutual

/-- Values are equal if they are of one kind and their parts are equal. -/
def decEq : (a b : Json) → Decidable (a = b)
  | .null, .null => .isTrue rfl
  | .bool value, .bool value' => decidable_of_iff (value = value') (by simp)
  | .number mantissa places, .number mantissa' places' =>
    decidable_of_iff (mantissa = mantissa' ∧ places = places') (by simp)
  | .string value, .string value' => decidable_of_iff (value = value') (by simp)
  | .array items, .array items' =>
    match decEqAll items items' with
    | .isTrue h => .isTrue (by rw [h])
    | .isFalse h => .isFalse (by simp [h])
  | .object members, .object members' =>
    match decEqMembers members members' with
    | .isTrue h => .isTrue (by rw [h])
    | .isFalse h => .isFalse (by simp [h])
  | .null, .bool _ | .null, .number _ _ | .null, .string _ | .null, .array _ | .null, .object _
  | .bool _, .null | .bool _, .number _ _ | .bool _, .string _ | .bool _, .array _
  | .bool _, .object _
  | .number _ _, .null | .number _ _, .bool _ | .number _ _, .string _ | .number _ _, .array _
  | .number _ _, .object _
  | .string _, .null | .string _, .bool _ | .string _, .number _ _ | .string _, .array _
  | .string _, .object _
  | .array _, .null | .array _, .bool _ | .array _, .number _ _ | .array _, .string _
  | .array _, .object _
  | .object _, .null | .object _, .bool _ | .object _, .number _ _ | .object _, .string _
  | .object _, .array _ => .isFalse (by simp)

/-- Lists of values are equal if their values are, one by one. -/
def decEqAll : (a b : List Json) → Decidable (a = b)
  | [], [] => .isTrue rfl
  | [], _ :: _ => .isFalse (by simp)
  | _ :: _, [] => .isFalse (by simp)
  | value :: rest, value' :: rest' =>
    match decEq value value', decEqAll rest rest' with
    | .isTrue h, .isTrue hr => .isTrue (by rw [h, hr])
    | .isFalse h, _ => .isFalse (by simp [h])
    | _, .isFalse hr => .isFalse (by simp [hr])

/-- Members are equal if their names and values are, one by one. -/
def decEqMembers : (a b : List (String × Json)) → Decidable (a = b)
  | [], [] => .isTrue rfl
  | [], _ :: _ => .isFalse (by simp)
  | _ :: _, [] => .isFalse (by simp)
  | (name, value) :: rest, (name', value') :: rest' =>
    if hn : name = name' then
      match decEq value value', decEqMembers rest rest' with
      | .isTrue h, .isTrue hr => .isTrue (by rw [hn, h, hr])
      | .isFalse h, _ => .isFalse (by simp [h])
      | _, .isFalse hr => .isFalse (by simp [hr])
    else .isFalse (by simp [hn])

end

instance : DecidableEq Json := decEq

end Json

end FieldFilter
