import FieldFilter.Cache.Limits

/-!
# Settings of a cache

Written limits, piece by piece.  A piece between two commas is blank, or it is a name and a text
with an equals sign between them, blanks around both aside.  Three names are keys of limits.  The
greatest number of entries is a number that may have a plus sign, and the two durations are a number
directly followed by a unit.  Two more names may have any text, and nothing is done about it.

Main definitions:

* `Limits.Key`, `Limits.get`, `Limits.put` — what can be set;
* `Limits.IsDuration`, `Limits.Key.Takes` — the texts that a key takes, with the number that each
  stands for;
* `Limits.Setting`, `Limits.Assigns`, `Limits.IsSetting` — the pieces that are settings, and what
  each sets;
* `Limits.pieces`, `Limits.last?` — the pieces of a text, and what counts of several settings;
* `Limits.settings`, `Setting.text` — the settings that limits are rendered as;
* `Limits.TimesFit` — durations that can be written in milliseconds.
-/

namespace FieldFilter.Limits

inductive Key where
  | maximumSize
  | expireAfterWrite
  | expireAfterAccess
  deriving DecidableEq, Repr

def Key.name : Key → String
  | .maximumSize => "maximumSize"
  | .expireAfterWrite => "expireAfterWrite"
  | .expireAfterAccess => "expireAfterAccess"

/-- The names that are known and set nothing. -/
def idleNames : List String :=
  ["initialCapacity", "concurrencyLevel"]

def get (limits : Limits) : Key → Option Nat
  | .maximumSize => limits.maximumSize
  | .expireAfterWrite => limits.expireAfterWrite
  | .expireAfterAccess => limits.expireAfterAccess

def put (limits : Limits) (key : Key) (value : Nat) : Limits :=
  match key with
  | .maximumSize => { limits with maximumSize := some value }
  | .expireAfterWrite => { limits with expireAfterWrite := some value }
  | .expireAfterAccess => { limits with expireAfterAccess := some value }

/-- The units of time, each with its milliseconds. -/
def units : List (String × Nat) :=
  [("ms", 1), ("s", 1000), ("m", 60000), ("h", 3600000), ("d", 86400000)]

/-- The texts of durations, and how many milliseconds each stands for. -/
def IsDuration (text : List Char) (time : Nat) : Prop :=
  ∃ digits amount, ∃ unit ∈ units,
    text = digits ++ unit.1.toList ∧ Text.IsNumeral digits amount ∧ time = amount * unit.2

/-- The texts that a key takes, and the number that each stands for. -/
def Key.Takes (key : Key) (text : List Char) (value : Nat) : Prop :=
  match key with
  | .maximumSize =>
    Text.IsNumeral text value ∨ ∃ digits, text = '+' :: digits ∧ Text.IsNumeral digits value
  | .expireAfterWrite | .expireAfterAccess => IsDuration text value

/-- A number for a key. -/
structure Setting where
  key : Key
  value : Nat
  deriving DecidableEq, Repr

/-- What a name and a text set, if they set anything. -/
inductive Assigns : List Char → List Char → Option Setting → Prop
  | sets {key : Key} {text : List Char} {value : Nat} (htext : key.Takes text value) :
    Assigns key.name.toList text (some ⟨key, value⟩)
  | idle {name : String} (hname : name ∈ idleNames) (text : List Char) :
    Assigns name.toList text none

/-- The pieces that are settings, and what each sets. -/
def IsSetting (piece : List Char) (setting : Option Setting) : Prop :=
  ∃ name text, piece = name ++ '=' :: text ∧ Assigns (Text.trim name) (Text.trim text) setting

/-- The pieces of a text between its commas that are not blank. -/
def pieces (text : String) : List (List Char) :=
  (Text.pieces ',' text.toList).filter fun piece => !Text.isAllBlank piece

/-- The number that a setting has for a key. -/
def Setting.value? (key : Key) (setting : Setting) : Option Nat :=
  if setting.key = key then some setting.value else none

/-- The number that the last setting with a key has, if there is any. -/
def last? (key : Key) (settings : List (Option Setting)) : Option Nat :=
  (settings.filterMap fun setting => setting.bind (Setting.value? key)).getLast?

/-! ## The settings of limits -/

/-- What follows the number of a key in rendered limits. -/
def Key.unit : Key → String
  | .maximumSize => ""
  | .expireAfterWrite | .expireAfterAccess => "ms"

def Setting.text (setting : Setting) : String :=
  setting.key.name ++ "=" ++ toString setting.value ++ setting.key.unit

/-- What limits have, setting by setting. -/
def settings (limits : Limits) : List Setting :=
  [.maximumSize, .expireAfterWrite, .expireAfterAccess].filterMap fun key =>
    (limits.get key).map fun value => ⟨key, value⟩

/-- Whether the durations of limits fit into sixty-four bits as milliseconds. -/
def TimesFit (limits : Limits) : Prop :=
  (∀ time ∈ limits.expireAfterWrite, time < Text.wordBound)
    ∧ ∀ time ∈ limits.expireAfterAccess, time < Text.wordBound

end FieldFilter.Limits
