import FieldFilter.Text.Blank
import FieldFilter.Text.Numeral
import FieldFilter.Text.Pieces

/-!
# Limits of a cache

How many entries a cache may hold and how long they live is written as settings between commas,
for example `maximumSize=1000,expireAfterAccess=10m`.  Blanks around a setting, its key and its
value do not matter, and neither do blank settings; of two settings with one key the later one
counts.  A duration is a number directly followed by its unit.

Durations are whole milliseconds, the finest unit in which they are written.  Limits that are not
written could be finer, but they need nothing new: all that is done with a duration is to compare it
with the age of an entry, so if times are told in a unit that is a million times smaller, the same
numbers are limits in nanoseconds.

Main definitions:

* `Limits` — the limits, durations in milliseconds;
* `LimitsFault` — what can be wrong with written limits, and how it is worded;
* `Limits.read` — the limits of a text;
* `Limits.render` — the text of limits;
* `Limits.check` — whether the limits stay within what is supported.
-/

namespace FieldFilter

/-- How many entries a cache may hold, and for how many milliseconds. -/
structure Limits where
  /-- The greatest number of entries; none at all may be kept if it is zero. -/
  maximumSize : Option Nat
  expireAfterWrite : Option Nat
  /-- How long an entry lives after it was last read or written. -/
  expireAfterAccess : Option Nat
  deriving DecidableEq, Repr

inductive LimitsFault where
  | noValue (setting : String)
  /-- A value that does not start as a number, or does not fit into sixty-four bits. -/
  | noNumber (key value : String)
  | unknownUnit (key unit : String)
  | unknownKey (key : String)
  | tooLarge (cache : String) (size bound : Nat)
  deriving DecidableEq, Repr

def LimitsFault.message (fault : LimitsFault) : String :=
  "Invalid cache spec: " ++
    match fault with
    | .noValue setting => "expected key=value, got '" ++ setting ++ "'"
    | .noNumber key value => key ++ " needs a number: '" ++ value ++ "'"
    | .unknownUnit key unit => key ++ " has unknown time unit '" ++ unit ++ "'"
    | .unknownKey key => "unknown key '" ++ key ++ "'"
    | .tooLarge cache size bound =>
      cache ++ " maximumSize " ++ toString size ++ " exceeds " ++ toString bound

namespace Limits

def unlimited : Limits :=
  ⟨none, none, none⟩

/-- A greatest number of entries, which live as long as there is room. -/
def ofSize (size : Nat) : Limits :=
  { unlimited with maximumSize := some size }

/-- Whether a cache with these limits keeps nothing. -/
def isDisabled (limits : Limits) : Bool :=
  limits.maximumSize == some 0

/-! ## Written limits -/

/-- The milliseconds of a unit of time. -/
def unit? (unit : List Char) : Option Nat :=
  if unit = ['m', 's'] then some 1
  else if unit = ['s'] then some 1000
  else if unit = ['m'] then some 60000
  else if unit = ['h'] then some 3600000
  else if unit = ['d'] then some 86400000
  else none

/-- The milliseconds of a duration, written as a number and its unit. -/
def duration (key : String) (value : List Char) : Except LimitsFault Nat :=
  let value := Text.trim value
  let unit := value.dropWhile Char.isDigit
  match Text.word? (value.takeWhile Char.isDigit) with
  | none => .error (.noNumber key (String.ofList value))
  | some amount =>
    match unit? unit with
    | none => .error (.unknownUnit key (String.ofList unit))
    | some milliseconds => .ok (amount * milliseconds)

/-- Limits with one setting more.  Two further keys are known and have no effect. -/
def set (limits : Limits) (key : String) (value : List Char) : Except LimitsFault Limits :=
  if key = "maximumSize" then
    match Text.signedWord? (Text.trim value) with
    | none => .error (.noNumber key (String.ofList value))
    | some size => .ok { limits with maximumSize := some size }
  else if key = "expireAfterWrite" then
    (duration key value).map fun time => { limits with expireAfterWrite := some time }
  else if key = "expireAfterAccess" then
    (duration key value).map fun time => { limits with expireAfterAccess := some time }
  else if key = "initialCapacity" ∨ key = "concurrencyLevel" then .ok limits
  else .error (.unknownKey key)

/-- Limits with the settings of a list, each without the blanks around it. -/
def setAll (limits : Limits) : List (List Char) → Except LimitsFault Limits
  | [] => .ok limits
  | setting :: rest =>
    match Text.cut? '=' setting with
    | none => .error (.noValue (String.ofList setting))
    | some (key, value) =>
      match limits.set (String.ofList (Text.trim key)) value with
      | .error fault => .error fault
      | .ok limits => limits.setAll rest

def read (text : String) : Except LimitsFault Limits :=
  unlimited.setAll
    (((Text.pieces ',' text.toList).map Text.trim).filter fun setting => !setting.isEmpty)

/-- The text of limits, durations in milliseconds. -/
def render (limits : Limits) : String :=
  let setting (key unit : String) (value : Option Nat) : List String :=
    match value with
    | none => []
    | some value => [key ++ "=" ++ toString value ++ unit]
  ",".intercalate
    (setting "maximumSize" "" limits.maximumSize
      ++ setting "expireAfterWrite" "ms" limits.expireAfterWrite
      ++ setting "expireAfterAccess" "ms" limits.expireAfterAccess)

/-- The greatest number of entries that is supported, which is two to the power of 24. -/
def sizeBound : Nat := 16777216

/-- Refuses limits with more entries than are supported, for the cache of a given name. -/
def check (limits : Limits) (cache : String) : Except LimitsFault Unit :=
  match limits.maximumSize with
  | none => .ok ()
  | some size => if sizeBound < size then .error (.tooLarge cache size sizeBound) else .ok ()

end Limits

end FieldFilter
