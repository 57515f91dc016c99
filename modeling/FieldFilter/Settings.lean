import FieldFilter.Cache.Limits
import FieldFilter.Json.Record
import FieldFilter.Matching

/-!
# Settings

The settings of a session: the limits of its two caches, and how views are treated.  They are
read from a JSON text or from environment variables, each over the defaults.

Main definitions:

* `Settings`, `Settings.default` — the settings;
* `SettingsFault` — what can be wrong with them, and how it is worded;
* `Settings.ofJson`, `Settings.ofVariables` — reading them;
* `Settings.check` — whether they stay within what is supported;
* `Settings.install` — settings that hold from then on.
-/

namespace FieldFilter

structure Settings where
  decisionCache : Limits
  expressionCache : Limits
  /-- A matched view also settles what is below its blocks. -/
  propagateViews : Bool
  /-- What was not asked for in detail stands for its base view. -/
  implicitBase : Bool
  /-- Fields without labels belong to the base view. -/
  unlabelledInBase : Bool
  deriving DecidableEq, Repr

inductive SettingsFault where
  /-- The limits of a cache are malformed or not supported. -/
  | limits (fault : LimitsFault)
  /-- The limits of a cache are malformed within a JSON text. -/
  | limitsInJson (fault : LimitsFault)
  | json
  | noBoolean (name got : String)
  | conflict
  deriving DecidableEq, Repr

/-- The wording of what is wrong with settings.  What is wrong with a JSON text is worded only
where it lies in the limits of a cache. -/
def SettingsFault.message? : SettingsFault → Option String
  | .limits fault => some fault.message
  | .limitsInJson fault => some fault.message
  | .json => none
  | .noBoolean name got =>
    some ("Invalid configuration parameter: " ++ name ++ " expects a boolean, got '" ++ got
      ++ "'")
  | .conflict => some "Configuration conflict: purifier configuration is already initialized"

namespace Settings

/-- The settings that hold unless others are given. -/
def default : Settings where
  decisionCache := { Limits.ofSize 1000 with expireAfterAccess := some 300000 }
  expressionCache := Limits.ofSize 1000
  propagateViews := false
  implicitBase := true
  unlabelledInBase := true

def policy (settings : Settings) : ViewPolicy :=
  ⟨settings.propagateViews, settings.implicitBase⟩

/-- Refuses settings with larger caches than are supported. -/
def check (settings : Settings) : Except SettingsFault Unit :=
  (do
    settings.decisionCache.check "filter_path_cache"
    settings.expressionCache.check "parser_node_cache").mapError .limits

/-! ## Settings from a JSON text -/

def limitsOfToken : JsonToken → Except SettingsFault Limits
  | .string (some text) => (Limits.read text).mapError .limitsInJson
  | _ => .error .json

def boolOfToken : JsonToken → Except SettingsFault Bool
  | .bool value => .ok value
  | _ => .error .json

/-- Settings as a record of a JSON text. -/
def record : Record SettingsFault Settings where
  fields := ["filter_path_cache", "parser_node_cache", "propagate_view_to_nested_filters",
    "implicitly_include_base_fields", "add_non_annotated_fields_to_base_view"]
  set field token settings :=
    if field = "filter_path_cache" then
      (limitsOfToken token).map fun limits => { settings with decisionCache := limits }
    else if field = "parser_node_cache" then
      (limitsOfToken token).map fun limits => { settings with expressionCache := limits }
    else if field = "propagate_view_to_nested_filters" then
      (boolOfToken token).map fun value => { settings with propagateViews := value }
    else if field = "implicitly_include_base_fields" then
      (boolOfToken token).map fun value => { settings with implicitBase := value }
    else (boolOfToken token).map fun value => { settings with unlabelledInBase := value }
  malformed := .json

def ofJson (text : String) : Except SettingsFault Settings := do
  let settings ← record.read default text
  settings.check
  pure settings

/-! ## Settings from environment variables -/

/-- A truth value from a text; case does not matter, and blanks around it do not either. -/
def readBool (value name : String) : Except SettingsFault Bool :=
  let word := String.ofList ((Text.trim value.toList).map Char.toLower)
  if word = "true" ∨ word = "1" ∨ word = "yes" then .ok true
  else if word = "false" ∨ word = "0" ∨ word = "no" then .ok false
  else .error (.noBoolean name word)

/-- A setting from a variable, or as it was if the variable has no value. -/
def setting {α : Type} (environment : String → Option String) (name : String)
    (read : String → String → Except SettingsFault α) (before : α) :
    Except SettingsFault α :=
  match environment name with
  | none => .ok before
  | some value => read value name

def readLimits (value _name : String) : Except SettingsFault Limits :=
  (Limits.read value).mapError .limits

/-- The settings of environment variables, which are looked at in a fixed order. -/
def ofVariables (environment : String → Option String) : Except SettingsFault Settings := do
  let decisionCache ←
    setting environment "PURIFIER_FILTER_PATH_CACHE" readLimits default.decisionCache
  let expressionCache ←
    setting environment "PURIFIER_PARSER_NODE_CACHE" readLimits default.expressionCache
  let propagateViews ←
    setting environment "PURIFIER_PROPAGATE_VIEW_TO_NESTED_FILTERS" readBool default.propagateViews
  let implicitBase ←
    setting environment "PURIFIER_IMPLICITLY_INCLUDE_BASE_FIELDS" readBool default.implicitBase
  let unlabelledInBase ←
    setting environment "PURIFIER_ADD_NON_ANNOTATED_FIELDS_TO_BASE_VIEW" readBool
      default.unlabelledInBase
  let settings : Settings :=
    ⟨decisionCache, expressionCache, propagateViews, implicitBase, unlabelledInBase⟩
  settings.check
  pure settings

/-! ## Settings that hold -/

/-- Settings that hold from then on.  They are refused if they are not supported, and if others
hold already. -/
def install (installed : Option Settings) (settings : Settings) :
    Except SettingsFault Settings := do
  settings.check
  match installed with
  | some _ => .error .conflict
  | none => pure settings

end Settings

end FieldFilter
