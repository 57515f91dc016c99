import FieldFilter.Json.Record
import FieldFilter.Query
import FieldFilter.Source

/-!
# Filters of requests

A request names its filter in a query parameter; without it a default filter applies.  For one
request and its response the filter can be adjusted by a customizer, which is asked once for each
type a response value starts from.  Only successful responses are filtered.

Main definitions:

* `Request`, `RequestSettings`, `Customizer` — what is known beforehand;
* `Exchange` — one request with the filters resolved so far;
* `Exchange.filterFor` — the filter for values of a type;
* `Exchange.source` — the binding as a source of filters.
-/

namespace FieldFilter

structure Request where
  method : String
  uri : String
  headers : List (String × String)
  deriving Repr

/-- Where a filter is looked for in a request. -/
structure RequestSettings where
  param : String
  defaultFilter : Option String
  deriving DecidableEq, Repr

/-- The parameter `fields`, and no filter without it. -/
def RequestSettings.default : RequestSettings :=
  ⟨"fields", none⟩

namespace RequestSettings

/-- Settings as a record of a JSON text; no more is known of a fault than that there is one. -/
def record : Record Unit RequestSettings where
  fields := ["filter_param", "default_filter"]
  set field token settings :=
    match token with
    | .string (some text) =>
      if field = "filter_param" then .ok { settings with param := text }
      else .ok { settings with defaultFilter := some text }
    | .null =>
      if field = "filter_param" then .error ()
      else .ok { settings with defaultFilter := none }
    | _ => .error ()
  malformed := ()

/-- The settings of a JSON text, if it is of their form. -/
def ofJson? (text : String) : Option RequestSettings :=
  (record.read default text).toOption

end RequestSettings

/-- Adjusts the filter of a request for values of a type.  The number of calls made before is
handed over too, so the answers may change from call to call. -/
abbrev Customizer := Nat → Option String → Request → Option Owner → Option String

/-- A call of a customizer: the filter and the type it was asked about. -/
structure CustomizerCall where
  filter : Option String
  root : Option Owner
  deriving DecidableEq, Repr

/-- One request and its response. -/
structure Exchange where
  settings : RequestSettings
  customizer : Option Customizer
  request : Request
  status : Nat
  /-- The filter that the request names. -/
  requested : Option String
  resolved : List (Option Owner × Option String)
  /-- The calls of the customizer, the first one first. -/
  calls : List CustomizerCall

namespace Exchange

/-- A request whose filters were not asked for yet. -/
def ofRequest (settings : RequestSettings) (customizer : Option Customizer) (request : Request)
    (status : Nat) : Exchange :=
  ⟨settings, customizer, request, status, Query.first? request.uri settings.param, [], []⟩

/-- The filter before it is adjusted. -/
def proposed (binding : Exchange) : Option String :=
  binding.requested <|> binding.settings.defaultFilter

/-- The filter for values of a type, adjusted by the customizer if there is one. -/
def resolve (binding : Exchange) (root : Option Owner) : Option String × Exchange :=
  match binding.customizer with
  | none => (binding.proposed, binding)
  | some customize =>
    (customize binding.calls.length binding.proposed binding.request root,
      { binding with calls := binding.calls ++ [⟨binding.proposed, root⟩] })

/-- The filter for values of a type.  It is resolved the first time it is asked for and kept. -/
def filterFor (binding : Exchange) (root : Option Owner) :
    Option String × Exchange :=
  match binding.resolved.lookup root with
  | some filter => (filter, binding)
  | none =>
    let (filter, binding) := binding.resolve root
    (filter, { binding with resolved := binding.resolved ++ [(root, filter)] })

/-- Whether the response is filtered: it is successful, and the request names a filter that takes
something away, or names none and the default filter does. -/
def isEnabled (binding : Exchange) : Bool :=
  200 ≤ binding.status && binding.status < 300 && FilterSource.isActive binding.proposed

def source : FilterSource Exchange where
  isEnabled := isEnabled
  filterFor root binding := binding.filterFor root

end Exchange

end FieldFilter
