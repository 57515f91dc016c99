import FieldFilter.Session

/-!
# Metrics

Caches and registries tell about themselves under names that start with a prefix of their own.
Sources are read one after the other into one map; of two values under one name the later one
stays.

Main definitions:

* `Metric`, `Metrics` — a value, and values by name in increasing order;
* `Cache.Stats.hitRate`, `Cache.Stats.missRate` — the two rates of a cache;
* `Cache.Stats.metrics`, `Registry.metrics` — what is told;
* `Session.metrics` — what a whole session tells.
-/

namespace FieldFilter

/-- A value that is told: a count, or a rate. -/
inductive Metric where
  | count (value : Nat)
  | rate (value : Float)

/-- Values by name, in increasing order of the names. -/
abbrev Metrics := List (String × Metric)

namespace Metrics

/-- Values with one more; a value under that name is replaced. -/
def put (name : String) (value : Metric) : Metrics → Metrics
  | [] => [(name, value)]
  | (head, other) :: tail =>
    if name < head then (name, value) :: (head, other) :: tail
    else if name = head then (name, value) :: tail
    else (head, other) :: put name value tail

/-- Values with further ones, each under its name after a prefix. -/
def putAll (metrics : Metrics) (stem : String) (values : List (String × Metric)) : Metrics :=
  values.foldl (fun metrics entry => metrics.put (stem ++ entry.1) entry.2) metrics

end Metrics

namespace Cache.Stats

def requests (stats : Stats) : Nat :=
  stats.hits + stats.misses

/-- The share of look-ups that were hits, zero if there were none. -/
def hitRate (stats : Stats) : Float :=
  if stats.requests = 0 then 0
  else stats.hits.toUInt64.toFloat / stats.requests.toUInt64.toFloat

/-- The share of look-ups that were misses, zero if there were none. -/
def missRate (stats : Stats) : Float :=
  if stats.requests = 0 then 0 else 1 - stats.hitRate

def metrics (stats : Stats) : List (String × Metric) :=
  [("hitCount", .count stats.hits), ("missCount", .count stats.misses),
    ("requestCount", .count stats.requests), ("evictionCount", .count stats.evictions),
    ("size", .count stats.entries), ("hitRate", .rate stats.hitRate),
    ("missRate", .rate stats.missRate)]

end Cache.Stats

def Registry.metrics (registry : Registry) : List (String × Metric) :=
  [("lookupCount", .count registry.lookups), ("unknownTypeCount", .count registry.unknown),
    ("size", .count registry.size)]

/-- What a session tells: about its parsed expressions, its decisions and its types. -/
def Session.metrics (session : Session) : Metrics :=
  let metrics : Metrics := []
  let metrics := metrics.putAll "purifier.parser.nodeCache." session.expressions.stats.metrics
  let metrics := metrics.putAll "purifier.filter.pathCache." session.decisions.stats.metrics
  metrics.putAll "purifier.introspector." session.registry.metrics

end FieldFilter
