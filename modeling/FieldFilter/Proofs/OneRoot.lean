import FieldFilter.Proofs.Lineage
import FieldFilter.Proofs.Paced
import FieldFilter.Proofs.Transparency

/-!
# One root, one cache

Decisions may show that they were remembered, when two paths with one key are judged differently.
In walks from one root this cannot happen, as far as the names are without dots: there a path is
determined by its key.  So a host may keep one cache of decisions for any number of passes over
values of one type, under any filters and with any placeholders, and whatever the cache still holds
or has dropped, each pass gives what it gives without a cache.

* `Path.Keyed` — paths that are determined by their keys.
* `Schema.Region.Right` — what may be remembered about the paths of a region.
* **`Session.walk_of_keyed`** — one pass, by the invariant that whatever is remembered is right.
* `Pass`, `Desk.prunings`, `Desk.questions` — passes one after the other.
* **`Desk.prunings_of_oneRoot`** — passes from one root do not show the cache, since the paths that
  they ask about are determined by their keys.
-/

namespace FieldFilter

/-! ## Paths that are determined by their keys -/

/-- Among paths of a kind, those that decisions are remembered about are determined by their
keys. -/
def Path.Keyed (Kind : Path → Prop) : Prop :=
  ∀ path path', Kind path → Kind path' → path.isCacheable = true → path'.isCacheable = true →
    path.key = path'.key → path = path'

/-- Of listed paths it can be checked. -/
instance (paths : List Path) : Decidable (Path.Keyed (· ∈ paths)) :=
  decidable_of_iff
    (∀ path ∈ paths, ∀ path' ∈ paths, path.isCacheable = true → path'.isCacheable = true →
      path.key = path'.key → path = path')
    ⟨fun h path path' hpath hpath' => h path hpath path' hpath',
      fun h path hpath path' hpath' => h path path' hpath hpath'⟩

namespace Schema

variable {schema : Schema}

/-- A path of a region. -/
def Region.Has (region : schema.Region) (path : Path) : Prop :=
  ∃ type value, region.Holds type path value

/-- What may be remembered about the paths of a region: of every path with the key, under the
filter of the key, it is the judgement. -/
def Region.Right [Glob.Engine] (region : schema.Region) (policy : ViewPolicy) (key : DecisionKey)
    (included : Bool) : Prop :=
  ∀ path filter, region.Has path → Session.memoKey? path filter = some key →
    schema.judge policy filter path = .ok included

/-- From one root, paths that names without a dot lead to are determined by their keys. -/
theorem keyed_territory (h : schema.Unambiguous) (root : FieldType) :
    Path.Keyed (schema.territory h root).Has := by
  rintro path path' ⟨type, value, hplace, -⟩ ⟨type', value', hplace', -⟩
  exact hplace.eq_of_key_eq hplace'

end Schema

/-- Where a path is determined by its key, its judgement may be remembered. -/
theorem Path.Keyed.right [Glob.Engine] {schema : Schema} {region : schema.Region}
    (h : Path.Keyed region.Has) {policy : ViewPolicy} {filter : String} {path : Path}
    (hpath : region.Has path) {key : DecisionKey}
    (hkey : Session.memoKey? path filter = some key) {included : Bool}
    (hjudge : schema.judge policy filter path = .ok included) :
    region.Right policy key included := by
  intro other otherFilter hother hsame
  obtain ⟨hcacheable, rfl⟩ := Session.memoKey?_eq_some hkey
  obtain ⟨hotherCacheable, hkeys⟩ := Session.memoKey?_eq_some hsame
  obtain ⟨hpaths, rfl⟩ := DecisionKey.mk.inj hkeys
  obtain rfl := h path other hpath hother hcacheable hotherCacheable hpaths
  exact hjudge

/-! ## One pass -/

section Passes

variable [Glob.Engine] {schema : Schema} {policy : ViewPolicy} {filter : String}
  {region : schema.Region}

/-- A state with a truthful session and filter, in which whatever is remembered about the paths of
a region is right. -/
abbrev Filtering.State.Sound (region : schema.Region) (policy : ViewPolicy) (filter : String) :
    Filtering.State → Prop :=
  Truthful schema policy filter fun decisions => decisions.Holds (region.Right policy)

/-- **A path of the region is answered by its judgement**, from memory or not, and what is
remembered stays right. -/
theorem Filtering.includes_sound (h : Path.Keyed region.Has) {path : Path}
    (hpath : region.Has path) :
    (agreement id (State.Sound region policy filter)).Rel (includes path)
      (schema.judge policy filter path) := by
  rintro state ⟨hsession, hbound, hright⟩
  obtain ⟨later, hanswer, hafter⟩ := perform_includes ⟨hsession, hbound, rfl⟩ path
  rw [hanswer, mapError_id]
  refine ⟨?_, hafter.session, hafter.bound, ?_⟩
  · exact Cache.consult_of_holds hright _ _ fun key included hkey hincluded =>
      hincluded path filter hpath hkey
  · rw [hafter.decisions]
    exact Cache.holds_consult hright _ _ fun key included hkey hjudge => h.right hpath hkey hjudge

/-- A walk on its way through a region: what is remembered is right, and every path that was asked
about is one of the region. -/
structure Paced.State.Sound (region : schema.Region) (policy : ViewPolicy) (filter : String)
    (state : Paced.State) : Prop where
  filtering : state.filtering.Sound region policy filter
  asked : ∀ path ∈ state.asked, region.Has path

namespace Paced

/-- Waiting changes nothing about what is right. -/
theorem sound_wait {state : Filtering.State} (h : state.Sound region policy filter)
    (pause : Nat) : (state.wait pause).Sound region policy filter :=
  ⟨⟨h.session.schema, h.session.policy, h.session.expressions⟩, h.bound, h.decisions⟩

theorem includes_sound (h : Path.Keyed region.Has) (pace : Pace) {path : Path}
    (hpath : region.Has path) :
    (Filtering.agreement id (State.Sound region policy filter)).Rel (includes pace path)
      (schema.judge policy filter path) := by
  rintro ⟨filtering, asked⟩ ⟨hfiltering, hasked⟩
  obtain ⟨hanswer, hafter⟩ :=
    Filtering.includes_sound h hpath _ (sound_wait hfiltering (pace asked))
  refine ⟨hanswer, hafter, ?_⟩
  exact List.forall_mem_append.2 ⟨hasked, List.forall_mem_singleton.2 hpath⟩

theorem describe_sound (type : String) :
    (Filtering.agreement .lookup (State.Sound region policy filter)).Rel (describe type)
      (schema.describe type) := by
  rintro ⟨filtering, asked⟩ ⟨hfiltering, hasked⟩
  obtain ⟨hanswer, hafter⟩ := Filtering.describe_agrees type filtering hfiltering
  exact ⟨hanswer, hafter, hasked⟩

/-- In a region in which paths are determined by their keys, a walk is told what the schema says. -/
theorem guides_sound (h : Path.Keyed region.Has) (pace : Pace) (placeholder : Option Json) :
    (Filtering.agreement id (State.Sound region policy filter)).Guides (.ofRegion region)
      (guide pace placeholder) (schema.guide policy filter placeholder) where
  describe type _ _ _ _ _ _ h := Filtering.describe_bind_agrees (describe_sound type) h
  includes type _ value _ hpair := includes_sound h pace ⟨type, value, hpair.2⟩
  placeholder := rfl

end Paced

/-- **A pass through a region in which paths are determined by their keys** gives what it gives
without memory, asks about paths of the region alone, and remembers nothing that is not right. -/
theorem Session.walk_of_keyed (h : Path.Keyed region.Has) {session : Session} {bound : BoundFilter}
    (hsound : Filtering.State.Sound region policy filter ⟨bound, session⟩) {root : Owner}
    {value : Json} (hplace : region.Holds (Json.rootType root) [] value) (pace : Pace)
    (placeholder : Option Json) :
    (session.walk bound pace placeholder root value).1
        = value.prune (schema.guide policy filter placeholder) root
      ∧ (session.walk bound pace placeholder root value).2.Sound region policy filter := by
  have hpair : (Schema.Pairing.ofRegion region).Rel (Json.rootType root) [] value value :=
    ⟨rfl, hplace⟩
  obtain ⟨hanswer, hafter⟩ := Simulation.prune (Paced.guides_sound h pace placeholder) hpair
    ⟨⟨bound, session⟩, []⟩ ⟨hsound, nofun⟩
  exact ⟨hanswer.trans (Filtering.mapError_id _), hafter⟩

/-! ## Passes one after the other -/

/-- A pass over a value under one of the filters of a desk, at a pace. -/
structure Pass where
  context : Nat
  pace : Pace
  placeholder : Option Json
  value : Json

/-- What a pass gives with nothing remembered. -/
def Pass.verdict (schema : Schema) (policy : ViewPolicy) (filters : Nat → String) (root : Owner)
    (pass : Pass) : Except Fault Json :=
  pass.value.prune (schema.guide policy (filters pass.context) pass.placeholder) root

namespace Desk

/-- A pass over a value of a type. -/
def walk (desk : Desk) (root : Owner) (pass : Pass) : Except Fault Json × Paced.State :=
  desk.session.walk (desk.contexts pass.context) pass.pace pass.placeholder root pass.value

/-- A desk after a pass. -/
def after (desk : Desk) (root : Owner) (pass : Pass) : Desk :=
  let state := (desk.walk root pass).2.filtering
  ⟨state.session, fun context =>
    if context = pass.context then state.bound else desk.contexts context⟩

/-- What a list of passes gives, one after the other. -/
def prunings (desk : Desk) (root : Owner) : List Pass → List (Except Fault Json)
  | [] => []
  | pass :: rest => (desk.walk root pass).1 :: prunings (desk.after root pass) root rest

/-- The paths that a list of passes asks about. -/
def questions (desk : Desk) (root : Owner) : List Pass → List Path
  | [] => []
  | pass :: rest => (desk.walk root pass).2.asked ++ questions (desk.after root pass) root rest

/-- A truthful desk on which whatever is remembered about the paths of a region is right. -/
structure Sound (region : schema.Region) (policy : ViewPolicy) (filters : Nat → String)
    (desk : Desk) : Prop where
  truthful : desk.Truthful schema policy filters
  right : desk.session.decisions.Holds (region.Right policy)

theorem sound_ofSettings (settings : Settings) (types : List TypeDecl) (filters : Nat → String)
    (roots : Nat → Option Owner)
    (region : ((Schema.empty settings.unlabelledInBase).registerAll types).Region) :
    (ofSettings settings types filters roots).Sound region settings.policy filters where
  truthful := truthful_ofSettings settings types filters roots
  right := Cache.holds_empty _ _

variable {desk : Desk} {filters : Nat → String} {root : Owner}

/-- One pass gives its verdict, asks about paths of the region, and leaves the desk sound. -/
theorem walk_of_keyed (h : Path.Keyed region.Has) (hdesk : desk.Sound region policy filters)
    {pass : Pass} (hplace : region.Holds (Json.rootType root) [] pass.value) :
    (desk.walk root pass).1 = pass.verdict schema policy filters root
      ∧ (∀ path ∈ (desk.walk root pass).2.asked, region.Has path)
      ∧ (desk.after root pass).Sound region policy filters := by
  have hstate : Filtering.State.Sound region policy (filters pass.context)
      ⟨desk.contexts pass.context, desk.session⟩ :=
    ⟨hdesk.truthful.session, hdesk.truthful.contexts pass.context, hdesk.right⟩
  obtain ⟨hanswer, hfiltering, hasked⟩ :=
    Session.walk_of_keyed h hstate hplace pass.pace pass.placeholder
  exact ⟨hanswer, hasked, hdesk.truthful.resume hfiltering.session hfiltering.bound,
    hfiltering.decisions⟩

/-- **Passes through a region in which paths are determined by their keys** give their verdicts, and
ask about paths of the region alone. -/
theorem prunings_of_keyed (h : Path.Keyed region.Has) (hdesk : desk.Sound region policy filters)
    {passes : List Pass}
    (hplaces : ∀ pass ∈ passes, region.Holds (Json.rootType root) [] pass.value) :
    desk.prunings root passes = passes.map (Pass.verdict schema policy filters root)
      ∧ ∀ path ∈ desk.questions root passes, region.Has path := by
  induction passes generalizing desk with
  | nil => exact ⟨rfl, nofun⟩
  | cons pass rest ih =>
      obtain ⟨hplace, hrest⟩ := List.forall_mem_cons.1 hplaces
      obtain ⟨hanswer, hasked, hafter⟩ := walk_of_keyed h hdesk hplace
      obtain ⟨hanswers, hquestions⟩ := ih hafter hrest
      refine ⟨?_, List.forall_mem_append.2 ⟨hasked, hquestions⟩⟩
      rw [prunings, List.map_cons, hanswer, hanswers]

/-- **Passes from one root do not show the cache of decisions.**  Over values without dots in their
names, and where no type has two visible fields of one name, any number of passes from one root
ask about paths that are determined by their keys; and whatever the limits of the cache are, each
pass gives what it gives on a desk without one. -/
theorem prunings_of_oneRoot (settings : Settings) (types : List TypeDecl)
    (filters : Nat → String) (roots : Nat → Option Owner) (root : Owner)
    (hschema : ((Schema.empty settings.unlabelledInBase).registerAll types).Unambiguous)
    {passes : List Pass} (hdotless : ∀ pass ∈ passes, pass.value.Dotless) :
    Path.Keyed (· ∈ (ofSettings settings types filters roots).questions root passes)
      ∧ (ofSettings settings types filters roots).prunings root passes
        = (ofSettings { settings with decisionCache := .ofSize 0 } types filters roots).prunings
            root passes := by
  have hkeyed := Schema.keyed_territory hschema (Json.rootType root)
  have hplaces : ∀ pass ∈ passes, (Schema.territory _ hschema (Json.rootType root)).Holds
      (Json.rootType root) [] pass.value :=
    fun pass hpass => ⟨.nil _, hdotless pass hpass⟩
  obtain ⟨hanswers, hquestions⟩ :=
    prunings_of_keyed hkeyed (sound_ofSettings settings types filters roots _) hplaces
  obtain ⟨hplain, -⟩ := prunings_of_keyed hkeyed
    (sound_ofSettings { settings with decisionCache := .ofSize 0 } types filters roots _) hplaces
  refine ⟨fun path path' hpath hpath' => ?_, hanswers.trans hplain.symm⟩
  exact hkeyed path path' (hquestions path hpath) (hquestions path' hpath')

end Desk

end Passes

namespace Desk

/-- A shelf has books by their titles and an owner, who is a person as the author of a book is. -/
def shelfTypes : List TypeDecl :=
  [⟨"Shelf", [⟨"books", [], false, false, .map (some "Book")⟩,
      ⟨"owner", [], false, true, .described "Person"⟩]⟩,
    ⟨"Book", [⟨"author", [], false, false, .described "Person"⟩,
      ⟨"pages", ["long"], false, false, .untyped⟩]⟩,
    ⟨"Person", [⟨"name", [], false, false, .untyped⟩]⟩]

/-- A shelf of one book. -/
def shelf (title : String) : Json :=
  .object [("books", .object [(title, .object [("author", .object [("name", .string "a")]),
      ("pages", .number 7 0)])]),
    ("owner", .object [("name", .string "b")])]

/-- Two shelves, each under two filters and with more and more time between the questions. -/
def shelfPasses : List Pass :=
  [⟨0, List.length, none, shelf "p"⟩, ⟨1, List.length, some .null, shelf "p"⟩,
    ⟨0, List.length, none, shelf "q"⟩, ⟨1, List.length, some .null, shelf "q"⟩]

/-- A desk for shelves, with the authors of books in one filter and all but their pages in the
others. -/
def shelfDesk (limits : Limits) : Desk :=
  ofSettings { Settings.default with decisionCache := limits } shelfTypes
    (fun context => if context = 0 then "books.*.author,name" else "-pages") fun _ => none

/-- A cache for two decisions, which are forgotten after a while, does not show on the shelves. -/
theorem prunings_shelfPasses :
    let desk := shelfDesk { Limits.ofSize 2 with expireAfterAccess := some 3 }
    Path.Keyed (· ∈ desk.questions (.described "Shelf") shelfPasses)
      ∧ desk.prunings (.described "Shelf") shelfPasses
        = (shelfDesk (.ofSize 0)).prunings (.described "Shelf") shelfPasses :=
  prunings_of_oneRoot _ _ _ _ _ (by decide +kernel) (by decide +kernel)

end Desk

end FieldFilter
