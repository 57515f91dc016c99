import FieldFilter.Proofs.OneRoot

/-!
# Types described anew

A host may describe a type anew between two questions.  Decisions that are remembered are not looked
at then: the registry and the cache of decisions know nothing of each other, and a key has no trace
of the descriptions it was decided by.  So an answer may be that of an earlier time.  It is never
worse than that, and how late it can be is told by the types along the path: where each of them is
still described as it was, the earlier decision is the present one.

* `Schema.AgreesOn`, `Schema.judge_congr` — a decision reads the types along its path alone.
* `Turn`, `Desk.replies` — types that are described and calls that are answered, one after the
  other.
* `Turn.inquiries` — the calls, each with the descriptions of its time.
* `Inquiry.Steady` — no call is judged differently from an earlier one about the same path.
* `Desk.Explained` — how a reply may come about.
* **`Desk.replies_of_keyed`** — where paths are determined by their keys, a reply is the verdict of
  its time, or that of an earlier time when a type along the path was described differently; and all
  replies are those of their times, under all limits, just if the calls are steady.
* `Desk.replies_relabelledOrder_ne` — a reply that came too late.
-/

namespace FieldFilter

/-! ## What a decision reads -/

namespace Matching

variable {m : Type → Type} [Monad m] {lookup lookup' : TypeLookup m}

/-- Two lookups give the same answers about an owner. -/
structure SameAt (lookup lookup' : TypeLookup m) (owner : Owner) : Prop where
  members : ∀ label, lookup.members owner label = lookup'.members owner label
  isUnwrapped : ∀ field, lookup.isUnwrapped owner field = lookup'.isUnwrapped owner field

theorem firstView_congr {owner : Owner} (h : SameAt lookup lookup' owner) (field : String)
    (nodes : List Node) :
    firstView lookup owner field nodes = firstView lookup' owner field nodes := by
  induction nodes with
  | nil => rfl
  | cons node rest ih => simp only [firstView, h.members, ih]

theorem inSomeView_congr {owner : Owner} (h : SameAt lookup lookup' owner) (policy : ViewPolicy)
    (field : String) (labels : List String) :
    inSomeView lookup policy owner field labels = inSomeView lookup' policy owner field labels := by
  induction labels with
  | nil => rfl
  | cons label rest ih => simp only [inSomeView, h.members, ih]

theorem inViews_congr {owner : Owner} (h : SameAt lookup lookup' owner) (policy : ViewPolicy)
    (labels : List String) (field : String) :
    inViews lookup policy labels owner field = inViews lookup' policy labels owner field := by
  cases labels with
  | nil => simp only [inViews, h.members]
  | cons label rest => exact inSomeView_congr h policy field (label :: rest)

/-- One field asks about the type that encloses it, and about no other. -/
theorem step_congr {element : Element}
    (h : ∀ type ∈ element.described?, SameAt lookup lookup' (.described type))
    (policy : ViewPolicy) (isLast : Bool) (cursor : Cursor) :
    step lookup policy isLast cursor element = step lookup' policy isLast cursor element := by
  obtain ⟨name, _ | ⟨type | type⟩⟩ := element
  · rfl
  · have hsame : SameAt lookup lookup' (.described type) := h type rfl
    simp only [step, viewNode, passesOver, inViews_congr hsame, firstView_congr hsame,
      hsame.isUnwrapped]
  · rfl

/-- **Following a path asks about the types along it alone.** -/
theorem follow_congr {path : Path}
    (h : ∀ element ∈ path, ∀ type ∈ element.described?, SameAt lookup lookup' (.described type))
    (policy : ViewPolicy) (cursor : Cursor) :
    follow lookup policy cursor path = follow lookup' policy cursor path := by
  induction path generalizing cursor with
  | nil => rfl
  | cons element rest ih =>
    obtain ⟨helement, hrest⟩ := List.forall_mem_cons.1 h
    simp only [follow, step_congr helement, ih hrest]

end Matching

namespace Schema

variable {schema schema' : Schema} {path : Path}

/-- Two schemas describe the types along a path in the same way. -/
def AgreesOn (schema schema' : Schema) (path : Path) : Prop :=
  ∀ element ∈ path, ∀ type ∈ element.described?, schema.find? type = schema'.find? type

/-- **A decision reads the types along its path alone.** -/
theorem judge_congr [Glob.Engine] (h : schema.AgreesOn schema' path) (policy : ViewPolicy)
    (filter : String) :
    schema.judge policy filter path = schema'.judge policy filter path := by
  have hsame : ∀ element ∈ path, ∀ type ∈ element.described?,
      Matching.SameAt schema.lookup schema'.lookup (.described type) := by
    intro element hmem type htype
    have hdescribe : schema.describe type = schema'.describe type := by
      rw [describe, describe, h element hmem type htype]
    constructor
    · intro label
      simp only [lookup, TypeLookup.ofDescriptions, hdescribe]
    · intro field
      simp only [lookup, TypeLookup.ofDescriptions, hdescribe]
  simp only [judge, Expression.includes, Matching.follow_congr hsame]

/-- The filter that asks for everything includes every path, whatever the types are. -/
theorem judge_everything [Glob.Engine] (schema : Schema) (policy : ViewPolicy) (path : Path) :
    schema.judge policy Expression.everything path = .ok true := by
  rw [judge, if_pos]
  simp

end Schema

/-! ## Turns -/

/-- One turn of a host: a type is described, perhaps anew, or a path is asked about. -/
inductive Turn where
  | register (decl : TypeDecl)
  | ask (call : Call)

/-- A call, and the descriptions that there are at its time. -/
structure Inquiry where
  schema : Schema
  call : Call

/-- The calls among some turns, each with the descriptions of its time. -/
def Turn.inquiries (schema : Schema) : List Turn → List Inquiry
  | [] => []
  | .register decl :: rest => inquiries (schema.register decl) rest
  | .ask call :: rest => ⟨schema, call⟩ :: inquiries schema rest

namespace Inquiry

variable {policy : ViewPolicy} {filters : Nat → String}

/-- The answer to a call by the descriptions of its time, with nothing remembered. -/
def verdict [Glob.Engine] (policy : ViewPolicy) (filters : Nat → String) (inquiry : Inquiry) :
    Except Fault Bool :=
  inquiry.call.verdict inquiry.schema policy filters

/-- A call of some time as a question to the cache of decisions. -/
def question [Glob.Engine] (policy : ViewPolicy) (filters : Nat → String) (inquiry : Inquiry) :
    Cache.Question DecisionKey Bool Fault :=
  inquiry.call.question inquiry.schema policy filters

/-- Two calls are about the same path under the same filter, and what is decided about it may be
remembered. -/
structure Repeats (filters : Nat → String) (earlier later : Inquiry) : Prop where
  path : earlier.call.path = later.call.path
  filter : filters earlier.call.context = filters later.call.context
  cacheable : later.call.path.isCacheable = true

instance (earlier later : Inquiry) : Decidable (Repeats filters earlier later) :=
  decidable_of_iff
    (earlier.call.path = later.call.path
      ∧ filters earlier.call.context = filters later.call.context
      ∧ later.call.path.isCacheable = true)
    ⟨fun ⟨hpath, hfilter, hcacheable⟩ => ⟨hpath, hfilter, hcacheable⟩,
      fun ⟨hpath, hfilter, hcacheable⟩ => ⟨hpath, hfilter, hcacheable⟩⟩

/-- No call is judged differently from an earlier one about the same path under the same filter.  An
earlier fault does not count, as it is not remembered. -/
def Steady [Glob.Engine] (policy : ViewPolicy) (filters : Nat → String)
    (inquiries : List Inquiry) : Prop :=
  inquiries.Pairwise fun earlier later => Repeats filters earlier later → ∀ included,
    earlier.verdict policy filters = .ok included → later.verdict policy filters = .ok included

instance [Glob.Engine] (inquiries : List Inquiry) : Decidable (Steady policy filters inquiries) :=
  inferInstanceAs (Decidable (List.Pairwise _ _))

/-- Where paths are determined by their keys, calls with one key are about one path. -/
theorem repeats_of_key?_eq {Kind : Path → Prop} (h : Path.Keyed Kind) {earlier later : Inquiry}
    (hearlier : Kind earlier.call.path) (hlater : Kind later.call.path) {key : DecisionKey}
    (hkey : earlier.call.key? filters = some key) (hsame : later.call.key? filters = some key) :
    Repeats filters earlier later := by
  obtain ⟨hcacheable, rfl⟩ := Session.memoKey?_eq_some hkey
  obtain ⟨hcacheable', hkeys⟩ := Session.memoKey?_eq_some hsame
  obtain ⟨hpaths, hfilters⟩ := DecisionKey.mk.inj hkeys
  exact ⟨h _ _ hearlier hlater hcacheable hcacheable' hpaths, hfilters, hcacheable'⟩

/-- Calls about one path have one key, unless their filter asks for everything. -/
theorem Repeats.key?_eq {earlier later : Inquiry} (h : Repeats filters earlier later)
    (hfilter : filters later.call.context ≠ Expression.everything) :
    ∃ key, earlier.call.key? filters = some key ∧ later.call.key? filters = some key := by
  refine ⟨⟨later.call.path.key, filters later.call.context⟩, ?_, ?_⟩
  · rw [Call.key?, h.path, h.filter, Session.memoKey?, if_neg hfilter, Session.decisionKey?,
      if_pos h.cacheable]
  · rw [Call.key?, Session.memoKey?, if_neg hfilter, Session.decisionKey?, if_pos h.cacheable]

/-- Where paths are determined by their keys, calls are steady just if they are coherent
questions. -/
theorem coherent_questions_iff [Glob.Engine] {inquiries : List Inquiry}
    (h : Path.Keyed (· ∈ inquiries.map (·.call.path))) :
    Cache.Question.Coherent (inquiries.map (question policy filters))
      ↔ Steady policy filters inquiries := by
  rw [Cache.Question.Coherent, List.pairwise_map, Steady]
  constructor
  · intro hcoherent
    refine hcoherent.imp fun {earlier later} hpair hrepeats included hearlier => ?_
    by_cases hfilter : filters later.call.context = Expression.everything
    · -- what asks for everything is not remembered, and always judged in the same way
      rw [verdict, Call.verdict, hrepeats.filter, hfilter, Schema.judge_everything] at hearlier
      rw [verdict, Call.verdict, hfilter, Schema.judge_everything, hearlier]
    · obtain ⟨key, hkey, hsame⟩ := hrepeats.key?_eq hfilter
      exact hpair key included hkey hsame hearlier
  · intro hsteady
    refine hsteady.imp_of_mem fun {earlier later} hmem hmem' hpair key included hkey hsame => ?_
    exact hpair (repeats_of_key?_eq h (List.mem_map_of_mem hmem) (List.mem_map_of_mem hmem') hkey
      hsame) included

end Inquiry

namespace Desk

/-- A desk after a type was described.  What was decided before is left as it is. -/
def register (desk : Desk) (decl : TypeDecl) : Desk :=
  { desk with
    session := { desk.session with registry := desk.session.registry.register decl } }

/-- The replies to the calls among some turns. -/
def replies [Glob.Engine] (desk : Desk) : List Turn → List (Except Fault Bool)
  | [] => []
  | .register decl :: rest => replies (desk.register decl) rest
  | .ask call :: rest => (desk.ask call).1 :: replies (desk.ask call).2 rest

variable {schema : Schema} {policy : ViewPolicy} {filters : Nat → String} {desk : Desk}

/-- A desk goes on truthfully about the schema with the new description. -/
theorem Truthful.register [Glob.Engine] (h : desk.Truthful schema policy filters)
    (decl : TypeDecl) :
    (desk.register decl).Truthful (schema.register decl) policy filters where
  session := ⟨congrArg (Schema.register · decl) h.session.schema, h.session.policy,
    h.session.expressions⟩
  contexts := h.contexts

/-- **The calls among some turns are questions to the cache of decisions**, each about the
descriptions of its time. -/
theorem consults_replies [Glob.Engine] (h : desk.Truthful schema policy filters)
    (turns : List Turn) :
    desk.session.decisions.Consults
      ((Turn.inquiries schema turns).map (Inquiry.question policy filters)) (desk.replies turns) := by
  induction turns generalizing desk schema with
  | nil => exact .nil
  | cons turn rest ih =>
    cases turn with
    | register decl => exact ih (h.register decl)
    | ask call =>
      obtain ⟨now, later, hanswer, hdecisions, hafter⟩ := ask_eq h call
      have hrest := ih hafter
      rw [hdecisions] at hrest
      rw [replies, hanswer]
      exact .cons now later hrest

/-- How a reply may come about: by the descriptions of its time, or by an earlier call about the same
path, at whose time a type along the path was described differently. -/
def Explained [Glob.Engine] (policy : ViewPolicy) (filters : Nat → String) (before : List Inquiry)
    (inquiry : Inquiry) (reply : Except Fault Bool) : Prop :=
  reply = inquiry.verdict policy filters
    ∨ ∃ earlier ∈ before, Inquiry.Repeats filters earlier inquiry
        ∧ ¬ earlier.schema.AgreesOn inquiry.schema inquiry.call.path
        ∧ ∃ included, earlier.verdict policy filters = .ok included ∧ reply = .ok included

/-- Where paths are determined by their keys, each reply is explained. -/
theorem explained_of_consults [Glob.Engine] {limits : Limits} {inquiries : List Inquiry}
    {replies : List (Except Fault Bool)}
    (h : (Cache.empty limits : Cache DecisionKey Bool).Consults
      (inquiries.map (Inquiry.question policy filters)) replies)
    (hkeyed : Path.Keyed (· ∈ inquiries.map (·.call.path)))
    {before after : List Inquiry} {inquiry : Inquiry}
    (hsplit : inquiries = before ++ inquiry :: after) :
    ∃ reply, replies[before.length]? = some reply
      ∧ Explained policy filters before inquiry reply := by
  have hquestions : inquiries.map (Inquiry.question policy filters)
      = before.map (Inquiry.question policy filters)
        ++ inquiry.question policy filters :: after.map (Inquiry.question policy filters) := by
    rw [hsplit, List.map_append, List.map_cons]
  have hempty : (Cache.empty limits : Cache DecisionKey Bool).Holds
      (Cache.Question.Recorded ([] : List (Cache.Question DecisionKey Bool Fault))) :=
    Cache.holds_empty _ limits
  obtain ⟨reply, hreply, horigin⟩ := h.origin hempty hquestions
  rw [List.length_map] at hreply
  refine ⟨reply, hreply, ?_⟩
  rcases horigin with hnow | ⟨question, hmem, key, included, hkey, hsame, hvalue, hanswer⟩
  · exact .inl hnow
  · obtain ⟨earlier, hearlier, rfl⟩ := List.mem_map.1 hmem
    have hpath : inquiry.call.path ∈ inquiries.map (·.call.path) := by simp [hsplit]
    have hpath' : earlier.call.path ∈ inquiries.map (·.call.path) :=
      List.mem_map_of_mem (hsplit ▸ List.mem_append_left _ hearlier)
    have hrepeats := Inquiry.repeats_of_key?_eq hkeyed hpath' hpath hkey hsame
    by_cases hagrees : earlier.schema.AgreesOn inquiry.schema inquiry.call.path
    · -- the types along the path are described as they were, so the decision is the present one
      refine .inl (hanswer.trans ?_)
      rw [← hvalue, Inquiry.verdict, Call.verdict, ← Schema.judge_congr hagrees, ← hrepeats.filter,
        ← hrepeats.path]
      rfl
    · exact .inr ⟨earlier, hearlier, hrepeats, hagrees, included, hvalue, hanswer⟩

/-- **How far replies follow the descriptions.**  For any settings, types and turns, where the paths
that are asked about are determined by their keys:

* each reply is the verdict by the descriptions of its time, or the decision of an earlier call about
  the same path under the same filter, at whose time a type along the path was described
  differently;
* all replies are the verdicts of their times, whatever the limits of the cache are, if and only if
  no call is judged differently from an earlier one about the same path under the same filter. -/
theorem replies_of_keyed [Glob.Engine] (settings : Settings) (types : List TypeDecl)
    (filters : Nat → String) (roots : Nat → Option Owner) (turns : List Turn)
    (hkeyed : Path.Keyed (· ∈ (Turn.inquiries
      ((Schema.empty settings.unlabelledInBase).registerAll types) turns).map (·.call.path))) :
    let inquiries :=
      Turn.inquiries ((Schema.empty settings.unlabelledInBase).registerAll types) turns
    let replies limits :=
      (ofSettings { settings with decisionCache := limits } types filters roots).replies turns
    (∀ limits, (replies limits).length = inquiries.length
        ∧ ∀ before inquiry after, inquiries = before ++ inquiry :: after →
          ∃ reply, (replies limits)[before.length]? = some reply
            ∧ Explained settings.policy filters before inquiry reply)
      ∧ ((∀ limits, replies limits = inquiries.map (Inquiry.verdict settings.policy filters))
        ↔ Inquiry.Steady settings.policy filters inquiries) := by
  intro inquiries replies
  have hconsults : ∀ limits, (Cache.empty limits : Cache DecisionKey Bool).Consults
      (inquiries.map (Inquiry.question settings.policy filters)) (replies limits) :=
    fun limits => consults_replies (truthful_ofSettings
      { settings with decisionCache := limits } types filters roots) turns
  refine ⟨fun limits => ⟨?_, fun before inquiry after hsplit => ?_⟩, ?_⟩
  · rw [(hconsults limits).length_eq, List.length_map]
  · exact explained_of_consults (hconsults limits) hkeyed hsplit
  · have hverdicts : (inquiries.map (Inquiry.question settings.policy filters)).map (·.outcome)
        = inquiries.map (Inquiry.verdict settings.policy filters) :=
      List.map_map
    rw [← Inquiry.coherent_questions_iff hkeyed, ← hverdicts]
    exact Cache.Consults.eq_outcomes_iff_coherent hconsults

/-- An order with an item. -/
def orderTypes : List TypeDecl :=
  [⟨"Order", [⟨"id", [], false, false, .untyped⟩, ⟨"item", [], false, false, .described "Item"⟩]⟩,
    ⟨"Item", [⟨"id", [], false, false, .untyped⟩]⟩]

/-- The question for the identifier of an order. -/
def orderCall : Call :=
  ⟨0, 0, [⟨"id", some (.described "Order")⟩]⟩

/-- The question for the identifier of the item of an order. -/
def orderItemCall : Call :=
  ⟨0, 0, [⟨"item", some (.described "Order")⟩, ⟨"id", some (.described "Item")⟩]⟩

/-- Items are described anew before anything is asked about them, and carts are on no path. -/
def orderTurns : List Turn :=
  [.ask orderCall, .register ⟨"Item", [⟨"id", ["v"], false, false, .untyped⟩]⟩,
    .ask orderItemCall, .register ⟨"Cart", []⟩, .ask orderCall, .ask orderItemCall]

/-- These turns are steady.  Whatever is remembered, the base view of an order has its identifier
and, from the time of the first question about it, not that of its item. -/
theorem replies_orderTurns :
    Path.Keyed (· ∈ (Turn.inquiries ((Schema.empty Settings.default.unlabelledInBase).registerAll
        orderTypes) orderTurns).map (·.call.path))
      ∧ ∀ limits, (ofSettings { Settings.default with decisionCache := limits } orderTypes
          (fun _ => "base") (fun _ => none)).replies orderTurns
        = [.ok true, .ok false, .ok true, .ok false] := by
  have hkeyed : Path.Keyed (· ∈ (Turn.inquiries ((Schema.empty
      Settings.default.unlabelledInBase).registerAll orderTypes) orderTurns).map (·.call.path)) := by
    decide +kernel
  obtain ⟨-, hsteady⟩ :=
    replies_of_keyed .default orderTypes (fun _ => "base") (fun _ => none) orderTurns hkeyed
  have hverdicts := hsteady.2 (by decide +kernel)
  refine ⟨hkeyed, fun limits => (hverdicts limits).trans ?_⟩
  decide +kernel

/-- **A reply can come too late.**  The identifier of an order leaves the base view between two
questions about it, and the second one is answered as the first. -/
theorem replies_relabelledOrder_ne :
    let turns := [.ask orderCall, .register ⟨"Order", [⟨"id", ["v"], false, false, .untyped⟩]⟩,
      .ask orderCall]
    let inquiries := Turn.inquiries
      ((Schema.empty Settings.default.unlabelledInBase).registerAll orderTypes) turns
    Path.Keyed (· ∈ inquiries.map (·.call.path))
      ∧ (ofSettings .default orderTypes (fun _ => "base") (fun _ => none)).replies turns
        ≠ inquiries.map (Inquiry.verdict Settings.default.policy fun _ => "base") := by
  decide +kernel

end Desk

end FieldFilter
