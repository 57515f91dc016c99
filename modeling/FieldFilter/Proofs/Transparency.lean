import FieldFilter.Proofs.Memoryless

/-!
# When the cache of decisions shows

A host keeps one cache of decisions and is asked about paths under any number of filters, in any
order and at any time.  Its answers should not depend on the cache.  They may: a decision is
remembered under the names of the path, the owner of its last field and the filter, and two paths
with the same of these can be judged differently, as the owners on the way and the cuts between
the names are left out.

* `Desk`, `Call` — a host with the filters it is asked under, and one question put to it.
* `Desk.answers` — the answers to a list of calls.
* `Call.Coherent` — no call is judged differently from an earlier one with the same key.
* `Desk.consults_answers` — calls are questions to the cache of decisions, one after the other.
* **`Desk.answers_eq_iff_coherent`** — the answers are those without a cache, under all limits, just
  if the calls are coherent.
-/

namespace FieldFilter

/-- A session and the filters it is asked under, each with what was parsed of it so far. -/
structure Desk where
  session : Session
  contexts : Nat → BoundFilter

/-- A question about a path under one of the filters, some time after the one before. -/
structure Call where
  pause : Nat
  context : Nat
  path : Path

namespace Desk

/-- A new session with filters that were not parsed yet. -/
def ofSettings (settings : Settings) (types : List TypeDecl) (filters : Nat → String)
    (roots : Nat → Option Owner) : Desk :=
  ⟨.ofSettings settings types, fun context => .ofFilter (filters context) (roots context)⟩

/-- The answer to a call, and the desk afterwards. -/
def ask [Glob.Engine] (desk : Desk) (call : Call) : Except Fault Bool × Desk :=
  let waited := { desk.session with clock := desk.session.clock + call.pause }
  let (answer, bound, session) := waited.includes (desk.contexts call.context) call.path
  (answer, ⟨session, fun context =>
    if context = call.context then bound else desk.contexts context⟩)

/-- The answers to a list of calls, one after the other. -/
def answers [Glob.Engine] (desk : Desk) : List Call → List (Except Fault Bool)
  | [] => []
  | call :: rest => (desk.ask call).1 :: answers (desk.ask call).2 rest

end Desk

/-! ## Coherent calls -/

/-- What a call is about, as far as it may be remembered. -/
def Call.key? (filters : Nat → String) (call : Call) : Option DecisionKey :=
  Session.memoKey? call.path (filters call.context)

/-- The answer to a call with nothing remembered. -/
def Call.verdict [Glob.Engine] (schema : Schema) (policy : ViewPolicy) (filters : Nat → String)
    (call : Call) : Except Fault Bool :=
  schema.judge policy (filters call.context) call.path

/-- A call as a question to the cache of decisions. -/
def Call.question [Glob.Engine] (schema : Schema) (policy : ViewPolicy) (filters : Nat → String)
    (call : Call) : Cache.Question DecisionKey Bool Fault :=
  ⟨call.key? filters, call.verdict schema policy filters⟩

/-- No call is judged differently from an earlier one with the same key.  An earlier fault does
not count, as it is not remembered. -/
def Call.Coherent [Glob.Engine] (schema : Schema) (policy : ViewPolicy) (filters : Nat → String)
    (calls : List Call) : Prop :=
  calls.Pairwise fun earlier later => ∀ key included,
    earlier.key? filters = some key → later.key? filters = some key →
      earlier.verdict schema policy filters = .ok included →
        later.verdict schema policy filters = .ok included

namespace Desk

section Answers

variable [Glob.Engine] {schema : Schema} {policy : ViewPolicy} {filters : Nat → String}
  {desk : Desk}

/-! ## One call -/

/-- A desk whose session and filters are truthful. -/
structure Truthful (schema : Schema) (policy : ViewPolicy) (filters : Nat → String) (desk : Desk) :
    Prop where
  session : desk.session.Truthful schema policy
  contexts : ∀ context, (desk.contexts context).Truthful (filters context)

theorem truthful_ofSettings (settings : Settings) (types : List TypeDecl)
    (filters : Nat → String) (roots : Nat → Option Owner) :
    (ofSettings settings types filters roots).Truthful
      ((Schema.empty settings.unlabelledInBase).registerAll types) settings.policy filters where
  session := Session.truthful_ofSettings settings types
  contexts _ := BoundFilter.truthful_ofFilter _ _

/-- A desk stays truthful when its session and one of its filters go on truthfully. -/
theorem Truthful.resume (h : desk.Truthful schema policy filters) {session : Session}
    (hsession : session.Truthful schema policy) {context : Nat} {bound : BoundFilter}
    (hbound : bound.Truthful (filters context)) :
    Truthful schema policy filters
      ⟨session, fun other => if other = context then bound else desk.contexts other⟩ where
  session := hsession
  contexts other := by
    by_cases hother : other = context
    · subst hother
      show BoundFilter.Truthful _ (if other = other then _ else _)
      rw [if_pos rfl]
      exact hbound
    · show BoundFilter.Truthful _ (if other = context then _ else _)
      rw [if_neg hother]
      exact h.contexts other

/-- **A call asks the cache of decisions once at most**, under its key and for its verdict, and
leaves the desk truthful. -/
theorem ask_eq (h : desk.Truthful schema policy filters) (call : Call) :
    ∃ now later, (desk.ask call).1
        = (desk.session.decisions.consult now later (call.key? filters)
            (call.verdict schema policy filters)).1
      ∧ (desk.ask call).2.session.decisions
        = (desk.session.decisions.consult now later (call.key? filters)
            (call.verdict schema policy filters)).2
      ∧ (desk.ask call).2.Truthful schema policy filters := by
  have hstate : Filtering.State.Truthful schema policy (filters call.context)
      (· = desk.session.decisions) ⟨desk.contexts call.context,
        { desk.session with clock := desk.session.clock + call.pause }⟩ :=
    ⟨⟨h.session.schema, h.session.policy, h.session.expressions⟩, h.contexts call.context, rfl⟩
  obtain ⟨later, hanswer, hafter⟩ := Filtering.perform_includes hstate call.path
  exact ⟨_, later, hanswer, hafter.decisions, h.resume hafter.session hafter.bound⟩

/-- A call leaves the desk truthful. -/
theorem Truthful.ask (h : desk.Truthful schema policy filters) (call : Call) :
    (desk.ask call).2.Truthful schema policy filters := by
  obtain ⟨now, later, -, -, hafter⟩ := ask_eq h call
  exact hafter

/-! ## Calls as questions to the cache -/

/-- **Calls are questions to the cache of decisions**, one after the other. -/
theorem consults_answers (h : desk.Truthful schema policy filters) (calls : List Call) :
    desk.session.decisions.Consults (calls.map (Call.question schema policy filters))
      (desk.answers calls) := by
  induction calls generalizing desk with
  | nil => exact .nil
  | cons call rest ih =>
      obtain ⟨now, later, hanswer, hdecisions, hafter⟩ := ask_eq h call
      have hrest := ih hafter
      rw [hdecisions] at hrest
      rw [answers, hanswer]
      exact .cons now later hrest

/-- Coherent calls are coherent questions. -/
theorem coherent_questions_iff {calls : List Call} :
    Cache.Question.Coherent (calls.map (Call.question schema policy filters))
      ↔ Call.Coherent schema policy filters calls :=
  List.pairwise_map

/-! ## The exact condition -/

/-- **The cache of decisions never shows just if the calls are coherent.**  For any types, any
policy and any calls: the answers are those of a host without the cache, whatever the limits of the
cache are, if and only if no call is judged differently from an earlier one with the same key. -/
theorem answers_eq_iff_coherent (settings : Settings) (types : List TypeDecl)
    (filters : Nat → String) (roots : Nat → Option Owner) (calls : List Call) :
    (∀ limits,
      (ofSettings { settings with decisionCache := limits } types filters roots).answers calls
        = (ofSettings { settings with decisionCache := .ofSize 0 } types filters roots).answers
            calls)
      ↔ Call.Coherent ((Schema.empty settings.unlabelledInBase).registerAll types) settings.policy
          filters calls := by
  have hconsults : ∀ limits, (Cache.empty limits : Cache DecisionKey Bool).Consults
      (calls.map (Call.question ((Schema.empty settings.unlabelledInBase).registerAll types)
        settings.policy filters))
      ((ofSettings { settings with decisionCache := limits } types filters roots).answers calls) :=
    fun limits => consults_answers (truthful_ofSettings
      { settings with decisionCache := limits } types filters roots) calls
  have hplain := (hconsults (.ofSize 0)).eq_outcomes_of_isDisabled rfl
  rw [hplain, ← coherent_questions_iff]
  exact Cache.Consults.eq_outcomes_iff_coherent hconsults

end Answers

/-- An order and a cart both have an item, which is in the view `v` of the order alone. -/
def itemOwners : List TypeDecl :=
  [⟨"Order", [⟨"item", ["v"], false, false, .described "Item"⟩]⟩,
    ⟨"Cart", [⟨"item", [], false, false, .described "Item"⟩]⟩,
    ⟨"Item", [⟨"id", [], false, false, .untyped⟩]⟩]

/-- The question for the identifier of the item of an order, and then for that of a cart. -/
def itemCalls : List Call :=
  ["Order", "Cart"].map fun owner =>
    ⟨0, 0, [⟨"item", some (.described owner)⟩, ⟨"id", some (.described "Item")⟩]⟩

/-- **The cache of decisions can show.**  Under the filter `v` the item of an order is included
and that of a cart is not, but both identifiers have the same key. -/
theorem answers_itemCalls_ne :
    (ofSettings .default itemOwners (fun _ => "v") (fun _ => none)).answers itemCalls
      ≠ (ofSettings { Settings.default with decisionCache := .ofSize 0 } itemOwners
          (fun _ => "v") (fun _ => none)).answers itemCalls := by
  decide +kernel

end Desk

end FieldFilter
