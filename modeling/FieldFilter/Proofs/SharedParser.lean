import FieldFilter.Metrics
import FieldFilter.Proofs.Transparency
import Mathlib.Algebra.GroupWithZero.Nat

/-!
# One parser for many filters

Expressions are remembered twice: a session keeps those of the texts that parse, within the limits
of a cache, and each bound filter keeps what came out the first time, a defect too.  Neither memory
shows.  Whatever is dropped, cleared or too old by then, what comes out is what parsing the text
gives.

**The invariant.**  Every entry of the cache is the expression of its text, and every filter that
was parsed was parsed as its text.  This is `Desk.Truthful`; each errand keeps it.

* `Errand`, `Desk.serve` — one use of the parser, directly or by a bound filter.
* `Desk.serveAll` — uses one after the other, with the look-ups that each of them took.
* **`Desk.serve_eq`** — what one use answers and costs, and that it keeps the invariant.
* **`Desk.serveAll_transparent`** — no sequence of uses shows the memories, no filter goes to the
  parser twice, and the cache is right about every text that it holds.
-/

namespace FieldFilter

variable [Glob.Engine]

/-- What the parser is used for. -/
inductive Demand where
  | parse (filter : String)
  | clear
  /-- The expression of one of the bound filters. -/
  | expression (context : Nat)
  deriving DecidableEq

/-- A use of the parser, some time after the one before. -/
structure Errand where
  pause : Nat
  demand : Demand

/-- A use of the parser that was served: what came out, and how many look-ups the cache of
expressions saw. -/
structure Service where
  demand : Demand
  answer : Option (Except SyntaxFault Expression)
  lookups : Nat

/-- What a use of the parser has to answer. -/
def Demand.meaning (filters : Nat → String) : Demand → Option (Except SyntaxFault Expression)
  | parse filter => some (Expression.parse filter)
  | clear => none
  | expression context => some (Expression.parse (filters context))

/-- How often a bound filter went to the parser. -/
def Service.consultations (context : Nat) (services : List Service) : Nat :=
  ((services.filter (·.demand = .expression context)).map (·.lookups)).sum

namespace Desk

/-- The look-ups that the cache of expressions has seen. -/
def lookups (desk : Desk) : Nat :=
  desk.session.expressions.stats.requests

/-- The answer to a use of the parser, and the desk afterwards. -/
def serve (desk : Desk) (errand : Errand) : Option (Except SyntaxFault Expression) × Desk :=
  let waited := { desk.session with clock := desk.session.clock + errand.pause }
  match errand.demand with
  | .parse filter =>
    let (answer, session) := waited.parse filter
    (some answer, { desk with session })
  | .clear =>
    (none, { desk with session := { waited with expressions := waited.expressions.clear } })
  | .expression context =>
    let (answer, bound, session) := (desk.contexts context).expression waited
    (some answer, ⟨session, fun other =>
      if other = context then bound else desk.contexts other⟩)

/-- The uses of the parser one after the other, and the desk after them. -/
def serveAll (desk : Desk) : List Errand → List Service × Desk
  | [] => ([], desk)
  | errand :: rest =>
    let (answer, next) := desk.serve errand
    let (services, last) := next.serveAll rest
    (⟨errand.demand, answer, next.lookups - desk.lookups⟩ :: services, last)

/-- The look-ups that a use of the parser takes: none for a bound filter that was parsed. -/
def cost (desk : Desk) : Demand → Nat
  | .parse _ => 1
  | .clear => 0
  | .expression context => if (desk.contexts context).parsed.isSome then 0 else 1

variable {schema : Schema} {policy : ViewPolicy} {filters : Nat → String} {desk : Desk}

/-! ## One use -/

/-- Parsing a text takes one look-up. -/
theorem lookups_parse (session : Session) (filter : String) :
    (session.parse filter).2.expressions.stats.requests
      = session.expressions.stats.requests + 1 :=
  Cache.requests_getOrInsert ..

/-- **A bound filter has the expression of its text**, and goes to the parser only if it was not
parsed yet. -/
theorem expression_eq {text : String} {bound : BoundFilter} {session : Session}
    (hbound : bound.Truthful text) (hsession : session.Truthful schema policy) :
    (bound.expression session).1 = Expression.parse text
      ∧ (bound.expression session).2.1.Truthful text
      ∧ (bound.expression session).2.1.parsed.isSome = true
      ∧ (bound.expression session).2.2.Truthful schema policy
      ∧ (bound.expression session).2.2.expressions.stats.requests
          = session.expressions.stats.requests + if bound.parsed.isSome then 0 else 1 := by
  obtain ⟨text, root, parsed⟩ := bound
  obtain ⟨rfl, hparsed⟩ := hbound
  cases parsed with
  | some outcome => exact ⟨hparsed outcome rfl, ⟨rfl, hparsed⟩, rfl, hsession, rfl⟩
  | none =>
    obtain ⟨houtcome, hafter, -⟩ := Session.parse_of_truthful hsession text
    refine ⟨houtcome, ⟨rfl, ?_⟩, rfl, hafter, lookups_parse session text⟩
    intro outcome h
    exact (Option.some.inj h).symm.trans houtcome

/-- **One use of the parser** answers what it has to, takes as many look-ups as it costs and keeps
the invariant.  A bound filter whose expression was asked for is parsed afterwards. -/
theorem serve_eq (h : desk.Truthful schema policy filters) (errand : Errand) :
    (desk.serve errand).1 = errand.demand.meaning filters
      ∧ (desk.serve errand).2.Truthful schema policy filters
      ∧ (desk.serve errand).2.lookups = desk.lookups + desk.cost errand.demand
      ∧ ∀ context, ((desk.serve errand).2.contexts context).parsed.isSome
          = ((desk.contexts context).parsed.isSome || errand.demand = .expression context) := by
  obtain ⟨pause, demand⟩ := errand
  have hwaited : Session.Truthful schema policy
      { desk.session with clock := desk.session.clock + pause } :=
    ⟨h.session.schema, h.session.policy, h.session.expressions⟩
  cases demand with
  | parse filter =>
    obtain ⟨hanswer, hafter, -⟩ := Session.parse_of_truthful hwaited filter
    exact ⟨congrArg some hanswer, ⟨hafter, h.contexts⟩, lookups_parse _ filter, by simp [serve]⟩
  | clear =>
    refine ⟨rfl, ⟨⟨h.session.schema, h.session.policy, ?_⟩, h.contexts⟩, rfl, by simp [serve]⟩
    exact h.session.expressions.of_subset (List.nil_subset _)
  | expression context =>
    obtain ⟨hanswer, hbound, hparsed, hafter, hlookups⟩ :=
      expression_eq (h.contexts context) hwaited
    refine ⟨congrArg some hanswer, h.resume hafter hbound, hlookups, fun other => ?_⟩
    by_cases hother : other = context
    · subst hother
      simpa [serve] using hparsed
    · have hdiffers : ¬ context = other := fun hsame => hother hsame.symm
      simp [serve, hother, hdiffers]

/-! ## Uses one after the other -/

/-- A run of errands answers what it has to and keeps the invariant. -/
theorem serveAll_answers (h : desk.Truthful schema policy filters) (errands : List Errand) :
    (desk.serveAll errands).1.map (·.answer) = errands.map (·.demand.meaning filters)
      ∧ (desk.serveAll errands).2.Truthful schema policy filters := by
  induction errands generalizing desk with
  | nil => exact ⟨rfl, h⟩
  | cons errand rest ih =>
    obtain ⟨hanswer, hafter, -, -⟩ := serve_eq h errand
    obtain ⟨hanswers, hlast⟩ := ih hafter
    refine ⟨?_, hlast⟩
    simp only [serveAll, List.map_cons]
    rw [hanswer, hanswers]

/-- **A bound filter goes to the parser once at most**, and not at all once it was parsed. -/
theorem consultations_serveAll (h : desk.Truthful schema policy filters) (errands : List Errand)
    (context : Nat) :
    Service.consultations context (desk.serveAll errands).1
      ≤ if (desk.contexts context).parsed.isSome then 0 else 1 := by
  induction errands generalizing desk with
  | nil => exact Nat.zero_le _
  | cons errand rest ih =>
    obtain ⟨-, hafter, hlookups, hparsed⟩ := serve_eq h errand
    have hrest := ih hafter
    rw [hparsed context] at hrest
    have hcost : (desk.serve errand).2.lookups - desk.lookups = desk.cost errand.demand := by
      omega
    simp only [serveAll, Service.consultations, List.filter_cons] at hrest ⊢
    by_cases hasks : errand.demand = .expression context
    · simp only [hasks, hcost, cost, decide_true, if_true, List.map_cons, List.sum_cons,
        Bool.or_true] at hrest ⊢
      omega
    · simpa [hasks] using hrest

/-- **The memories of a parser do not show.** -/
theorem serveAll_transparent (settings : Settings) (types : List TypeDecl)
    (filters : Nat → String) (roots : Nat → Option Owner) (errands : List Errand) :
    ((ofSettings settings types filters roots).serveAll errands).1.map (·.answer)
        = errands.map (·.demand.meaning filters)
      ∧ (∀ context, Service.consultations context
          ((ofSettings settings types filters roots).serveAll errands).1 ≤ 1)
      ∧ ∀ entry ∈ ((ofSettings settings types filters roots).serveAll
          errands).2.session.expressions.entries, Expression.parse entry.key = .ok entry.value := by
  have hstart := truthful_ofSettings settings types filters roots
  obtain ⟨hanswers, hlast⟩ := serveAll_answers hstart errands
  exact ⟨hanswers, consultations_serveAll hstart errands, hlast.session.expressions⟩

end Desk

end FieldFilter
