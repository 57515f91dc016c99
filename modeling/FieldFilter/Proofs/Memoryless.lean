import FieldFilter.Proofs.Consultations
import FieldFilter.Proofs.Meaning
import FieldFilter.Proofs.Walk
import FieldFilter.Source

/-!
# Deciding and pruning without memory

A session decides about paths with two caches and a filter that is parsed at most once.  This file
says what it decides *about*: the answer that the schema, the view policy and the filter text give
by themselves, and the same for a pruned value.  Then it says how much of a session has to be
right for its answers to be these.

* `Schema.judge`, `Schema.guide` — the decision about a path, and the questions of a walk, with
  nothing remembered.
* `Schema.judge_of_parse`, `Schema.judge_of_malformed` — the filter text either parses, and its
  expression decides, or it is the fault.
* `Session.Truthful`, `BoundFilter.Truthful` — the remembered expressions are those of their texts.
* **`Filtering.perform_includes`** — a decision is one look-up or computation in the cache of
  decisions, under the key of the path, and what is computed is the judgement of the schema.
* **`Session.prune_of_isDisabled`** — without a cache of decisions, pruning is pruning without
  memory.
-/

namespace FieldFilter

section Judged

variable [Glob.Engine]

/-- The decision about a path, from the filter text and the descriptions of the types alone. -/
def Schema.judge (schema : Schema) (policy : ViewPolicy) (filter : String) (path : Path) :
    Except Fault Bool :=
  if path.isEmpty || filter == Expression.everything then .ok true
  else
    match Expression.parse filter with
    | .error fault => .error (.malformed fault)
    | .ok expression => (expression.includes schema.lookup policy path).mapError .lookup

namespace Schema

variable {schema : Schema} {policy : ViewPolicy} {filter : String} {expression : Expression}

/-- The filter that asks for everything includes every path. -/
theorem includes_everything (h : Expression.parse Expression.everything = .ok expression)
    (path : Path) : expression.includes schema.lookup policy path = .ok true := by
  obtain rfl := Except.ok.inj (Expression.parse_everything.symm.trans h)
  cases path with
  | nil => rfl
  | cons element rest => rfl

/-- **For a filter text that parses, the expression decides.** -/
theorem judge_of_parse (h : Expression.parse filter = .ok expression) (path : Path) :
    schema.judge policy filter path
      = (expression.includes schema.lookup policy path).mapError .lookup := by
  rw [judge]
  split
  · next hplain =>
    rcases Bool.or_eq_true_iff.1 hplain with hempty | heverything
    · rw [List.isEmpty_iff.1 hempty]
      rfl
    · obtain rfl := beq_iff_eq.1 heverything
      rw [includes_everything h]
      rfl
  · rw [h]

/-- Where a filter text parses, what is decided is what its expression decides. -/
theorem judge_eq_ok_iff (h : Expression.parse filter = .ok expression) (path : Path)
    (included : Bool) :
    schema.judge policy filter path = .ok included
      ↔ expression.includes schema.lookup policy path = .ok included := by
  rw [judge_of_parse h]
  cases expression.includes schema.lookup policy path with
  | error fault => exact iff_of_false nofun nofun
  | ok decided => rw [Except.mapError, Except.ok.injEq, Except.ok.injEq]

/-- A filter text that does not parse is a fault for every field. -/
theorem judge_of_malformed {fault : SyntaxFault} (h : Expression.parse filter = .error fault)
    {path : Path} (hpath : path ≠ []) :
    schema.judge policy filter path = .error (.malformed fault) := by
  have hfilter : filter ≠ Expression.everything := by
    rintro rfl
    cases h.symm.trans Expression.parse_everything
  rw [judge, if_neg (by simp [hpath, hfilter]), h]

end Schema

/-- What a walk asks about, answered by the schema alone. -/
def Schema.guide (schema : Schema) (policy : ViewPolicy) (filter : String)
    (placeholder : Option Json) : Guide (Except Fault) where
  describe type := (schema.describe type).mapError .lookup
  includes := schema.judge policy filter
  placeholder := placeholder

/-! ## What has to be right about a session -/

/-- A session that answers about a schema under a policy, and remembers every expression by its
own text. -/
structure Session.Truthful (schema : Schema) (policy : ViewPolicy) (session : Session) : Prop where
  schema : session.registry.schema = schema
  policy : session.policy = policy
  expressions : session.expressions.Holds fun text expression =>
    Expression.parse text = .ok expression

/-- A bound filter of a text, parsed as that text if it was parsed. -/
structure BoundFilter.Truthful (text : String) (bound : BoundFilter) : Prop where
  filter : bound.filter = text
  parsed : ∀ outcome, bound.parsed = some outcome → outcome = Expression.parse text

/-- A new session is truthful. -/
theorem Session.truthful_ofSettings (settings : Settings) (types : List TypeDecl) :
    (Session.ofSettings settings types).Truthful
      ((Schema.empty settings.unlabelledInBase).registerAll types) settings.policy where
  schema := rfl
  policy := rfl
  expressions := Cache.holds_empty _ _

/-- A filter that was not parsed yet is truthful. -/
theorem BoundFilter.truthful_ofFilter (filter : String) (root : Option Owner) :
    (BoundFilter.ofFilter filter root).Truthful filter where
  filter := rfl
  parsed := by
    intro outcome h
    cases h

/-- **The expression of a text is that of the text**, from memory or not. -/
theorem Session.parse_of_truthful {schema : Schema} {policy : ViewPolicy} {session : Session}
    (h : session.Truthful schema policy) (text : String) :
    (session.parse text).1 = Expression.parse text
      ∧ (session.parse text).2.Truthful schema policy
      ∧ (session.parse text).2.decisions = session.decisions :=
  ⟨Cache.getOrInsert_of_holds h.expressions _ _ fun _ hparsed => hparsed,
    ⟨h.schema, h.policy, Cache.holds_getOrInsert h.expressions _ _ fun _ hparsed => hparsed⟩, rfl⟩

end Judged

/-! ## The cache of decisions -/

/-- What the decision about a path under a filter is remembered under.  Decisions under the filter
that asks for everything are not remembered. -/
def Session.memoKey? (path : Path) (filter : String) : Option DecisionKey :=
  if filter = Expression.everything then none else decisionKey? path filter

/-- Nothing is remembered about the empty path. -/
theorem Session.decisionKey?_nil (filter : String) : decisionKey? [] filter = none := rfl

/-- What is remembered is remembered under the key of the path and the filter. -/
theorem Session.memoKey?_eq_some {path : Path} {filter : String} {key : DecisionKey}
    (h : memoKey? path filter = some key) : path.isCacheable = true ∧ key = ⟨path.key, filter⟩ := by
  rw [memoKey?, decisionKey?] at h
  split at h
  · cases h
  · split at h
    · next hcacheable => exact ⟨hcacheable, (Option.some.inj h).symm⟩
    · cases h

/-! ## Computations under a bound filter -/

namespace Filtering

section Perform

variable {σ α β : Type}

/-- Carries out a computation from a state. -/
def perform (computation : ExceptT Fault (StateM σ) α) (state : σ) : Except Fault α × σ :=
  computation.run.run state

theorem perform_pure (a : α) (state : σ) :
    perform (pure a : ExceptT Fault (StateM σ) α) state = (.ok a, state) := rfl

theorem perform_bind (computation : ExceptT Fault (StateM σ) α)
    (next : α → ExceptT Fault (StateM σ) β) (state : σ) :
    perform (computation >>= next) state
      = match perform computation state with
        | (.ok a, after) => perform (next a) after
        | (.error fault, after) => (.error fault, after) := by
  simp only [perform, ExceptT.run_bind, StateT.run_bind]
  rcases computation.run.run state with ⟨fault | a, after⟩ <;> rfl

theorem perform_get (state : State) : perform (get : Filtering State) state = (.ok state, state) :=
  rfl

theorem perform_remembered (path : Path) (state : State) :
    perform (remembered path) state
      = (.ok (state.session.remembered path state.bound.filter).1,
        { state with session := (state.session.remembered path state.bound.filter).2 }) := rfl

theorem perform_remember (path : Path) (included : Bool) (state : State) :
    perform (remember path included) state
      = (.ok (), { state with session :=
          state.session.remember path state.bound.filter included }) := rfl

/-- Computations that, from states with a property, give the answers of plain ones and keep the
property.  The faults of the plain ones are those of a session in other words. -/
def agreement {ε : Type} (asFault : ε → Fault) (Keeps : σ → Prop) :
    Simulation (ExceptT Fault (StateM σ)) (Except ε) where
  Rel computation plain := ∀ state, Keeps state →
    (perform computation state).1 = plain.mapError asFault ∧ Keeps (perform computation state).2
  pure _ _ hkeeps := ⟨rfl, hkeeps⟩
  bind := by
    intro α β computation plain next plainNext hfirst hnext state hkeeps
    obtain ⟨hanswer, hafter⟩ := hfirst state hkeeps
    rw [perform_bind]
    rcases hrun : perform computation state with ⟨answer, after⟩
    rw [hrun] at hanswer hafter
    dsimp only at hanswer
    subst hanswer
    cases plain with
    | error fault => exact ⟨rfl, hafter⟩
    | ok a => exact hnext a after hafter

/-- Faults in the same words are the same faults. -/
theorem mapError_id {ε α : Type} (answer : Except ε α) : answer.mapError id = answer := by
  cases answer <;> rfl

/-- What goes on with a description that agrees with the schema agrees with what goes on with that
of the schema, if it does so for every type that the schema has. -/
theorem describe_bind_agrees {schema : Schema} {Keeps : σ → Prop} {type : String}
    {look : ExceptT Fault (StateM σ) TypeInfo}
    (hlook : (agreement .lookup Keeps).Rel look (schema.describe type))
    {next : TypeInfo → ExceptT Fault (StateM σ) α} {plainNext : TypeInfo → Except Fault α}
    (h : ∀ info, schema.find? type = some info →
      (agreement id Keeps).Rel (next info) (plainNext info)) :
    (agreement id Keeps).Rel (look >>= next)
      ((schema.describe type).mapError .lookup >>= plainNext) := by
  intro state hstate
  obtain ⟨hanswer, hafter⟩ := hlook state hstate
  rw [perform_bind]
  rcases hrun : perform look state with ⟨answer, after⟩
  rw [hrun] at hanswer hafter
  dsimp only at hanswer
  subst hanswer
  rw [Schema.describe]
  cases hfind : schema.find? type with
  | none => exact ⟨rfl, hafter⟩
  | some info => exact h info hfind after hafter

end Perform

variable [Glob.Engine] {schema : Schema} {policy : ViewPolicy} {filter : String}

/-- A state with a truthful session and a truthful filter, whose cache of decisions has a
property. -/
structure State.Truthful (schema : Schema) (policy : ViewPolicy) (filter : String)
    (Remembers : Cache DecisionKey Bool → Prop) (state : State) : Prop where
  session : state.session.Truthful schema policy
  bound : state.bound.Truthful filter
  decisions : Remembers state.session.decisions

variable {Remembers : Cache DecisionKey Bool → Prop} {decisions : Cache DecisionKey Bool}

/-- A type is described as the schema has it. -/
theorem describe_agrees (type : String) :
    (agreement .lookup (State.Truthful schema policy filter Remembers)).Rel (describe type)
      (schema.describe type) := by
  rintro state ⟨⟨rfl, hpolicy, hexpressions⟩, hbound, hdecisions⟩
  exact ⟨rfl, ⟨rfl, hpolicy, hexpressions⟩, hbound, hdecisions⟩

/-- The bound filter is read as its text is. -/
theorem perform_expression {state : State}
    (h : state.Truthful schema policy filter Remembers) :
    (perform expression state).1 = (Expression.parse filter).mapError .malformed
      ∧ (perform expression state).2.Truthful schema policy filter Remembers := by
  obtain ⟨bound, session⟩ := state
  obtain ⟨text, root, parsed⟩ := bound
  obtain ⟨hsession, ⟨rfl, hparsed⟩, hdecisions⟩ := h
  cases parsed with
  | some outcome =>
      have houtcome : outcome = Expression.parse text := hparsed outcome rfl
      exact ⟨congrArg (Except.mapError Fault.malformed) houtcome, hsession, ⟨rfl, hparsed⟩,
        hdecisions⟩
  | none =>
      obtain ⟨houtcome, hafter, hkept⟩ := Session.parse_of_truthful hsession text
      refine ⟨congrArg (Except.mapError Fault.malformed) houtcome, hafter, ⟨rfl, ?_⟩, ?_⟩
      · intro outcome h
        exact (Option.some.inj h).symm.trans houtcome
      · rw [← hkept] at hdecisions
        exact hdecisions

/-- **What is worked out is the judgement of the schema.** -/
theorem perform_decide {state : State} (h : state.Truthful schema policy filter Remembers)
    {path : Path} (hpath : path ≠ []) (hfilter : filter ≠ Expression.everything) :
    (perform (decide path) state).1 = schema.judge policy filter path
      ∧ (perform (decide path) state).2.Truthful schema policy filter Remembers := by
  obtain ⟨houtcome, hafter⟩ := perform_expression h
  have hplain : (path.isEmpty || filter == Expression.everything) = false := by
    simp [hpath, hfilter]
  rw [Schema.judge, hplain, if_neg Bool.false_ne_true]
  rcases hrun : perform expression state with ⟨outcome, after⟩
  rw [hrun] at houtcome hafter
  dsimp only at houtcome
  subst houtcome
  cases hparse : Expression.parse filter with
  | error fault =>
      rw [decide, perform_bind, hrun, hparse]
      exact ⟨rfl, hafter⟩
  | ok parsed =>
      have hwork : perform (decide path) state
          = perform (parsed.includes (.ofDescriptions describe) policy path) after := by
        rw [decide, perform_bind, hrun, hparse, ← hafter.session.policy]
        rfl
      rw [hwork]
      exact Simulation.includes (Simulation.lookups_ofDescriptions describe_agrees) parsed policy
        path after hafter

/-- Works out a decision and remembers it. -/
def work (path : Path) : Filtering Bool := do
  let included ← decide path
  remember path included
  pure included

/-- A decision is at once that of the filter that asks for everything, or is read, or else is
worked out. -/
theorem perform_includes_eq (path : Path) (state : State) :
    perform (includes path) state
      = if path.isEmpty || state.bound.isEverything then (.ok true, state)
        else
          match perform (remembered path) state with
          | (.ok (some included), after) => (.ok included, after)
          | (.ok none, after) => perform (work path) after
          | (.error fault, after) => (.error fault, after) := by
  show perform (get >>= fun _ => _) state = _
  rw [perform_bind, perform_get]
  dsimp only
  split
  · rfl
  · rw [perform_bind]
    rcases perform (remembered path) state with ⟨fault | _ | included, after⟩ <;> rfl

/-- **A decision that is worked out** is the judgement of the schema, and is remembered if it may
be. -/
theorem perform_work {state : State} (h : state.Truthful schema policy filter (· = decisions))
    {path : Path} (hpath : path ≠ []) (hfilter : filter ≠ Expression.everything) :
    ∃ later, (perform (work path) state).1 = schema.judge policy filter path
      ∧ (perform (work path) state).2.Truthful schema policy filter
          (· = match Session.decisionKey? path filter, schema.judge policy filter path with
            | some key, .ok included => decisions.insert later key included
            | _, _ => decisions) := by
  obtain ⟨hjudged, hafter⟩ := perform_decide h hpath hfilter
  rw [work, perform_bind]
  rcases hrun : perform (decide path) state with ⟨answer, ⟨bound, session⟩⟩
  rw [hrun] at hjudged hafter
  dsimp only at hjudged
  subst hjudged
  obtain ⟨hsession, hbound, rfl⟩ := hafter
  have htext : bound.filter = filter := hbound.filter
  refine ⟨session.clock, ?_⟩
  cases schema.judge policy filter path with
  | error fault =>
      refine ⟨rfl, hsession, hbound, ?_⟩
      cases Session.decisionKey? path filter <;> rfl
  | ok included =>
      dsimp only
      rw [perform_bind, perform_remember]
      dsimp only
      rw [perform_pure, htext, Session.remember]
      cases Session.decisionKey? path filter with
      | none => exact ⟨rfl, hsession, hbound, rfl⟩
      | some key =>
          exact ⟨rfl, ⟨hsession.schema, hsession.policy, hsession.expressions⟩, hbound, rfl⟩

/-- **A decision, as far as the cache of decisions is concerned:** nothing happens to it where
nothing may be remembered, and otherwise the key of the path is looked up or the judgement of the
schema computed. -/
theorem perform_includes {state : State} (h : state.Truthful schema policy filter (· = decisions))
    (path : Path) :
    ∃ later, (perform (includes path) state).1
        = (decisions.consult state.session.clock later (Session.memoKey? path filter)
            (schema.judge policy filter path)).1
      ∧ (perform (includes path) state).2.Truthful schema policy filter
          (· = (decisions.consult state.session.clock later (Session.memoKey? path filter)
            (schema.judge policy filter path)).2) := by
  obtain ⟨bound, session⟩ := state
  obtain ⟨hsession, hbound, rfl⟩ := h
  have htext : bound.filter = filter := hbound.filter
  rw [perform_includes_eq]
  split
  · next hplain =>
    have hkey : Session.memoKey? path filter = none := by
      rcases Bool.or_eq_true_iff.1 hplain with hempty | heverything
      · rw [List.isEmpty_iff.1 hempty, Session.memoKey?, Session.decisionKey?_nil, ite_self]
      · rw [Session.memoKey?, if_pos (htext ▸ beq_iff_eq.1 heverything)]
    have hjudge : schema.judge policy filter path = .ok true := by
      rw [Schema.judge, ← htext]
      exact if_pos hplain
    rw [hkey, hjudge]
    exact ⟨0, rfl, hsession, hbound, rfl⟩
  · next hplain =>
    have hpath : path ≠ [] := by
      rintro rfl
      exact hplain rfl
    have hfilter : filter ≠ Expression.everything := by
      rintro rfl
      exact hplain (by simp [BoundFilter.isEverything, htext])
    have hkey : Session.memoKey? path filter = Session.decisionKey? path filter :=
      if_neg hfilter
    rw [hkey, perform_remembered, htext, Session.remembered]
    cases hfound : Session.decisionKey? path filter with
    | none =>
        obtain ⟨later, hjudged, hafter⟩ := perform_work ⟨hsession, hbound, rfl⟩ hpath hfilter
        rw [hfound] at hafter
        exact ⟨later, hjudged, hafter⟩
    | some key =>
        have hread : State.Truthful schema policy filter
            (· = (session.decisions.get session.clock key).2) ⟨bound, { session with
              decisions := (session.decisions.get session.clock key).2
              clock := session.clock + 1 }⟩ :=
          ⟨⟨hsession.schema, hsession.policy, hsession.expressions⟩, hbound, rfl⟩
        obtain ⟨later, hjudged, hafter⟩ := perform_work hread hpath hfilter
        rw [hfound] at hafter
        refine ⟨later, ?_⟩
        rw [Cache.consult, Cache.getOrInsert_eq]
        dsimp only
        cases (session.decisions.get session.clock key).1 with
        | some included => exact ⟨rfl, hread⟩
        | none =>
            dsimp only
            cases hjudge : schema.judge policy filter path with
            | error fault =>
                rw [hjudge] at hjudged hafter
                exact ⟨hjudged, hafter⟩
            | ok included =>
                rw [hjudge] at hjudged hafter
                exact ⟨hjudged, hafter⟩

/-! ## Without a cache of decisions -/

/-- Truthful states whose cache of decisions keeps nothing. -/
abbrev State.Forgetful (schema : Schema) (policy : ViewPolicy) (filter : String) : State → Prop :=
  State.Truthful schema policy filter fun decisions => decisions.limits.isDisabled = true

/-- A decision that is not remembered is the judgement of the schema. -/
theorem includes_agrees (path : Path) :
    (agreement id (State.Forgetful schema policy filter)).Rel (includes path)
      (schema.judge policy filter path) := by
  rintro state ⟨hsession, hbound, hdisabled⟩
  obtain ⟨later, hanswer, hafter⟩ := perform_includes ⟨hsession, hbound, rfl⟩ path
  rw [hanswer]
  refine ⟨?_, hafter.session, hafter.bound, ?_⟩
  · rw [mapError_id]
    exact Cache.consult_of_isDisabled hdisabled _ _ _ _
  · rw [hafter.decisions, Cache.limits_consult]
    exact hdisabled

/-- A walk in a session that remembers no decision is told what the schema says. -/
theorem guides_agree (placeholder : Option Json) :
    (agreement id (State.Forgetful schema policy filter)).Guides
      (.ofRegion (.all schema)) (Session.guide placeholder)
      (schema.guide policy filter placeholder) where
  describe type _ _ _ _ _ _ h := describe_bind_agrees (describe_agrees type) h
  includes _ path _ _ _ := includes_agrees path
  placeholder := rfl

end Filtering

section Forgetful

variable [Glob.Engine] {schema : Schema} {policy : ViewPolicy} {filter : String}
  {session : Session} (hsession : session.Truthful schema policy)
  (hdisabled : session.decisions.limits.isDisabled = true) {bound : BoundFilter}
  (hbound : bound.Truthful filter) (placeholder : Option Json) (root : Owner) (value : Json)

include hsession hdisabled hbound

/-- A pass in a session that remembers no decision is the walk without memory, and leaves such a
session. -/
theorem Filtering.perform_prune :
    (perform (value.prune (Session.guide placeholder) root) ⟨bound, session⟩).1
        = value.prune (schema.guide policy filter placeholder) root
      ∧ (perform (value.prune (Session.guide placeholder) root) ⟨bound, session⟩).2.Forgetful
          schema policy filter := by
  have hpair : (Schema.Pairing.ofRegion (.all schema)).Rel (Json.rootType root) [] value value :=
    ⟨rfl, True.intro⟩
  obtain ⟨hpruned, hafter⟩ := Simulation.prune (guides_agree placeholder) hpair
    ⟨bound, session⟩ ⟨hsession, hbound, hdisabled⟩
  exact ⟨hpruned.trans (mapError_id _), hafter⟩

/-- **Without a cache of decisions, pruning is pruning without memory.** -/
theorem Session.prune_of_isDisabled :
    (session.prune bound placeholder root value).1
      = value.prune (schema.guide policy filter placeholder) root :=
  (Filtering.perform_prune hsession hdisabled hbound placeholder root value).1

/-- What a pass without a cache of decisions leaves behind can be used for another one. -/
theorem Session.forgetful_prune :
    Filtering.State.Forgetful schema policy filter
      ⟨(session.prune bound placeholder root value).2.1,
        (session.prune bound placeholder root value).2.2⟩ :=
  (Filtering.perform_prune hsession hdisabled hbound placeholder root value).2

end Forgetful

end FieldFilter
