import FieldFilter.Proofs.Transparency

/-!
# Where remembered decisions come from

A host is asked about paths under filters that parse and filters that do not, about fields of
described types, entries of maps and fields of unknown values, in any order.  The cache of decisions
drops entries for room and for age and writes them anew.  Whatever it holds at any time was decided:
under its own key, for a path that was asked about, by the expression of a filter that parses.

**The invariant** is `Desk.Recorded`, kept by each call (`Desk.holds_ask`).  The rest is told by what
one call does to the cache, which is one look-up or computation at most (`Desk.ask_eq`).

* `Desk.askAll` — a host after a list of calls.
* `Cache.get_of_absent` — looking up what is not there finds nothing and leaves the entries alone.
* `Desk.Decided` — a remembered decision, and the call that it was made for.
* **`Desk.decisions_provenance`** — every entry was decided for an earlier call; calls that may not be
  remembered leave the cache alone; and filters that do not parse are answered with their fault and
  leave no entry.
-/

namespace FieldFilter

/-- Looking up a key that no entry has finds nothing and leaves the entries as they are. -/
theorem Cache.get_of_absent {κ ν : Type} [DecidableEq κ] {cache : Cache κ ν} {key : κ}
    (h : ∀ entry ∈ cache.entries, entry.key ≠ key) (now : Nat) :
    (cache.get now key).1 = none ∧ (cache.get now key).2.entries = cache.entries := by
  have hfind : cache.find? key = none :=
    List.find?_eq_none.2 fun entry hentry => by simpa using h entry hentry
  rw [get, hfind]
  split <;> exact ⟨rfl, rfl⟩

/-- Decisions may be remembered just if the last field belongs to a described type. -/
theorem Path.isCacheable_iff {path : Path} :
    path.isCacheable = true ↔ ∃ type, path.terminalOwner = some (.described type) := by
  rw [isCacheable]
  rcases path.terminalOwner with - | ⟨type | type⟩ <;> simp

namespace Desk

variable [Glob.Engine]

/-- A desk after a list of calls. -/
def askAll (desk : Desk) (calls : List Call) : Desk :=
  calls.foldl (fun desk call => (desk.ask call).2) desk

variable {schema : Schema} {policy : ViewPolicy} {filters : Nat → String} {desk : Desk}

/-- What the cache of decisions may hold after some calls: verdicts on them, under their keys. -/
abbrev Recorded (schema : Schema) (policy : ViewPolicy) (filters : Nat → String)
    (done : List Call) : DecisionKey → Bool → Prop :=
  Cache.Question.Recorded (done.map (Call.question schema policy filters))

/-- A call adds at most its own verdict to what the cache holds. -/
theorem holds_ask (h : desk.Truthful schema policy filters) {done : List Call}
    (hdone : desk.session.decisions.Holds (Recorded schema policy filters done)) (call : Call) :
    (desk.ask call).2.session.decisions.Holds (Recorded schema policy filters (done ++ [call])) := by
  obtain ⟨now, later, -, hdecisions, -⟩ := ask_eq h call
  rw [hdecisions, Recorded, List.map_append]
  exact Cache.Consults.holds_concat hdone now later (call.question schema policy filters)

/-- Calls leave a desk truthful, and the cache of decisions holds verdicts on calls alone. -/
theorem holds_askAll (h : desk.Truthful schema policy filters) {done : List Call}
    (hdone : desk.session.decisions.Holds (Recorded schema policy filters done))
    (calls : List Call) :
    (desk.askAll calls).Truthful schema policy filters
      ∧ (desk.askAll calls).session.decisions.Holds
          (Recorded schema policy filters (done ++ calls)) := by
  induction calls generalizing desk done with
  | nil =>
    rw [List.append_nil]
    exact ⟨h, hdone⟩
  | cons call rest ih =>
    have hrest := ih (h.ask call) (holds_ask h hdone call)
    rwa [List.append_assoc, List.singleton_append] at hrest

/-- A decision that is remembered after some calls.  Its filter parses and its path ends in a
described type, and a path of that key was asked about under that filter and so decided. -/
structure Decided (schema : Schema) (policy : ViewPolicy) (filters : Nat → String)
    (done : List Call) (key : DecisionKey) (included : Bool) : Prop where
  parses : (Expression.parse key.filter).isOk = true
  described : ∃ type, key.path.owner = some (.described type)
  asked : ∃ call ∈ done, call.path.key = key.path ∧ filters call.context = key.filter
    ∧ ∃ expression, Expression.parse key.filter = .ok expression
      ∧ expression.includes schema.lookup policy call.path = .ok included

/-- A verdict that was recorded was decided by the expression of its filter. -/
theorem Decided.of_recorded {done : List Call} {key : DecisionKey} {included : Bool}
    (h : Recorded schema policy filters done key included) :
    Decided schema policy filters done key included := by
  obtain ⟨question, hquestion, hkey, hverdict⟩ := h
  obtain ⟨call, hmem, rfl⟩ := List.mem_map.1 hquestion
  obtain ⟨hcacheable, rfl⟩ := Session.memoKey?_eq_some hkey
  obtain ⟨type, htype⟩ := Path.isCacheable_iff.1 hcacheable
  have hpath : call.path ≠ [] := by
    intro hempty
    rw [hempty] at hcacheable
    cases hcacheable
  rw [Call.question, Call.verdict] at hverdict
  cases hparse : Expression.parse (filters call.context) with
  | error fault =>
    rw [Schema.judge_of_malformed hparse hpath] at hverdict
    cases hverdict
  | ok expression =>
    have hincluded := (Schema.judge_eq_ok_iff hparse call.path included).1 hverdict
    exact ⟨by rw [hparse]; rfl, ⟨type, htype⟩, call, hmem, rfl, rfl, expression, hparse, hincluded⟩

/-- A call about a path that may not be remembered leaves the cache of decisions as it is. -/
theorem decisions_ask_of_uncacheable (h : desk.Truthful schema policy filters) {call : Call}
    (hpath : call.path.isCacheable = false) :
    (desk.ask call).2.session.decisions = desk.session.decisions := by
  obtain ⟨now, later, -, hdecisions, -⟩ := ask_eq h call
  have hkey : call.key? filters = none := by
    rw [Call.key?, Session.memoKey?, Session.decisionKey?, hpath, if_neg Bool.false_ne_true,
      ite_self]
  rw [hdecisions, hkey, Cache.consult]

/-- A call under a filter that does not parse is answered with its fault, and leaves the entries as
they are if all of them have filters that parse. -/
theorem ask_of_malformed (h : desk.Truthful schema policy filters)
    (hparses : desk.session.decisions.Holds fun key _ => (Expression.parse key.filter).isOk = true)
    {call : Call} {fault : SyntaxFault} (hpath : call.path ≠ [])
    (hfault : Expression.parse (filters call.context) = .error fault) :
    (desk.ask call).1 = .error (.malformed fault)
      ∧ (desk.ask call).2.session.decisions.entries = desk.session.decisions.entries := by
  obtain ⟨now, later, hanswer, hdecisions, -⟩ := ask_eq h call
  have hverdict : call.verdict schema policy filters = .error (.malformed fault) :=
    Schema.judge_of_malformed hfault hpath
  rw [hverdict] at hanswer hdecisions
  rw [hanswer, hdecisions]
  cases hkey : call.key? filters with
  | none => exact ⟨rfl, rfl⟩
  | some key =>
    obtain ⟨-, rfl⟩ := Session.memoKey?_eq_some hkey
    have habsent : ∀ entry ∈ desk.session.decisions.entries,
        entry.key ≠ ⟨call.path.key, filters call.context⟩ := by
      intro entry hentry hsame
      have hok := hparses entry hentry
      rw [hsame, hfault] at hok
      cases hok
    obtain ⟨hmiss, hentries⟩ := Cache.get_of_absent habsent now
    rw [Cache.consult, Cache.getOrInsert_eq, hmiss]
    exact ⟨rfl, hentries⟩

/-- **The provenance of decisions.**  For any types, policy and limits, after any calls:

* every remembered decision has a filter that parses and ends in a described type, and a path of
  its key was asked about before and decided so;
* a call about a path that ends in a map or in an unknown value changes neither the entries nor the
  counts;
* a call under a filter that does not parse, about any field, is answered with the fault of the
  filter, and changes no entry. -/
theorem decisions_provenance (settings : Settings) (types : List TypeDecl)
    (filters : Nat → String) (roots : Nat → Option Owner) (done : List Call) :
    let schema := (Schema.empty settings.unlabelledInBase).registerAll types
    let desk := (ofSettings settings types filters roots).askAll done
    desk.session.decisions.Holds (Decided schema settings.policy filters done)
      ∧ (∀ call : Call, (∀ type, call.path.terminalOwner ≠ some (.described type)) →
          (desk.ask call).2.session.decisions = desk.session.decisions)
      ∧ ∀ (call : Call) (fault : SyntaxFault), call.path ≠ [] →
          Expression.parse (filters call.context) = .error fault →
            (desk.ask call).1 = .error (.malformed fault)
              ∧ (desk.ask call).2.session.decisions.entries = desk.session.decisions.entries := by
  intro schema desk
  have hstart : (ofSettings settings types filters roots).session.decisions.Holds
      (Recorded schema settings.policy filters []) :=
    Cache.holds_empty _ _
  obtain ⟨htruthful, hrecorded⟩ :=
    holds_askAll (truthful_ofSettings settings types filters roots) hstart done
  have hdecided : desk.session.decisions.Holds (Decided schema settings.policy filters done) :=
    hrecorded.imp fun _ _ => .of_recorded
  refine ⟨hdecided, fun call howner => ?_, fun call fault hpath hfault => ?_⟩
  · refine decisions_ask_of_uncacheable htruthful (Bool.eq_false_iff.2 fun hcacheable => ?_)
    obtain ⟨type, htype⟩ := Path.isCacheable_iff.1 hcacheable
    exact howner type htype
  · exact ask_of_malformed htruthful (hdecided.imp fun _ _ => Decided.parses) hpath hfault

end Desk

end FieldFilter
