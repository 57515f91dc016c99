import FieldFilter.Proofs.Encoded
import FieldFilter.Source.Use
import Mathlib.Data.List.Basic

/-!
# The customizer runs once for each type

The filter for a type is resolved when it is asked for the first time, and kept.  So what an
exchange is after any uses depends on the types alone that it was asked about, each counted where it
came up first: `Exchange.afterTypes` is that state, with the filters and the calls of the customizer
written down in turn.  A use that needs the filter for a type asks the exchange about it, and one
that needs none leaves the exchange alone; so the types of a run are read off its uses.

* `AssocList.lookup_mapIdx` — what is found where values depend on the place of their key.
* **`Exchange.filterFor_afterTypes`** — one question, about an old type or a new one.
* `Exchange.performAll_afterTypes` — any run of uses.
* **`Exchange.calls_performAll`** — the calls of the customizer, and the filters that all uses go by.
-/

namespace FieldFilter

/-- Entries whose values are worked out from the key and its place answer for the first place of a
key. -/
theorem AssocList.lookup_mapIdx {κ ν : Type} [BEq κ] [LawfulBEq κ] [DecidableEq κ]
    (keys : List κ) (value : Nat → κ → ν) (key : κ) :
    (keys.mapIdx fun i other => (other, value i other)).lookup key
      = if key ∈ keys then some (value (keys.idxOf key) key) else none := by
  induction keys generalizing value with
  | nil => rfl
  | cons head rest ih =>
    rw [List.mapIdx_cons, lookup_cons_ite, ih, List.idxOf_cons]
    by_cases hhead : key = head
    · simp [hhead]
    · have hskip : (head == key) = false := beq_eq_false_iff_ne.2 (Ne.symm hhead)
      simp [hhead, hskip]

namespace Exchange

open FilterSource

variable {start : Exchange} {customize : Customizer}

/-- The filter that the customizer names for a type, if it is asked about some types in turn. -/
def customized (start : Exchange) (customize : Customizer) (types : List (Option Owner))
    (root : Option Owner) : Option String :=
  customize (types.idxOf root) start.proposed start.request root

/-- An exchange after the customizer was asked about some types in turn. -/
def afterTypes (start : Exchange) (customize : Customizer) (types : List (Option Owner)) :
    Exchange :=
  { start with
    resolved := types.mapIdx fun i root => (root, customize i start.proposed start.request root)
    calls := types.map (⟨start.proposed, ·⟩) }

/-- Types that are asked about later do not change the filters for the earlier ones. -/
theorem customized_append {asked : List (Option Owner)} {root : Option Owner} (h : root ∈ asked)
    (later : List (Option Owner)) :
    start.customized customize (asked ++ later).eraseDups root
      = start.customized customize asked.eraseDups root := by
  rw [customized, customized, List.eraseDups_append,
    List.idxOf_append_of_mem (List.mem_eraseDups.2 h)]

/-- What an exchange has resolved is found by type. -/
theorem lookup_afterTypes (types : List (Option Owner)) (root : Option Owner) :
    (start.afterTypes customize types).resolved.lookup root
      = if root ∈ types then some (start.customized customize types root) else none :=
  AssocList.lookup_mapIdx types (fun i root => customize i start.proposed start.request root) root

/-- The filter for a type that was asked about before is the one it got then. -/
theorem filterFor_of_mem {types : List (Option Owner)} {root : Option Owner} (h : root ∈ types) :
    (start.afterTypes customize types).filterFor root
      = (start.customized customize types root, start.afterTypes customize types) := by
  rw [filterFor, lookup_afterTypes, if_pos h]

/-- A type that was not asked about before makes one more call of the customizer. -/
theorem filterFor_of_not_mem (hcustomizer : start.customizer = some customize)
    {types : List (Option Owner)} {root : Option Owner} (h : root ∉ types) :
    (start.afterTypes customize types).filterFor root
      = (start.customized customize (types ++ [root]) root,
          start.afterTypes customize (types ++ [root])) := by
  have hplace : (types ++ [root]).idxOf root = types.length := by
    simp [List.idxOf_append_of_notMem h]
  rw [filterFor, lookup_afterTypes, if_neg h, resolve]
  simp [hcustomizer, customized, afterTypes, proposed, hplace, List.mapIdx_concat]

/-- **A question about a type** is answered by the filter that the customizer names when the type
comes up first, and makes a call only if it comes up now. -/
theorem filterFor_afterTypes (hcustomizer : start.customizer = some customize)
    (asked : List (Option Owner)) (root : Option Owner) :
    (start.afterTypes customize asked.eraseDups).filterFor root
      = (start.customized customize (asked ++ [root]).eraseDups root,
          start.afterTypes customize (asked ++ [root]).eraseDups) := by
  rw [List.eraseDups_append]
  by_cases hknown : root ∈ asked
  · have hnone : [root].removeAll asked = [] := by simp [List.removeAll, hknown]
    rw [hnone, List.eraseDups_nil, List.append_nil]
    exact filterFor_of_mem (List.mem_eraseDups.2 hknown)
  · have hnew : [root].removeAll asked = [root] := by simp [List.removeAll, hknown]
    have hsingle : [root].eraseDups = [root] := by
      rw [List.eraseDups_cons, List.filter_nil, List.eraseDups_nil]
    rw [hnew, hsingle]
    exact filterFor_of_not_mem hcustomizer (mt List.mem_eraseDups.1 hknown)

/-- **A use** is answered as under the filter that the customizer names for the type it needs, and
leaves the exchange as a question about that type does.  Types that come up later do not matter. -/
theorem perform_afterTypes [Glob.Engine] (hcustomizer : start.customizer = some customize)
    (asked later : List (Option Owner)) (use : Use) :
    source.perform (start.afterTypes customize asked.eraseDups) use
      = (((table start.isEnabled (start.customized customize
            (asked ++ (use.root? start.isEnabled).toList ++ later).eraseDups)).perform () use).1,
          start.afterTypes customize (asked ++ (use.root? start.isEnabled).toList).eraseDups) := by
  have henabled : source.isEnabled (start.afterTypes customize asked.eraseDups)
      = start.isEnabled := rfl
  have hstep := perform_eq source (start.afterTypes customize asked.eraseDups) use
    (start.customized customize
      (asked ++ (use.root? start.isEnabled).toList ++ later).eraseDups)
  rw [henabled] at hstep
  cases hroot : use.root? start.isEnabled with
  | none =>
    rw [hroot] at hstep
    simpa using hstep nofun
  | some root =>
    have hasked : source.filterFor root (start.afterTypes customize asked.eraseDups)
        = (start.customized customize (asked ++ [root]).eraseDups root,
            start.afterTypes customize (asked ++ [root]).eraseDups) :=
      filterFor_afterTypes hcustomizer asked root
    have hlater : start.customized customize (asked ++ [root] ++ later).eraseDups root
        = start.customized customize (asked ++ [root]).eraseDups root :=
      customized_append (by simp) later
    simp only [hroot, Option.toList_some, Option.mem_some_iff, forall_eq', hasked, hlater,
      forall_const, Option.map_some, Option.getD_some] at hstep ⊢
    exact hstep

/-- **Any uses** are answered as under the filters that the customizer names for the types they
need, each where it comes up first; and they leave the exchange as questions about these types do. -/
theorem performAll_afterTypes [Glob.Engine] (hcustomizer : start.customizer = some customize)
    (asked : List (Option Owner)) (uses : List Use) :
    source.performAll (start.afterTypes customize asked.eraseDups) uses
      = (uses.map fun use =>
            ((table start.isEnabled (start.customized customize
              (asked ++ uses.filterMap (Use.root? start.isEnabled)).eraseDups)).perform () use).1,
          start.afterTypes customize
            (asked ++ uses.filterMap (Use.root? start.isEnabled)).eraseDups) := by
  induction uses generalizing asked with
  | nil => simp [performAll]
  | cons use rest ih =>
    have hroots : asked ++ (use :: rest).filterMap (Use.root? start.isEnabled)
        = asked ++ (use.root? start.isEnabled).toList
            ++ rest.filterMap (Use.root? start.isEnabled) := by
      cases hroot : use.root? start.isEnabled <;> simp [hroot]
    rw [hroots, performAll, perform_afterTypes hcustomizer asked
      (rest.filterMap (Use.root? start.isEnabled))]
    dsimp only
    rw [ih]
    rfl

/-- **The customizer runs once for each type**, in the order in which the types come up, and always
gets the filter that the request names or else the default one: whatever names and values are
written into its query, the first value of the parameter, and the default filter if there is none or
no query.  All uses go by the filters that the customizer named then, an absent one too.  Where
nothing is filtered, a pass over a value or a decision leaves the exchange as it is.

The customizer may name another filter at each call.  What it goes by apart from what it is told is
the number of its calls so far, so that any course its answers can take is that of some customizer. -/
theorem calls_performAll [Glob.Engine] (settings : RequestSettings) (customize : Customizer)
    (request : Request) (status : Nat) (uses : List Use) :
    let start := ofRequest settings (some customize) request status
    let filter := Query.first? request.uri settings.param <|> settings.defaultFilter
    let types := (uses.filterMap (Use.root? start.isEnabled)).eraseDups
    let after := source.performAll start uses
    (∀ given, Query.Carries request.uri given →
        filter = (given.lookup settings.param <|> settings.defaultFilter))
      ∧ ('?' ∉ request.uri.toList → filter = settings.defaultFilter)
      ∧ after.2.calls = types.map (fun root => ⟨filter, root⟩)
      ∧ after.1 = uses.map (fun use =>
          ((table start.isEnabled fun root =>
            customize (types.idxOf root) filter request root).perform () use).1)
      ∧ ∀ use : Use, start.isEnabled = false → use.isPass = true →
          (source.perform after.2 use).2 = after.2 := by
  intro start filter types after
  have hcarries : ∀ given, Query.Carries request.uri given →
      filter = (given.lookup settings.param <|> settings.defaultFilter) :=
    fun given h => congrArg (· <|> settings.defaultFilter) (h.first? settings.param)
  have hbare : '?' ∉ request.uri.toList → filter = settings.defaultFilter :=
    fun h => congrArg (· <|> settings.defaultFilter) (Query.first?_of_not_mem h settings.param)
  have hcustomizer : start.customizer = some customize := rfl
  have hafter : after = (uses.map fun use =>
        ((table start.isEnabled (start.customized customize types)).perform () use).1,
      start.afterTypes customize types) := performAll_afterTypes hcustomizer [] uses
  rw [hafter]
  refine ⟨hcarries, hbare, rfl, rfl, fun use hdisabled hpass => ?_⟩
  have hroot : use.root? start.isEnabled = none := by
    cases use with
    | filterFor root => cases hpass
    | bind root => cases hpass
    | includes session path => rw [hdisabled]; rfl
    | prune session placeholder root value => rw [hdisabled]; rfl
  have hstep := perform_afterTypes hcustomizer (uses.filterMap (Use.root? start.isEnabled)) [] use
  simp only [hroot, Option.toList_none, List.append_nil] at hstep
  exact congrArg Prod.snd hstep

/-- Names no filter at its first call, and after that the one that it is told. -/
def hesitant : Customizer :=
  fun calls filter _ _ => if calls = 0 then none else filter

/-- Two types come up, the first of them twice, and each is asked about with the first filter of the
query.  The answer to the first call stays, although it is no filter. -/
theorem calls_performAll_orders :
    let start := ofRequest RequestSettings.default (some hesitant) ⟨"GET", orderUri, []⟩ 200
    let after := source.performAll start
      [.filterFor none, .filterFor (some (.described "Order")), .filterFor none]
    after.2.calls = [⟨some "na=me\x7bé,🙂\x7d#", none⟩,
        ⟨some "na=me\x7bé,🙂\x7d#", some (.described "Order")⟩]
      ∧ after.1 = [.filter none, .filter (some "na=me\x7bé,🙂\x7d#"), .filter none] := by
  intro start after
  obtain ⟨hcarries, -, hcalls, hanswers, -⟩ := calls_performAll RequestSettings.default hesitant
    ⟨"GET", orderUri, []⟩ 200
    [.filterFor none, .filterFor (some (.described "Order")), .filterFor none]
  have hfilter := hcarries orderPairs carries_orders
  rw [hfilter] at hcalls hanswers
  exact ⟨hcalls, hanswers⟩

end Exchange

end FieldFilter
