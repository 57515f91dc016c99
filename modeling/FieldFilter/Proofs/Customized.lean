import FieldFilter.Proofs.Memoryless
import FieldFilter.Request

/-!
# Pruning under the filter of an exchange

The filter of an exchange comes from the request or is the default one, and a customizer may
adjust it for each type.  Whether anything is filtered at all is decided for the exchange as a
whole, by the filter before it is adjusted.  Where that filter takes something away, a response is
pruned under the adjusted filter; and it does not matter which types were asked about before, as
far as the customizer goes by what it is told alone.

* `Exchange.ofPure` — an exchange whose customizer answers alike every time.
* `Exchange.Recalls` — the filters resolved so far are those that would be resolved anew.
* **`Exchange.filterFor_of_recalls`**, **`Exchange.recalls_asked`** — one question, and any number
  of them.
* **`Session.pruneFrom_asked`** — a response is pruned under the adjusted filter.
* `Session.pruneFrom_unasked_ne` — a filter that is only the customizer's is not applied.
-/

namespace FieldFilter

namespace Exchange

/-- An exchange whose customizer, if there is one, answers by the filter, the request and the type
alone. -/
def ofPure (settings : RequestSettings)
    (customizer : Option (Option String → Request → Option Owner → Option String))
    (request : Request) (status : Nat) : Exchange :=
  ofRequest settings (customizer.map fun customize _ => customize) request status

/-- An exchange after its filters for some types were asked for, one after the other. -/
def asked (binding : Exchange) (roots : List (Option Owner)) : Exchange :=
  roots.foldl (fun binding root => (binding.filterFor root).2) binding

/-- An exchange that differs from an earlier one in what was resolved and called, and has resolved
what the earlier one would. -/
structure Recalls (start binding : Exchange) : Prop where
  same : binding = { start with resolved := binding.resolved, calls := binding.calls }
  resolved : ∀ root filter, binding.resolved.lookup root = some filter →
    filter = (start.resolve root).1

/-- A new exchange has resolved nothing. -/
theorem recalls_ofRequest (settings : RequestSettings) (customizer : Option Customizer)
    (request : Request) (status : Nat) :
    (ofRequest settings customizer request status).Recalls
      (ofRequest settings customizer request status) where
  same := rfl
  resolved := by
    intro root filter h
    cases h

variable {settings : RequestSettings}
  {customizer : Option (Option String → Request → Option Owner → Option String)}
  {request : Request} {status : Nat} {binding : Exchange}

/-- What was resolved and called before does not show in what is resolved. -/
theorem resolve_of_recalls (h : (ofPure settings customizer request status).Recalls binding)
    (root : Option Owner) :
    (binding.resolve root).1 = ((ofPure settings customizer request status).resolve root).1
      ∧ (binding.resolve root).2 = { binding with calls := (binding.resolve root).2.calls } := by
  rw [h.same]
  cases customizer with
  | none => exact ⟨rfl, rfl⟩
  | some customize => exact ⟨rfl, rfl⟩

/-- **The filter for a type is the one that would be resolved at first**, and asking for it
changes no other. -/
theorem filterFor_of_recalls (h : (ofPure settings customizer request status).Recalls binding)
    (root : Option Owner) :
    (binding.filterFor root).1 = ((ofPure settings customizer request status).resolve root).1
      ∧ (ofPure settings customizer request status).Recalls (binding.filterFor root).2 := by
  rw [filterFor]
  cases hfound : binding.resolved.lookup root with
  | some filter => exact ⟨h.resolved root filter hfound, h⟩
  | none =>
      obtain ⟨hfilter, hafter⟩ := resolve_of_recalls h root
      dsimp only
      refine ⟨hfilter, ?_, ?_⟩
      · rw [hafter, h.same]
      · intro other filter hlookup
        rw [hafter] at hlookup
        dsimp only at hlookup
        rw [List.lookup_append, Option.or_eq_some_iff] at hlookup
        rcases hlookup with hbefore | ⟨-, hnew⟩
        · exact h.resolved other filter hbefore
        · rw [AssocList.lookup_cons_ite] at hnew
          split at hnew
          · next heq =>
            rw [heq, ← hfilter]
            exact (Option.some.inj hnew).symm
          · cases hnew

/-- **Questions about any types leave the filters as they are.** -/
theorem recalls_asked (h : (ofPure settings customizer request status).Recalls binding)
    (roots : List (Option Owner)) :
    (ofPure settings customizer request status).Recalls (binding.asked roots) := by
  induction roots generalizing binding with
  | nil => exact h
  | cons root rest ih => exact ih (filterFor_of_recalls h root).2

/-- Whether a response is filtered does not depend on what was asked. -/
theorem isEnabled_of_recalls {start : Exchange} (h : start.Recalls binding) :
    binding.isEnabled = start.isEnabled := by
  rw [h.same]
  rfl

end Exchange

namespace Session

/-- **A response is pruned under the adjusted filter.**  Suppose that a response is successful, and
that the filter of the request, or the default one if it has none, takes something away.  Then it
is pruned as under the filter that the exchange has for its type, whatever was asked before. -/
theorem pruneFrom_asked [Glob.Engine] {settings : Settings}
    (hdisabled : settings.decisionCache.isDisabled = true) (types : List TypeDecl)
    {config : RequestSettings}
    {customizer : Option (Option String → Request → Option Owner → Option String)}
    {request : Request} {status : Nat} (hstatus : 200 ≤ status ∧ status < 300)
    (hproposed : FilterSource.isActive
      (Exchange.ofPure config customizer request status).proposed = true)
    {root : Owner} {filter : String}
    (hfilter : ((Exchange.ofPure config customizer request status).filterFor (some root)).1
      = some filter)
    (roots : List (Option Owner)) (contextRoot : Option Owner) (placeholder : Option Json)
    (value : Json) :
    ((ofSettings settings types).pruneFrom Exchange.source
        ((Exchange.ofPure config customizer request status).asked roots) placeholder root value).1
      = ((ofSettings settings types).prune (.ofFilter filter contextRoot) placeholder root
          value).1 := by
  have hstart : (Exchange.ofPure config customizer request status).Recalls
      (Exchange.ofPure config customizer request status) :=
    Exchange.recalls_ofRequest _ _ _ _
  have hasked := Exchange.recalls_asked hstart roots
  -- the gate looks at what was proposed, and that does not change
  have henabled : Exchange.source.isEnabled
      ((Exchange.ofPure config customizer request status).asked roots) = true := by
    have hboth : (Exchange.ofPure config customizer request status).isEnabled = true := by
      rw [Exchange.isEnabled, hproposed, Bool.and_true]
      exact Bool.and_eq_true_iff.2 ⟨decide_eq_true hstatus.1, decide_eq_true hstatus.2⟩
    exact (Exchange.isEnabled_of_recalls hasked).trans hboth
  have hbound : (Exchange.source.bind (some root)
      ((Exchange.ofPure config customizer request status).asked roots)).1
        = .ofFilter filter (some root) := by
    have hsame : (((Exchange.ofPure config customizer request status).asked roots).filterFor
        (some root)).1 = some filter := by
      rw [(Exchange.filterFor_of_recalls hasked (some root)).1,
        ← (Exchange.filterFor_of_recalls hstart (some root)).1]
      exact hfilter
    have hbind : ∀ binding : Exchange, (Exchange.source.bind (some root) binding).1
        = .ofFilter ((binding.filterFor (some root)).1.getD Expression.everything)
            (some root) := fun _ => rfl
    rw [hbind, hsame]
    rfl
  have htruthful := truthful_ofSettings settings types
  rw [pruneFrom, if_pos henabled]
  dsimp only
  rw [hbound, prune_of_isDisabled htruthful hdisabled (BoundFilter.truthful_ofFilter _ _),
    prune_of_isDisabled htruthful hdisabled (BoundFilter.truthful_ofFilter _ _)]

/-- A document with an identifier and a title. -/
def docTypes : List TypeDecl :=
  [⟨"Doc", [⟨"id", [], false, false, .untyped⟩, ⟨"title", [], false, false, .untyped⟩]⟩]

def doc : Json :=
  .object [("id", .number 3 0), ("title", .string "t")]

/-- The settings of a session that remembers no decision. -/
def forgetful : Settings :=
  { Settings.default with decisionCache := .ofSize 0 }

/-- A request that names a filter, which is adjusted, is answered under the adjusted one. -/
theorem pruneFrom_docTitle :
    ((ofSettings forgetful docTypes).pruneFrom Exchange.source
        ((Exchange.ofPure .default (some fun _ _ _ => some "id")
          ⟨"GET", "/docs/3?fields=title", []⟩ 200).asked [none]) none (.described "Doc") doc).1
      = ((ofSettings forgetful docTypes).prune (.ofFilter "id" none) none (.described "Doc")
          doc).1 :=
  pruneFrom_asked rfl docTypes (by decide) (by decide +kernel) (by decide +kernel) [none] none none
    doc

/-- **A filter that is only the customizer's is not applied.**  The request names no filter and
there is no default one, so the response is not filtered, although the exchange has a filter for
its type. -/
theorem pruneFrom_unasked_ne :
    ((Exchange.ofPure .default (some fun _ _ _ => some "id") ⟨"GET", "/docs/3", []⟩ 200).filterFor
        (some (.described "Doc"))).1 = some "id"
      ∧ "id" ≠ Expression.everything
      ∧ ((ofSettings forgetful docTypes).pruneFrom Exchange.source
          (Exchange.ofPure .default (some fun _ _ _ => some "id") ⟨"GET", "/docs/3", []⟩ 200) none
          (.described "Doc") doc).1
        ≠ ((ofSettings forgetful docTypes).prune (.ofFilter "id" none) none (.described "Doc")
            doc).1 := by
  decide +kernel

end Session

end FieldFilter
