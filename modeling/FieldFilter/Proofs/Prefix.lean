import FieldFilter.Matching
import Mathlib.Tactic.ByContra

/-!
# Decisions along a path

A path is followed from the root, and what is decided at a field is decided for everything below
it.  The last field of a path is treated like any other except for one thing: the base view is not
put in place of an empty level below it, where nothing is looked for.  So the run on a longer path
is not the run on its beginning continued, but the two agree on every field they share.

* `Outcome.verdict?` — what an outcome decides, if it decides something.
* `verdict?_step` — being the last field changes no verdict.
* **`follow_append`** — an exclusion or a failed lookup on the way settles the rest of the path.
* **`follow_of_append`** — what is included is reached through included fields only.
* `Expression.descend` — going down a path and stopping where nothing more can be included.
* **`Expression.includes_append`** — how the decisions about a path and about its beginnings hang
  together, and that nothing is lost by stopping.
-/

namespace FieldFilter

namespace Matching

/-- What an outcome decides, if it decides something. -/
def Outcome.verdict? : Outcome → Option Bool
  | .decided included => some included
  | .moved _ => none

/-- The level below a node has no say in what the node decides. -/
theorem verdict?_enter (policy : ViewPolicy) (isLast isLast' asView : Bool) (labels : List String)
    (node : Node) :
    (enter policy isLast asView labels node).verdict?
      = (enter policy isLast' asView labels node).verdict? := by
  simp only [enter]
  split
  · rfl
  · split <;> rfl

/-- **Being the last field of a path changes no verdict.** -/
theorem verdict?_step {m : Type → Type} [Monad m] [LawfulMonad m] (lookup : TypeLookup m)
    (policy : ViewPolicy) (isLast isLast' : Bool) (cursor : Cursor) (element : Element) :
    Outcome.verdict? <$> step lookup policy isLast cursor element
      = Outcome.verdict? <$> step lookup policy isLast' cursor element := by
  simp only [step]
  split
  · rfl
  · split
    · rw [map_pure, map_pure, verdict?_enter]
    · rw [map_bind, map_bind]
      refine congrArg _ (funext fun found => ?_)
      cases found with
      | some node => rw [map_pure, map_pure, verdict?_enter]
      | none => rfl

variable {ε : Type} {lookup : TypeLookup (Except ε)} {policy : ViewPolicy}

/-- A field at which a run stops stops every longer run in the same way. -/
theorem step_of_decided {isLast : Bool} {cursor : Cursor} {element : Element} {included : Bool}
    (h : step lookup policy isLast cursor element = .ok (.decided included)) (isLast' : Bool) :
    step lookup policy isLast' cursor element = .ok (.decided included) := by
  have hverdict := verdict?_step lookup policy isLast isLast' cursor element
  rw [h] at hverdict
  generalize step lookup policy isLast' cursor element = answer at hverdict ⊢
  rcases answer with fault | ⟨included' | next⟩
  · cases hverdict
  · cases hverdict
    rfl
  · cases hverdict

/-- A lookup that fails at a field fails in every longer run. -/
theorem step_of_error {isLast : Bool} {cursor : Cursor} {element : Element} {fault : ε}
    (h : step lookup policy isLast cursor element = .error fault) (isLast' : Bool) :
    step lookup policy isLast' cursor element = .error fault := by
  have hverdict := verdict?_step lookup policy isLast isLast' cursor element
  rw [h] at hverdict
  generalize step lookup policy isLast' cursor element = answer at hverdict ⊢
  rcases answer with fault' | outcome
  · cases hverdict
    rfl
  · cases hverdict

/-- A run that does not end in an inclusion stops within its path, and so does every longer
one. -/
theorem follow_append {cursor : Cursor} {path : Path} {answer : Except ε Bool}
    (h : follow lookup policy cursor path = answer) (hanswer : answer ≠ .ok true) (rest : Path) :
    follow lookup policy cursor (path ++ rest) = answer := by
  induction path generalizing cursor with
  | nil => exact absurd h.symm hanswer
  | cons element later ih =>
      rw [List.cons_append, follow]
      rw [follow] at h
      rcases hstep : step lookup policy later.isEmpty cursor element with fault | ⟨included | next⟩
      · rw [hstep] at h
        rw [step_of_error hstep]
        exact h
      · rw [hstep] at h
        rw [step_of_decided hstep]
        exact h
      · rw [hstep] at h
        cases later with
        | nil => exact absurd h.symm hanswer
        | cons =>
            rw [List.cons_append, List.isEmpty_cons] at *
            rw [hstep]
            exact ih h

/-- **What is included is reached through included fields only.** -/
theorem follow_of_append {cursor : Cursor} {path rest : Path}
    (h : follow lookup policy cursor (path ++ rest) = .ok true) :
    follow lookup policy cursor path = .ok true := by
  by_contra hanswer
  exact hanswer ((follow_append rfl hanswer rest).symm.trans h)

end Matching

namespace Expression

variable {ε : Type}

/-- What someone is told who goes down a path field by field, and who does not go below a field
that is excluded or cannot be decided.  The fields in `above` were included. -/
def descend (expression : Expression) (lookup : TypeLookup (Except ε)) (policy : ViewPolicy)
    (above : Path) : Path → Except ε Bool
  | [] => .ok true
  | element :: rest => do
    if ← expression.includes lookup policy (above ++ [element]) then
      descend expression lookup policy (above ++ [element]) rest
    else pure false

/-- Below fields that are included, going down gives the decision about the whole path. -/
theorem descend_eq {expression : Expression} {lookup : TypeLookup (Except ε)}
    {policy : ViewPolicy} {above : Path}
    (habove : expression.includes lookup policy above = .ok true) (rest : Path) :
    expression.descend lookup policy above rest
      = expression.includes lookup policy (above ++ rest) := by
  induction rest generalizing above with
  | nil =>
      rw [List.append_nil, habove]
      rfl
  | cons element rest ih =>
      have hsplit : above ++ element :: rest = (above ++ [element]) ++ rest := by simp
      rw [descend, hsplit]
      -- the step may fail, exclude or include; the first two settle the rest of the path
      cases hstep : expression.includes lookup policy (above ++ [element]) with
      | error fault =>
          have hrest : expression.includes lookup policy ((above ++ [element]) ++ rest)
              = .error fault := Matching.follow_append hstep nofun rest
          rw [hrest]
          rfl
      | ok included =>
          cases included with
          | true => exact ih hstep
          | false =>
              have hrest : expression.includes lookup policy ((above ++ [element]) ++ rest)
                  = .ok false := Matching.follow_append hstep nofun rest
              rw [hrest]
              rfl

/-- **A decision binds everything below it.**  For any questions about types, which may fail: what
is included is reached through included fields only; below an excluded field everything is
excluded; and below a field that fails everything fails in the same way.  So whoever goes down a
path and stops at such a field is told about every field what would be decided about it. -/
theorem includes_append (expression : Expression) (lookup : TypeLookup (Except ε))
    (policy : ViewPolicy) (path rest : Path) :
    (expression.includes lookup policy (path ++ rest) = .ok true →
        expression.includes lookup policy path = .ok true)
      ∧ (expression.includes lookup policy path = .ok false →
        expression.includes lookup policy (path ++ rest) = .ok false)
      ∧ (∀ fault, expression.includes lookup policy path = .error fault →
        expression.includes lookup policy (path ++ rest) = .error fault)
      ∧ expression.descend lookup policy [] (path ++ rest)
        = expression.includes lookup policy (path ++ rest) := by
  have hroot : expression.includes lookup policy [] = .ok true := rfl
  refine ⟨?_, ?_, ?_, descend_eq hroot (path ++ rest)⟩
  · intro hincluded
    exact Matching.follow_of_append hincluded
  · intro hexcluded
    exact Matching.follow_append hexcluded nofun rest
  · intro fault hfault
    exact Matching.follow_append hfault nofun rest

end Expression

end FieldFilter
