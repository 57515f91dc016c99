import FieldFilter.Proofs.Memoryless

/-!
# Questions leave the types alone

Whatever a session is asked, and whatever its caches answer, its types stay the ones that were
registered.  So two walks through one session, or one walk that is observed, can be followed step
by step with no more known of the session than its schema.

* `Filtering.following` — computations that do to a part of their state what others do to a session
  of a schema, and leave it the schema.
* **`Filtering.follows_includes`** — deciding about a path leaves the schema as it is.
* `Filtering.follows_describe_bind` — looking a type up goes on with what the schema knows.
-/

namespace FieldFilter.Filtering

variable {σ : Type}

/-- Computations that do, to what is viewed of their state, what others do from any state with a
schema, and leave the schema as it is. -/
def following (view : σ → State) (schema : Schema) :
    Simulation (ExceptT Fault (StateM σ)) Filtering where
  Rel computation other := ∀ state, (view state).session.registry.schema = schema →
    (perform computation state).map id view = perform other (view state)
      ∧ (perform other (view state)).2.session.registry.schema = schema
  pure _ _ hschema := ⟨rfl, hschema⟩
  bind := by
    intro α β computation other next otherNext hfirst hnext state hschema
    obtain ⟨hsame, hafter⟩ := hfirst state hschema
    rw [perform_bind, perform_bind, ← hsame]
    rw [← hsame] at hafter
    rcases hrun : perform computation state with ⟨fault | a, after⟩
    · rw [hrun] at hafter
      exact ⟨rfl, hafter⟩
    · rw [hrun] at hafter
      exact hnext a after hafter

variable {schema : Schema}

/-- A computation follows itself, if it keeps the schema. -/
theorem follows_self {α : Type} {computation : Filtering α}
    (h : ∀ state, (perform computation state).2.session.registry.schema
      = state.session.registry.schema) :
    (following id schema).Rel computation computation :=
  fun state hschema => ⟨rfl, (h state).trans hschema⟩

/-- Reading the filter changes nothing about the types. -/
theorem follows_expression [Glob.Engine] : (following id schema).Rel expression expression := by
  refine follows_self fun state => ?_
  obtain ⟨⟨filter, root, parsed⟩, session⟩ := state
  cases parsed <;> rfl

theorem follows_remembered (path : Path) :
    (following id schema).Rel (remembered path) (remembered path) := by
  refine follows_self fun state => ?_
  rw [perform_remembered, Session.remembered]
  cases Session.decisionKey? path state.bound.filter <;> rfl

theorem follows_remember (path : Path) (included : Bool) :
    (following id schema).Rel (remember path included) (remember path included) := by
  refine follows_self fun state => ?_
  rw [perform_remember, Session.remember]
  cases Session.decisionKey? path state.bound.filter <;> rfl

/-- **Deciding about a path keeps the schema**, whatever the caches hold. -/
theorem follows_includes [Glob.Engine] (path : Path) :
    (following id schema).Rel (includes path) (includes path) := by
  have hget : (following id schema).Rel get get := follows_self fun _ => rfl
  have hdecide : (following id schema).Rel (decide path) (decide path) := by
    refine (following id schema).bind follows_expression fun expression => ?_
    refine (following id schema).bind hget fun state => ?_
    exact Simulation.includes
      (Simulation.lookups_ofDescriptions fun type => follows_self fun _ => rfl) expression _ path
  refine (following id schema).bind hget fun state => ?_
  split
  · exact (following id schema).pure true
  · refine (following id schema).bind (follows_remembered path) fun found => ?_
    cases found with
    | some included => exact (following id schema).pure included
    | none =>
        exact (following id schema).bind hdecide fun included =>
          (following id schema).bind (follows_remember path included) fun _ =>
            (following id schema).pure included

/-- What goes on with the description of a type follows what goes on with it in a session, if it
does so for every description that the schema has. -/
theorem follows_describe_bind {α : Type} {view : σ → State} {type : String}
    {look : ExceptT Fault (StateM σ) TypeInfo}
    (hlook : ∀ state, (perform look state).map id view = perform (describe type) (view state))
    {next : TypeInfo → ExceptT Fault (StateM σ) α} {otherNext : TypeInfo → Filtering α}
    (h : ∀ info, schema.find? type = some info →
      (following view schema).Rel (next info) (otherNext info)) :
    (following view schema).Rel (look >>= next) (describe type >>= otherNext) := by
  intro state hschema
  have hanswer : (perform look state).1 = (schema.describe type).mapError .lookup := by
    rw [← hschema]
    exact congrArg Prod.fst (hlook state)
  have hafter : (view (perform look state).2).session.registry.schema = schema := by
    rw [← hschema]
    exact congrArg (fun run => run.2.session.registry.schema) (hlook state)
  rw [perform_bind, perform_bind, ← hlook]
  rcases hrun : perform look state with ⟨answer, after⟩
  rw [hrun] at hanswer hafter
  dsimp only at hanswer
  subst hanswer
  rw [Schema.describe]
  cases hinfo : schema.find? type with
  | none => exact ⟨rfl, hafter⟩
  | some info => exact h info hinfo after hafter

end FieldFilter.Filtering
