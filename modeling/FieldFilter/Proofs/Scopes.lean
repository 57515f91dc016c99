import FieldFilter.Ambient.Thread

/-!
# Scopes put back what was there

A scope installs its filter, runs its body and releases its guard, which cuts the installed filters
off at the number there were.  That restores them just if the body left those below alone.  A guard
that was got inside counts at least the filters that were there on entering, so releasing it leaves
these, in whatever order guards are released and whether all of them are.  A guard from outside need
not, which is why a tidy script has none of them released inside of a scope.

A task keeps its filter apart from the installed ones, and nothing that runs inside of it but
another task changes it.

* `Thread.Rests` — filters that no guard from some number on can take away.
* `Script.rests_run` — running a script that only releases such guards leaves them.
* `Script.ambient_run_scope`, `Script.task_run` — hence a scope restores the ambient filter, and
  every script the filter of the task.
* **`Script.reports_of_tidy`** — what is reported on a tidy script: all of this for each scope and
  each task in it, and what the filter in force is wherever it asks.
-/

namespace FieldFilter

variable {thread : Thread} {floor : List String} {known : Nat}

/-! ## Filters that stay -/

namespace Thread

/-- Some filters lie at the bottom, and guards from some number on count at least those. -/
structure Rests (thread : Thread) (floor : List String) (known : Nat) : Prop where
  installed : floor <+: thread.ambient.installed
  depth : ∀ number guard, known ≤ number → thread.guards[number]? = some guard →
    floor.length ≤ guard.depth

/-- Releasing a guard leaves the filters at the bottom if it counts them. -/
theorem Rests.release {guard : Guard} (h : thread.Rests floor known)
    (hguard : floor.length ≤ guard.depth) :
    (thread.withAmbient (thread.ambient.release guard)).Rests floor known where
  installed := List.prefix_take_iff.2 ⟨h.installed, hguard⟩
  depth := h.depth

/-- Installing a filter leaves the filters at the bottom. -/
theorem Rests.enter (h : thread.Rests floor known) (filter : String) :
    (thread.withAmbient (thread.ambient.enter filter).2).Rests floor known where
  installed := h.installed.trans (List.prefix_append _ _)
  depth := h.depth

/-- A guard that is got counts all filters that are installed, those at the bottom among them. -/
theorem Rests.perform_enter (h : thread.Rests floor known) (filter : String) :
    (thread.perform (.enter filter)).Rests floor known where
  installed := (h.enter filter).installed
  depth := by
    intro number guard hknown hguard
    have hguards : (thread.guards ++ [⟨thread.ambient.installed.length⟩])[number]? = some guard :=
      hguard
    rcases Nat.lt_or_ge number thread.guards.length with hlt | hge
    · rw [List.getElem?_append_left hlt] at hguards
      exact h.depth number guard hknown hguards
    · rw [List.getElem?_append_right hge] at hguards
      obtain rfl := List.mem_singleton.1 (List.mem_of_getElem? hguards)
      exact h.installed.length_le

theorem Rests.perform_release (h : thread.Rests floor known) {number : Nat}
    (hknown : known ≤ number) : (thread.perform (.release number)).Rests floor known := by
  cases hguard : thread.guards[number]? with
  | none => simpa only [perform, hguard] using h
  | some guard =>
    simp only [perform, hguard]
    exact h.release (h.depth number guard hknown hguard)

end Thread

namespace Script

variable {tasks : List String}

/-- **Releasing later guards only leaves the filters at the bottom.** -/
theorem rests_run {script : Script} (tasks : List String) (h : thread.Rests floor known)
    (hreleases : ∀ number ∈ script.releases, known ≤ number) :
    (script.run tasks thread).2.Rests floor known := by
  induction script generalizing tasks thread with
  | skip => exact h
  | current => exact h
  | step move =>
    cases move with
    | enter filter => exact h.perform_enter filter
    | release number => exact h.perform_release (hreleases number (List.mem_singleton_self number))
  | scope filter body ih =>
    have hbody := ih tasks (h.enter filter) hreleases
    exact hbody.release h.installed.length_le
  | task filter body ih =>
    have hentered : (thread.withAmbient { thread.ambient with task := some filter }).Rests floor
        known := ⟨h.installed, h.depth⟩
    have hbody := ih (filter :: tasks) hentered hreleases
    exact ⟨hbody.installed, hbody.depth⟩
  | seq first second ihFirst ihSecond =>
    obtain ⟨hfirst, hsecond⟩ := List.forall_mem_append.1 hreleases
    exact ihSecond tasks (ihFirst tasks h hfirst) hsecond

/-- **Whatever runs, the task has the filter it had before.** -/
theorem task_run (script : Script) (tasks : List String) (thread : Thread) :
    (script.run tasks thread).2.ambient.task = thread.ambient.task := by
  induction script generalizing tasks thread with
  | skip => rfl
  | current => rfl
  | step move =>
    cases move with
    | enter filter => rfl
    | release number =>
      cases hguard : thread.guards[number]? with
      | none => simp only [run, Thread.perform, hguard]
      | some guard => simp only [run, Thread.perform, hguard, Thread.withAmbient, Ambient.release]
  | scope filter body ih => exact ih tasks (thread.withAmbient (thread.ambient.enter filter).2)
  | task filter body ih => rfl
  | seq first second ihFirst ihSecond =>
    exact (ihSecond tasks (first.run tasks thread).2).trans (ihFirst tasks thread)

/-- **A scope restores the ambient filter** if its body releases only guards got inside of it. -/
theorem ambient_run_scope {body : Script} (filter : String)
    (h : ∀ number ∈ body.releases, thread.guards.length ≤ number) :
    ((Script.scope filter body).run tasks thread).2.ambient = thread.ambient := by
  have hentered : (thread.withAmbient (thread.ambient.enter filter).2).Rests
      thread.ambient.installed thread.guards.length := by
    refine ⟨List.prefix_append _ _, fun number guard hknown hguard => ?_⟩
    -- there is no guard from inside of the scope yet
    rw [Thread.withAmbient, List.getElem?_eq_none hknown] at hguard
    cases hguard
  have hrests := rests_run tasks hentered h
  have hinstalled := List.prefix_iff_eq_take.1 hrests.installed
  have htask := body.task_run tasks (thread.withAmbient (thread.ambient.enter filter).2)
  exact (Ambient.mk.injEq _ _ _ _).mpr ⟨hinstalled.symm, htask⟩

/-- How many guards there are after a script. -/
theorem length_guards_run (script : Script) (tasks : List String) (thread : Thread) :
    (script.run tasks thread).2.guards.length = thread.guards.length + script.enterings := by
  induction script generalizing tasks thread with
  | skip => rfl
  | current => rfl
  | step move =>
    cases move with
    | enter filter => exact List.length_append
    | release number =>
      cases hguard : thread.guards[number]? with
      | none => simp only [run, Thread.perform, hguard, enterings, Nat.add_zero]
      | some guard =>
        simp only [run, Thread.perform, hguard, Thread.withAmbient, enterings, Nat.add_zero]
  | scope filter body ih => exact ih tasks (thread.withAmbient (thread.ambient.enter filter).2)
  | task filter body ih =>
    exact ih (filter :: tasks) (thread.withAmbient { thread.ambient with task := some filter })
  | seq first second ihFirst ihSecond =>
    have hsecond := ihSecond tasks (first.run tasks thread).2
    rw [ihFirst tasks thread, Nat.add_assoc] at hsecond
    exact hsecond

end Script

/-! ## What is reported -/

/-- What a report on a tidy script says: a scope puts back all that was there and a task its filter,
and the filter in force is that of the innermost task around or else the one installed last. -/
def Report.IsLawful : Report → Prop
  | .scope before after => after = before
  | .task before after => after.task = before.task
  | .current tasks installed answer => answer = (tasks.head? <|> installed.getLast?)

namespace Script

/-- Every report on a tidy script is lawful, if the tasks around it are those that it runs in. -/
theorem isLawful_of_mem_run {script : Script} (thread : Thread) (tasks : List String)
    (htidy : script.Tidy thread.guards.length) (htasks : thread.ambient.task = tasks.head?)
    {report : Report} (hmem : report ∈ (script.run tasks thread).1) : report.IsLawful := by
  induction script generalizing tasks thread with
  | skip => cases hmem
  | step move => cases hmem
  | current =>
    obtain rfl := List.mem_singleton.1 hmem
    simp only [Report.IsLawful, Ambient.current, htasks]
  | scope filter body ih =>
    rcases List.mem_append.1 hmem with hinner | hown
    · exact ih (thread.withAmbient (thread.ambient.enter filter).2) tasks htidy.2 htasks hinner
    · obtain rfl := List.mem_singleton.1 hown
      exact ambient_run_scope filter htidy.1
  | task filter body ih =>
    rcases List.mem_append.1 hmem with hinner | hown
    · exact ih (thread.withAmbient { thread.ambient with task := some filter }) (filter :: tasks)
        htidy rfl hinner
    · obtain rfl := List.mem_singleton.1 hown
      rfl
  | seq first second ihFirst ihSecond =>
    rcases List.mem_append.1 hmem with hinFirst | hinSecond
    · exact ihFirst thread tasks htidy.1 htasks hinFirst
    · refine ihSecond (first.run tasks thread).2 tasks ?_ ?_ hinSecond
      · rw [length_guards_run]
        exact htidy.2
      · rw [task_run, htasks]

/-- **Scopes put back what was there.**  Run any tidy script on a thread with any filters, guards
and task.  After each scope the installed filters and that of the task are those before it, and
after each task the filter of the task is.  Wherever the script asks, the filter in force is that of
the innermost task around, whatever is installed inside of it, and outside of all tasks it is the
filter that was installed last. -/
theorem reports_of_tidy (script : Script) (thread : Thread)
    (htidy : script.Tidy thread.guards.length) :
    let reports := (script.run thread.ambient.task.toList thread).1
    (∀ before after, .scope before after ∈ reports → after = before)
      ∧ (∀ before after, .task before after ∈ reports → after.task = before.task)
      ∧ (∀ filter outer installed answer,
        .current (filter :: outer) installed answer ∈ reports → answer = some filter)
      ∧ (∀ installed answer,
        .current [] installed answer ∈ reports → answer = installed.getLast?) := by
  intro reports
  have htasks : thread.ambient.task = thread.ambient.task.toList.head? := by
    cases thread.ambient.task <;> rfl
  have hlawful : ∀ report ∈ reports, report.IsLawful :=
    fun report hmem => isLawful_of_mem_run thread _ htidy htasks hmem
  refine ⟨?_, ?_, ?_, ?_⟩
  · intro before after hmem
    exact hlawful _ hmem
  · intro before after hmem
    exact hlawful _ hmem
  · intro filter outer installed answer hmem
    exact hlawful _ hmem
  · intro installed answer hmem
    exact hlawful _ hmem

/-- A scope that releases the first of its two guards and keeps a third one, got in a scope inside
of a task. -/
def auditScript : Script :=
  .seq (.step (.enter "id")) <| .seq
    (.scope "owner" <| .seq (.step (.enter "note")) <| .seq (.step (.enter "tags")) <|
      .seq (.step (.release 1)) <| .seq .current <|
      .task "audit" (.seq (.scope "by" (.step (.enter "hour"))) .current))
    .current

/-- The scopes of this script restore the ambient filter, and its three questions are answered by
the filter of the scope, that of the task, and the first one. -/
theorem reports_auditScript :
    auditScript.Tidy Thread.fresh.guards.length
      ∧ (auditScript.run [] .fresh).1
        = [.current [] ["id", "owner"] (some "owner"),
          .scope ⟨["id", "owner"], some "audit"⟩ ⟨["id", "owner"], some "audit"⟩,
          .current ["audit"] ["id", "owner"] (some "audit"),
          .task ⟨["id", "owner"], none⟩ ⟨["id", "owner"], none⟩,
          .scope ⟨["id"], none⟩ ⟨["id"], none⟩,
          .current [] ["id"] (some "id")]
      ∧ ∀ before after, .scope before after ∈ (auditScript.run [] .fresh).1 → after = before := by
  have htidy : auditScript.Tidy Thread.fresh.guards.length := by
    simp [auditScript, Tidy, releases, enterings, Thread.fresh]
  obtain ⟨hscopes, -⟩ := reports_of_tidy auditScript .fresh htidy
  exact ⟨htidy, by decide, hscopes⟩

end Script

end FieldFilter
