import FieldFilter.Ambient.Thread

/-!
# What a released guard removes

A guard stands for its filter and everything that is installed after it.  What it holds is a number
only: how many filters were installed when it was got.  As long as guards are released in the
reverse order, this comes to the same.  If an older guard goes first, filters below go with it, and
a filter that is installed afterwards takes a place that the guard counts as one of those before its
own.

* `Ledger.Kept`, `Ledger.kept_after` — the entries of a ledger are the installed filters, in the
  order of their numbers.
* `Ledger.older_performAll` — of what was installed when a guard was got the first ones are left,
  whatever is done since.
* **`Ledger.release_eq_older_iff`** — what is left when a guard is released, and when that is
  everything from before it and nothing else.
* `Ledger.release_outOfOrder_ne` — a filter that outlives the release of an older guard.
-/

namespace FieldFilter

namespace Ledger

variable {ledger : Ledger} {number : Nat}

/-! ## How a ledger is kept -/

/-- A ledger that is rightly kept. -/
structure Kept (ledger : Ledger) : Prop where
  filters : ledger.entries.map (·.filter) = ledger.thread.ambient.installed
  ordered : ledger.entries.Pairwise fun earlier later => earlier.number < later.number
  known : ∀ entry ∈ ledger.entries, entry.number < ledger.thread.guards.length

/-- What releasing a guard does, if there is one with the number. -/
theorem perform_release {guard : Guard} (h : ledger.thread.guards[number]? = some guard) :
    ledger.perform (.release number)
      = ⟨ledger.thread.withAmbient (ledger.thread.ambient.release guard),
        ledger.entries.take guard.depth⟩ := by
  simp only [perform, Thread.perform, h]

theorem perform_release_none (h : ledger.thread.guards[number]? = none) :
    ledger.perform (.release number) = ledger := by
  simp only [perform, Thread.perform, h]

theorem Kept.enter (h : ledger.Kept) (filter : String) :
    (ledger.perform (.enter filter)).Kept where
  filters := by
    simp only [perform, Thread.perform, Ambient.enter, List.map_append, h.filters, List.map_cons,
      List.map_nil]
  ordered := by
    refine List.pairwise_append.2 ⟨h.ordered, List.pairwise_singleton _ _, ?_⟩
    intro earlier hearlier later hlater
    rw [List.mem_singleton.1 hlater]
    exact h.known earlier hearlier
  known := by
    intro entry hmem
    simp only [perform, Thread.perform, List.length_append, List.length_singleton] at hmem ⊢
    rcases List.mem_append.1 hmem with hmem | hmem
    · exact Nat.lt_succ_of_lt (h.known entry hmem)
    · rw [List.mem_singleton.1 hmem]
      exact Nat.lt_succ_self _

theorem Kept.release (h : ledger.Kept) (number : Nat) :
    (ledger.perform (.release number)).Kept := by
  cases hguard : ledger.thread.guards[number]? with
  | none => rwa [perform_release_none hguard]
  | some guard =>
    have hsub : (ledger.entries.take guard.depth).Sublist ledger.entries :=
      List.take_sublist _ _
    rw [perform_release hguard]
    constructor
    · simp only [Thread.withAmbient, Ambient.release, List.map_take, h.filters]
    · exact h.ordered.sublist hsub
    · exact fun entry hmem => h.known entry (hsub.subset hmem)

theorem Kept.performAll (h : ledger.Kept) (moves : List Move) : (ledger.performAll moves).Kept := by
  induction moves generalizing ledger with
  | nil => exact h
  | cons move rest ih =>
    refine @ih (ledger.perform move) ?_
    cases move with
    | enter filter => exact h.enter filter
    | release number => exact h.release number

/-- Whatever a thread does, its ledger is rightly kept. -/
theorem kept_after (moves : List Move) : (after moves).Kept := by
  have hfresh : Kept ⟨.fresh, []⟩ := ⟨rfl, List.Pairwise.nil, by simp⟩
  exact hfresh.performAll moves

theorem thread_performAll (ledger : Ledger) (moves : List Move) :
    (ledger.performAll moves).thread = ledger.thread.performAll moves := by
  induction moves generalizing ledger with
  | nil => rfl
  | cons move rest ih => exact ih (ledger.perform move)

/-! ## Before and since a guard -/

/-- Numbers increase along the entries, so those from before a guard come first. -/
theorem Kept.older_append_newer (h : ledger.Kept) (number : Nat) :
    ledger.older number ++ ledger.newer number = ledger.entries := by
  have hordered := h.ordered
  unfold older newer
  generalize ledger.entries = entries at hordered
  induction entries with
  | nil => rfl
  | cons first rest ih =>
    obtain ⟨hfirst, hrest⟩ := List.pairwise_cons.1 hordered
    by_cases hlt : first.number < number
    · have hnot : ¬ number ≤ first.number := by omega
      simp only [List.filter_cons, hlt, hnot, decide_true, decide_false, if_true,
        Bool.false_eq_true, if_false, List.cons_append, ih hrest]
    · -- all that follows has a greater number still
      have hall : ∀ entry ∈ first :: rest, number ≤ entry.number := by
        intro entry hmem
        rcases List.mem_cons.1 hmem with rfl | hmem
        · omega
        · have := hfirst entry hmem
          omega
      rw [List.filter_eq_nil_iff.2, List.filter_eq_self.2, List.nil_append]
      · simpa using hall
      · intro entry hmem
        have := hall entry hmem
        simp only [decide_eq_true_eq]
        omega

/-- Everything that is installed is from before the guard that comes next. -/
theorem Kept.older_next (h : ledger.Kept) :
    ledger.older ledger.thread.guards.length = ledger.entries := by
  refine List.filter_eq_self.2 fun entry hmem => ?_
  simpa using h.known entry hmem

/-- One move adds nothing to what is from before a guard, and takes the last ones of it at most. -/
theorem older_perform (h : number ≤ ledger.thread.guards.length) (move : Move) :
    (ledger.perform move).older number <+: ledger.older number := by
  cases move with
  | enter filter =>
    have hnot : ¬ ledger.thread.guards.length < number := by omega
    simp only [older, perform, List.filter_append, List.filter_cons, List.filter_nil, hnot,
      decide_false, Bool.false_eq_true, if_false, List.append_nil]
    exact List.prefix_rfl
  | release other =>
    cases hguard : ledger.thread.guards[other]? with
    | none => simpa only [perform_release_none hguard] using List.prefix_rfl
    | some guard =>
      rw [perform_release hguard]
      exact (List.take_prefix _ _).filter _

/-- Guards are numbered for good. -/
theorem guards_perform (ledger : Ledger) (move : Move) :
    ledger.thread.guards <+: (ledger.perform move).thread.guards := by
  cases move with
  | enter filter => exact List.prefix_append _ _
  | release number =>
    cases hguard : ledger.thread.guards[number]? with
    | none => simpa only [perform_release_none hguard] using List.prefix_rfl
    | some guard =>
      rw [perform_release hguard]
      exact List.prefix_rfl

theorem guards_performAll (ledger : Ledger) (moves : List Move) :
    ledger.thread.guards <+: (ledger.performAll moves).thread.guards := by
  induction moves generalizing ledger with
  | nil => exact List.prefix_rfl
  | cons move rest ih => exact (ledger.guards_perform move).trans (ih (ledger.perform move))

/-- **Of what is from before a guard the first ones are left**, whatever is done since. -/
theorem older_performAll (h : number ≤ ledger.thread.guards.length) (moves : List Move) :
    (ledger.performAll moves).older number <+: ledger.older number := by
  induction moves generalizing ledger with
  | nil => exact List.prefix_rfl
  | cons move rest ih =>
    have hle := Nat.le_trans h (ledger.guards_perform move).length_le
    exact (ih hle).trans (older_perform h move)

/-- Nothing is missing of what was from before a guard just if all of it is still installed. -/
theorem Kept.length_le_older_iff {got : Ledger} (hgot : got.Kept)
    (hstart : ledger.older got.thread.guards.length <+: got.entries) :
    got.entries.length ≤ (ledger.older got.thread.guards.length).length
      ↔ ∀ entry ∈ got.entries, entry ∈ ledger.entries := by
  constructor
  · intro hle entry hmem
    rw [← hstart.eq_of_length_le hle] at hmem
    exact (List.mem_filter.1 hmem).1
  · intro hall
    obtain ⟨missing, hmissing⟩ := hstart
    cases missing with
    | nil => exact Nat.le_of_eq (by rw [← hmissing, List.append_nil])
    | cons entry rest =>
      -- the first one that is missing is installed, so it is there twice
      have hordered := hgot.ordered
      have hmem : entry ∈ got.entries := by simp [← hmissing]
      have holder : entry ∈ ledger.older got.thread.guards.length := by
        refine List.mem_filter.2 ⟨hall entry hmem, ?_⟩
        simpa using hgot.known entry hmem
      rw [← hmissing] at hordered
      have hlt := (List.pairwise_append.1 hordered).2.2 entry holder entry List.mem_cons_self
      omega

/-! ## Releasing a guard -/

/-- The guard of a filter keeps its number, and what it counts is what was installed before. -/
theorem Kept.guard_performAll (h : ledger.Kept) (filter : String) (moves : List Move) :
    ((ledger.perform (.enter filter)).performAll moves).thread.guards[ledger.thread.guards.length]?
      = some ⟨ledger.entries.length⟩ := by
  have hnew : (ledger.perform (.enter filter)).thread.guards
      = ledger.thread.guards ++ [⟨ledger.entries.length⟩] := by
    rw [← List.length_map, h.filters]
    rfl
  obtain ⟨more, hmore⟩ := guards_performAll (ledger.perform (.enter filter)) moves
  rw [hnew] at hmore
  rw [← hmore, List.append_assoc, List.getElem?_append_right (Nat.le_refl _), Nat.sub_self]
  rfl

/-- From before a guard the first ones of what was installed are left. -/
theorem Kept.older_performAll_enter (h : ledger.Kept) (filter : String) (moves : List Move) :
    ((ledger.perform (.enter filter)).performAll moves).older ledger.thread.guards.length
      <+: ledger.entries := by
  have hlast := (guards_perform ledger (.enter filter)).length_le
  have holder := (older_performAll hlast moves).trans (older_perform (Nat.le_refl _) _)
  rwa [h.older_next] at holder

/-- **What is left when a guard is released.**  Take any guard that a thread got, and whatever it
did before and since.  What is left are the installed filters from before the guard, in order, and
behind them the first ones of those installed since: as many as are missing of the filters that were
installed when the guard was got.  So the guard takes its filter and the later ones, and nothing
else, just if none of those is missing, or if its filter and all later ones are gone already. -/
theorem release_eq_older_iff (earlier later : List Move) (filter : String) :
    let got := after earlier
    let number := got.thread.guards.length
    let before := after (earlier ++ .enter filter :: later)
    let left := after (earlier ++ .enter filter :: later ++ [.release number])
    (∀ moves, (after moves).entries.map (·.filter)
        = (Thread.fresh.performAll moves).ambient.installed)
      ∧ left.entries = before.older number
        ++ (before.newer number).take (got.entries.length - (before.older number).length)
      ∧ (left.entries = before.older number
        ↔ (∀ entry ∈ got.entries, entry ∈ before.entries) ∨ before.newer number = []) := by
  intro got number before left
  have hgot : got.Kept := kept_after earlier
  have hbefore : before.Kept := kept_after _
  have hentered : before = (got.perform (.enter filter)).performAll later := by
    simp only [before, got, after, performAll, List.foldl_append, List.foldl_cons]
  have hguard : before.thread.guards[number]? = some ⟨got.entries.length⟩ :=
    hentered ▸ hgot.guard_performAll filter later
  have hstart : before.older number <+: got.entries :=
    hentered ▸ hgot.older_performAll_enter filter later
  have hleft : left.entries = before.older number
      ++ (before.newer number).take (got.entries.length - (before.older number).length) := by
    have hrelease : left = before.perform (.release number) := by
      simp only [left, before, after, performAll, List.foldl_append, List.foldl_cons,
        List.foldl_nil]
    have htake : left.entries = before.entries.take got.entries.length := by
      rw [hrelease, perform_release hguard]
    rw [htake, ← hbefore.older_append_newer number, List.take_append,
      List.take_of_length_le hstart.length_le]
  refine ⟨fun moves => ?_, hleft, ?_⟩
  · rw [(kept_after moves).filters, after, thread_performAll]
  · rw [hleft, List.append_right_eq_self, List.take_eq_nil_iff, or_congr_left]
    rw [Nat.sub_eq_zero_iff_le, hgot.length_le_older_iff hstart]

/-- The guard of the second filter takes the last one with it. -/
example :
    let moves := [.enter "id", .enter "owner", .enter "note", .release 2, .enter "tags", .release 1]
    (after moves).entries = [⟨0, "id"⟩] := by
  decide

/-- **A filter can outlive an older guard.**  Of two filters the first is released, which takes
both, and another one is installed.  The guard of the second leaves it, though it came later. -/
theorem release_outOfOrder_ne :
    let moves := [.enter "id", .enter "owner", .release 0, .enter "note"]
    (after (moves ++ [.release 1])).entries ≠ (after moves).older 1
      ∧ (after moves).older 1 = []
      ∧ (Thread.fresh.performAll (moves ++ [.release 1])).ambient.current = some "note" := by
  decide

end Ledger

end FieldFilter
