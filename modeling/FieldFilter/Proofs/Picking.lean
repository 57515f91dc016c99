import FieldFilter.Proofs.Prefix
import Mathlib.Data.List.Induction

/-!
# What is picked along a path

A path is followed field by field, and as long as the views do not settle everything below, a node
is picked at each field: the strongest one that matches the field by name, or else the first whose
label is a view that holds it.  Statements about the middle of a path need to say how far the path
has led and what was picked on the way, without opening the loop.

* `Matching.Pick`, `Matching.pick?` — the node that decides about a field, and how it was found.
* `Matching.reach` — where a path leads that goes on.
* `Matching.Picks`, `Matching.MatchesView` — what is picked on the way, and which views are.
* **`Matching.follow_append_of_ne_nil`** — a path is followed along its beginning first, and from
  where that leads.
* **`Matching.mem_labels_of_reach`** — the labels that are kept are those of the views matched on
  the way, if views are propagated.
-/

namespace FieldFilter.Matching

/-- The node that decides about a field. -/
inductive Pick where
  /-- Found by its name. -/
  | named (node : Node)
  /-- Found as a view that holds the field. -/
  | viewed (node : Node)

namespace Pick

def node : Pick → Node
  | named node | viewed node => node

def isViewed : Pick → Bool
  | named _ => false
  | viewed _ => true

/-- The labels of the views matched so far, with that of the pick. -/
def labels (policy : ViewPolicy) (labels : List String) : Pick → List String
  | named _ => labels
  | viewed node => pushLabel policy labels node.name.label

/-- A pick settles what is below: it is a view or the shallow wildcard, without a block, and takes
nothing away. -/
structure Settles (pick : Pick) : Prop where
  wanted : pick.node.negated = false
  bare : pick.node.braced = false
  viewed : pick.isViewed = true ∨ pick.node.name = .shallow

end Pick

section Monadic

variable {m : Type → Type} [Monad m] (lookup : TypeLookup m) (policy : ViewPolicy)

/-- The node that decides about a field, if one does. -/
def pick? (cursor : Cursor) (element : Element) : m (Option Pick) :=
  match strongest element.name cursor.candidates with
  | some node => pure (some (.named node))
  | none => do
    let found ← viewNode lookup element cursor.candidates
    pure (found.map .viewed)

/-- Where a path leads that goes on after its last field. -/
def reach (cursor : Cursor) : Path → m Outcome
  | [] => pure (.moved cursor)
  | element :: rest => do
    match ← step lookup policy false cursor element with
    | .decided included => pure (.decided included)
    | .moved next => reach next rest

end Monadic

variable {ε : Type} {lookup : TypeLookup (Except ε)} {policy : ViewPolicy}

/-- Where the views do not decide alone, a field is decided by what is picked for it, or else is
passed over or excluded. -/
theorem step_eq_pick {cursor : Cursor} (hopen : cursor.settled = false) (isLast : Bool)
    (element : Element) :
    step lookup policy isLast cursor element
      = pick? lookup cursor element >>= fun found =>
          match found with
          | some pick =>
            .ok (enter policy isLast pick.isViewed (pick.labels policy cursor.labels) pick.node)
          | none => passesOver lookup element >>= fun passed =>
            .ok (if passed then .moved cursor else .decided false) := by
  rw [step, hopen, if_neg Bool.false_ne_true, pick?]
  cases strongest element.name cursor.candidates with
  | some node => rfl
  | none => rcases viewNode lookup element cursor.candidates with fault | ⟨_ | node⟩ <;> rfl

/-- A node that takes nothing away and is no deep wildcard leads on to the level below it. -/
theorem enter_of_wanted {node : Node} (hwanted : node.negated = false) (hname : node.name ≠ .deep)
    (isLast asView : Bool) (labels : List String) :
    enter policy isLast asView labels node
      = .moved ⟨levelBelow policy isLast node, (asView || node.name == .shallow) && !node.braced,
          labels⟩ := by
  rw [enter, hwanted, if_neg Bool.false_ne_true, if_neg hname]

/-- A node leads on with the labels it was entered with. -/
theorem labels_of_enter {isLast asView : Bool} {labels : List String} {node : Node}
    {next : Cursor} (h : enter policy isLast asView labels node = .moved next) :
    next.labels = labels := by
  simp only [enter] at h
  split at h
  · cases h
  · split at h
    · cases h
    · cases h
      rfl

/-- Where nothing is picked, a path that goes on stays where it is. -/
theorem eq_of_unpicked {cursor next : Cursor} {isLast : Bool} {element : Element}
    (hpick : cursor.settled = true ∨ pick? lookup cursor element = .ok none)
    (h : step lookup policy isLast cursor element = .ok (.moved next)) : next = cursor := by
  cases hopen : cursor.settled with
  | true =>
    rw [step, hopen, if_pos rfl] at h
    split at h
    · next type _ =>
      rcases hheld : inViews lookup policy cursor.labels (.described type) element.name with
        fault | ⟨_ | _⟩ <;> rw [hheld] at h <;> cases h
      rfl
    · cases h
      rfl
  | false =>
    have hnone := hpick.resolve_left (by simp [hopen])
    rw [step_eq_pick hopen, hnone] at h
    rcases hpassed : passesOver lookup element with fault | ⟨_ | _⟩ <;>
      simp only [hpassed, bind, Except.bind] at h <;> cases h
    rfl

/-- What is found among the candidates for a view: the first one, if its view holds the field, and
else what is found among the others. -/
theorem firstView_cons_eq_ok_iff {owner : Owner} {field : String} {node : Node} {rest : List Node}
    {found : Option Node} :
    firstView lookup owner field (node :: rest) = .ok found
      ↔ ∃ names, lookup.members owner node.name.label = .ok names
        ∧ if names.contains field = true then found = some node
          else firstView lookup owner field rest = .ok found := by
  rw [firstView]
  cases hnames : lookup.members owner node.name.label with
  | error fault => simp [bind, Except.bind]
  | ok names =>
    by_cases hheld : names.contains field = true
    · simp only [bind, Except.bind, hheld, if_true, Except.ok.injEq, exists_eq_left']
      exact ⟨fun h => (Except.ok.inj h).symm, fun h => congrArg Except.ok h.symm⟩
    · simp only [bind, Except.bind, hheld, Except.ok.injEq, exists_eq_left']
      exact Iff.rfl

/-- A view is found among the candidates. -/
theorem mem_of_firstView {owner : Owner} {field : String} {nodes : List Node} {node : Node}
    (h : firstView lookup owner field nodes = .ok (some node)) : node ∈ nodes := by
  induction nodes with
  | nil => cases h
  | cons first rest ih =>
    obtain ⟨names, -, hrest⟩ := firstView_cons_eq_ok_iff.1 h
    split at hrest
    · rw [Option.some.inj hrest]
      exact List.mem_cons_self
    · exact List.mem_cons_of_mem _ (ih hrest)

/-- A node found as a view has a name that can be read as the label of one. -/
theorem mayBeView_of_viewNode {element : Element} {nodes : List Node} {node : Node}
    (h : viewNode lookup element nodes = .ok (some node)) :
    node ∈ nodes ∧ node.name.mayBeView = true := by
  refine List.mem_filter (p := fun node : Node => node.name.mayBeView).1 ?_
  obtain ⟨name, owner⟩ := element
  rcases owner with - | ⟨type | type⟩
  · cases h
  · exact mem_of_firstView h
  · exact List.mem_of_find?_eq_some (Except.ok.inj h)

namespace Pick.Settles

variable {pick : Pick}

/-- A pick that settles what is below is no deep wildcard. -/
theorem name_ne_deep (h : pick.Settles) {cursor : Cursor} {element : Element}
    (hpick : pick? lookup cursor element = .ok (some pick)) : pick.node.name ≠ .deep := by
  rcases h.viewed with hviewed | hshallow
  · cases pick with
    | named node => cases hviewed
    | viewed node =>
      rw [pick?] at hpick
      split at hpick
      · cases hpick
      · rcases hview : viewNode lookup element cursor.candidates with fault | ⟨_ | found⟩ <;>
          rw [hview] at hpick <;> cases hpick
        intro hdeep
        have hlabel := (mayBeView_of_viewNode hview).2
        rw [Pick.node] at hdeep
        rw [hdeep] at hlabel
        cases hlabel
  · rw [hshallow]
    nofun

theorem settled (h : pick.Settles) :
    ((pick.isViewed || pick.node.name == .shallow) && !pick.node.braced) = true := by
  rcases h.viewed with hviewed | hshallow
  · simp [hviewed, h.bare]
  · simp [hshallow, h.bare]

end Pick.Settles

/-! ## The way along a path -/

variable {start cursor next : Cursor}

/-- **A path is followed along its beginning first, and from where that leads if it goes on.**  No
field of the beginning is the last one. -/
theorem follow_append_of_ne_nil {rest : Path} (hrest : rest ≠ []) (start : Cursor)
    (before : Path) :
    follow lookup policy start (before ++ rest)
      = reach lookup policy start before >>= fun outcome =>
          match outcome with
          | .decided included => .ok included
          | .moved cursor => follow lookup policy cursor rest := by
  induction before generalizing start with
  | nil => rfl
  | cons element later ih =>
      have hmore : (later ++ rest).isEmpty = false := by simp [hrest]
      rw [List.cons_append, follow, reach, hmore]
      rcases step lookup policy false start element with fault | ⟨included | next⟩
      · rfl
      · rfl
      · exact ih next

/-- A path is followed from where its beginning leads. -/
theorem follow_of_reach {before rest : Path}
    (h : reach lookup policy start before = .ok (.moved cursor)) (hrest : rest ≠ []) :
    follow lookup policy start (before ++ rest) = follow lookup policy cursor rest := by
  rw [follow_append_of_ne_nil hrest, h]
  rfl

/-- One field more. -/
theorem reach_concat (start : Cursor) (path : Path) (element : Element) :
    reach lookup policy start (path ++ [element])
      = reach lookup policy start path >>= fun outcome =>
          match outcome with
          | .decided included => .ok (.decided included)
          | .moved cursor => step lookup policy false cursor element := by
  induction path generalizing start with
  | nil =>
      rw [List.nil_append, reach]
      rcases hstep : step lookup policy false start element with fault | ⟨included | next⟩ <;>
        simp [reach, hstep, bind, Except.bind, pure, Except.pure]
  | cons first rest ih =>
      rw [List.cons_append, reach, reach]
      rcases step lookup policy false start first with fault | ⟨included | next⟩
      · rfl
      · rfl
      · exact ih next

/-- A path that leads somewhere with its last field leads somewhere without it. -/
theorem exists_of_reach_concat {path : Path} {element : Element}
    (h : reach lookup policy start (path ++ [element]) = .ok (.moved next)) :
    ∃ cursor, reach lookup policy start path = .ok (.moved cursor)
      ∧ step lookup policy false cursor element = .ok (.moved next) := by
  rw [reach_concat] at h
  rcases hreach : reach lookup policy start path with fault | ⟨included | cursor⟩
  · rw [hreach] at h
    cases h
  · rw [hreach] at h
    cases h
  · rw [hreach] at h
    exact ⟨cursor, rfl, h⟩

/-- On the way along a path, something is picked at the field that comes after `before`. -/
def Picks (lookup : TypeLookup (Except ε)) (policy : ViewPolicy) (start : Cursor) (before : Path)
    (element : Element) (pick : Pick) : Prop :=
  ∃ cursor, reach lookup policy start before = .ok (.moved cursor) ∧ cursor.settled = false
    ∧ pick? lookup cursor element = .ok (some pick)

/-- A label is that of a view matched on the way along a path. -/
def MatchesView (lookup : TypeLookup (Except ε)) (policy : ViewPolicy) (start : Cursor)
    (path : Path) (label : String) : Prop :=
  ∃ before element after node, path = before ++ element :: after
    ∧ Picks lookup policy start before element (.viewed node) ∧ node.name.label = label

/-- Where something is picked, the path has led somewhere, and nothing else is picked. -/
theorem picks_iff_of_reach {before : Path}
    (h : reach lookup policy start before = .ok (.moved cursor)) {element : Element} {pick : Pick} :
    Picks lookup policy start before element pick
      ↔ cursor.settled = false ∧ pick? lookup cursor element = .ok (some pick) := by
  constructor
  · rintro ⟨cursor', hreach, hpick⟩
    rw [h] at hreach
    cases hreach
    exact hpick
  · rintro ⟨hopen, hpick⟩
    exact ⟨cursor, h, hopen, hpick⟩

/-- The views matched on the way are those of the fields before the last one, and its own. -/
theorem matchesView_concat {path : Path} {element : Element} {label : String} :
    MatchesView lookup policy start (path ++ [element]) label
      ↔ MatchesView lookup policy start path label
        ∨ ∃ node, Picks lookup policy start path element (.viewed node)
          ∧ node.name.label = label := by
  constructor
  · rintro ⟨before, found, after, node, hpath, hpick, hlabel⟩
    rcases List.eq_nil_or_concat after with rfl | ⟨after, last, rfl⟩
    · obtain ⟨rfl, hlast⟩ := List.append_inj' hpath rfl
      cases hlast
      exact .inr ⟨node, hpick, hlabel⟩
    · rw [List.concat_eq_append, ← List.cons_append, ← List.append_assoc] at hpath
      obtain ⟨rfl, -⟩ := List.append_inj' hpath rfl
      exact .inl ⟨before, found, after, node, rfl, hpick, hlabel⟩
  · rintro (⟨before, found, after, node, rfl, hpick, hlabel⟩ | ⟨node, hpick, hlabel⟩)
    · exact ⟨before, found, after ++ [element], node, by simp, hpick, hlabel⟩
    · exact ⟨path, element, [], node, rfl, hpick, hlabel⟩

/-- A label that is pushed is kept with the others, if views are propagated. -/
theorem mem_pushLabel {labels : List String} {label other : String} :
    other ∈ pushLabel policy labels label
      ↔ other ∈ labels ∨ policy.propagateViews = true ∧ other = label := by
  unfold pushLabel
  by_cases hmem : label ∈ labels
  · have hkept : other = label → other ∈ labels := fun hsame => hsame ▸ hmem
    simp only [List.contains_iff_mem.2 hmem, Bool.not_true, Bool.and_false, Bool.false_eq_true,
      if_false]
    exact ⟨.inl, fun h => h.elim id fun h => hkept h.2⟩
  · cases hpolicy : policy.propagateViews <;> simp [hmem]

/-- The labels after a field where something is picked. -/
theorem mem_labels_pick {labels : List String} {pick : Pick} {label : String} :
    label ∈ pick.labels policy labels
      ↔ label ∈ labels ∨ policy.propagateViews = true
        ∧ ∃ node, pick = .viewed node ∧ node.name.label = label := by
  cases pick with
  | named node => simp [Pick.labels]
  | viewed node => simp [Pick.labels, mem_pushLabel, eq_comm (a := label)]

/-- **The labels that are kept are those of the views matched on the way**, if views are
propagated; otherwise none are. -/
theorem mem_labels_of_reach (hstart : start.labels = []) {path : Path}
    (h : reach lookup policy start path = .ok (.moved cursor)) (label : String) :
    label ∈ cursor.labels
      ↔ policy.propagateViews = true ∧ MatchesView lookup policy start path label := by
  induction path using List.reverseRecOn generalizing cursor with
  | nil =>
    cases h
    rw [hstart]
    simp [MatchesView]
  | append_singleton path element ih =>
    obtain ⟨middle, hmiddle, hstep⟩ := exists_of_reach_concat h
    rw [matchesView_concat, and_or_left, ← ih hmiddle]
    simp only [picks_iff_of_reach hmiddle]
    cases hopen : middle.settled with
    | true =>
      rw [eq_of_unpicked (.inl hopen) hstep]
      simp
    | false =>
      rcases hpick : pick? lookup middle element with fault | ⟨_ | pick⟩
      · rw [step_eq_pick hopen, hpick] at hstep
        cases hstep
      · rw [eq_of_unpicked (.inr hpick) hstep]
        simp
      · rw [step_eq_pick hopen, hpick] at hstep
        rw [labels_of_enter (Except.ok.inj hstep), mem_labels_pick]
        simp

end FieldFilter.Matching
