import FieldFilter.Proofs.Merging
import FieldFilter.Proofs.Narrowing

/-!
# Levels that only take away

A level whose nodes are all negated starts from everything: a deep wildcard stands in front of it.
The wildcard is as weak as a name can be, and a negated node wins every tie, so the wildcard decides
about a field only if no other node of the level matches it.  Either way the decision is made at
the first field of a path.  Nothing below has a say, neither fields nor blocks, and nothing is asked
about the types.

* **`Matching.strongest_onlyTakes`** — the wildcard, or a negated node if one of them matches.
* `Term.TakesNames` — terms that take away names of their own level.
* **`Expression.includes_complement`** — a filter of such terms is an exact complement.
-/

namespace FieldFilter

open Node

namespace Matching

variable {field : String} {nodes : List Node}

/-! ## The node that decides -/

/-- A negated node takes the place of the wildcard for everything wherever it matches. -/
theorem displaces_everything {node : Node} (hnegated : node.negated = true) :
    displaces field (some everything) node = (node.name.strength field).isSome := by
  have hweakest : everything.name.strength field = some 0 := rfl
  cases hstrength : node.name.strength field with
  | none => simp [displaces, hstrength]
  | some strength => cases strength <;> simp [displaces, hstrength, hweakest, hnegated]

/-- **Among nodes that only take away, the wildcard in front of them decides** just if none of them
matches, and otherwise a negated node does. -/
theorem strongest_onlyTakes (h : OnlyTakes nodes) (field : String) :
    ∃ node, strongest field (everything :: nodes) = some node
      ∧ (node.negated = true ∨ node = everything)
      ∧ (node.negated = true ↔ ∃ other ∈ nodes, (other.name.strength field).isSome = true) := by
  induction nodes using List.reverseRecOn with
  | nil => exact ⟨everything, rfl, .inr rfl, by simp [everything, leaf]⟩
  | append_singleton nodes last ih =>
    obtain ⟨hnodes, hlast⟩ := List.forall_mem_append.1 h
    have hnegated : last.negated = true := hlast last (List.mem_singleton_self last)
    obtain ⟨node, hstrongest, hkind, hiff⟩ := ih hnodes
    rw [← List.cons_append, strongest_concat, hstrongest]
    have hsplit : (∃ other ∈ nodes ++ [last], (other.name.strength field).isSome = true)
        ↔ (∃ other ∈ nodes, (other.name.strength field).isSome = true)
          ∨ (last.name.strength field).isSome = true := by
      simp only [List.mem_append, List.mem_singleton, or_and_right, exists_or, exists_eq_left]
    rw [hsplit]
    by_cases hplace : displaces field (some node) last = true
    · rw [if_pos hplace]
      exact ⟨last, rfl, .inl hnegated, iff_of_true hnegated (.inr (isSome_of_displaces hplace))⟩
    · rw [if_neg hplace]
      refine ⟨node, rfl, hkind, ?_⟩
      rcases hkind with htaken | rfl
      · exact iff_of_true htaken (.inl (hiff.1 htaken))
      · rw [displaces_everything hnegated] at hplace
        rw [hiff]
        exact (or_iff_left hplace).symm

/-- **Nodes that only take away decide at the first field of a path**, and ask nothing. -/
theorem follow_onlyTakes {m : Type → Type} [Monad m] [LawfulMonad m] (lookup : TypeLookup m)
    (policy : ViewPolicy) (h : OnlyTakes nodes) (labels : List String) (first : Element)
    (rest : Path) :
    ∃ included, follow lookup policy ⟨everything :: nodes, false, labels⟩ (first :: rest)
        = pure included
      ∧ (included = true ↔ ∀ node ∈ nodes, node.name.strength first.name = none) := by
  obtain ⟨node, hstrongest, hkind, hiff⟩ := strongest_onlyTakes h first.name
  have hstep : step lookup policy rest.isEmpty ⟨everything :: nodes, false, labels⟩ first
      = pure (.decided (!node.negated)) := by
    rw [step, if_neg Bool.false_ne_true, hstrongest]
    rcases hkind with htaken | rfl
    · simp [enter, htaken]
    · rfl
  refine ⟨!node.negated, by rw [follow, hstep, pure_bind], ?_⟩
  rw [Bool.not_eq_true', ← Bool.not_eq_true, hiff]
  simp

end Matching

/-! ## Terms that take away names -/

/-- A term takes away names of its own level: it is negated, and no selector of its group has a dot
in it. -/
structure Term.TakesNames (term : Term) : Prop where
  negated : term.negated = true
  direct : ∀ selector ∈ term.group, selector.parents = []

namespace Term

/-- A term that takes away names is one negated node for each of them, whatever its block says. -/
theorem TakesNames.nodes_eq {term : Term} (h : term.TakesNames) :
    term.nodes = term.group.map fun selector =>
      ⟨selector.target, true, term.block.isSome, isEmptyBlock term.block,
        blockLevel term.block⟩ := by
  obtain ⟨negated, group, block⟩ := term
  obtain ⟨rfl, hdirect⟩ := h
  rw [nodes]
  refine List.map_congr_left fun selector hselector => ?_
  rw [hdirect selector hselector, Selector.node, List.foldr_nil]

variable {terms : List Term} (h : ∀ term ∈ terms, term.TakesNames)

include h

theorem onlyTakes_nodesAll : OnlyTakes (nodesAll terms) := by
  rw [nodesAll_eq_flatMap, OnlyTakes, List.forall_mem_flatMap]
  intro term hterm
  rw [(h term hterm).nodes_eq, List.forall_mem_map]
  exact fun _ _ => rfl

/-- The names of the nodes are the names that are taken away. -/
theorem forall_name_nodesAll {P : Name → Prop} :
    (∀ node ∈ nodesAll terms, P node.name)
      ↔ ∀ term ∈ terms, ∀ selector ∈ term.group, P selector.target := by
  rw [nodesAll_eq_flatMap, List.forall_mem_flatMap]
  refine forall₂_congr fun term hterm => ?_
  rw [(h term hterm).nodes_eq, List.forall_mem_map]

end Term

namespace Sentence

theorem head_mem_terms (sentence : Sentence) : sentence.head.term ∈ sentence.terms := by
  cases sentence <;> simp [head, terms]

/-- No group goes on with a negated term, so the signs and the groups of negated terms are the same
in every reading. -/
theorem forall_mem_terms_greedy {P : Bool → List Selector → Prop} (sentence : Sentence)
    (h : ∀ term ∈ sentence.terms, term.negated = true) :
    (∀ term ∈ sentence.greedy.terms, P term.negated term.group)
      ↔ ∀ term ∈ sentence.terms, P term.negated term.group := by
  have hphrase : ∀ phrase : Phrase, phrase.greedy.term.negated = phrase.term.negated
      ∧ phrase.greedy.term.group = phrase.term.group := by
    rintro ⟨negated, group, block⟩
    exact ⟨rfl, rfl⟩
  cases sentence with
  | last phrase => simp [greedy, terms, hphrase]
  | cons phrase bar rest =>
    rw [terms, List.forall_mem_cons] at h
    have hrest : ∀ term ∈ rest.greedy.terms, term.negated = true :=
      (rest.forall_mem_terms_greedy (P := fun negated _ => negated = true) h.2).2 h.2
    have happart : goesOn phrase.greedy bar rest.greedy.head = false := by
      have hhead := hrest _ rest.greedy.head_mem_terms
      generalize rest.greedy.head = next at hhead
      obtain ⟨negated, group, block⟩ := next
      obtain rfl : negated = true := hhead
      simp [goesOn, Phrase.isBare]
    rw [greedy, prepend, if_neg (Bool.eq_false_iff.1 happart), terms, terms, List.forall_mem_cons,
      List.forall_mem_cons, (hphrase phrase).1, (hphrase phrase).2,
      rest.forall_mem_terms_greedy h.2]

end Sentence

/-- **A filter that only takes names away is their exact complement.**  Where all terms of a filter
text are negated and no selector of theirs has a dot in it, a path is included just if none of the
selectors matches the name of its first field, by whatever kind of name.  Blocks have no say and
neither has what comes below.  Nothing is asked about the types, so no answer about them matters and
none can fail.  A blank text has no terms and is no sentence; it includes nothing. -/
theorem Expression.includes_complement [Glob.Engine] {source : String} {expression : Expression}
    {sentence : Sentence} (hparse : parse source = .ok expression)
    (htokens : tokens source = .ok sentence.tokens)
    (htakes : ∀ term ∈ sentence.terms, term.TakesNames) {m : Type → Type} [Monad m]
    [LawfulMonad m] (lookup : TypeLookup m) (policy : ViewPolicy) (first : Element)
    (rest : Path) :
    ∃ included, expression.includes lookup policy (first :: rest) = pure included
      ∧ (included = true ↔ ∀ term ∈ sentence.terms, ∀ selector ∈ term.group,
          selector.target.strength first.name = none) := by
  have hnegated : ∀ term ∈ sentence.terms, term.negated = true :=
    fun term hterm => (htakes term hterm).negated
  -- the terms that the text is read as have the same signs and groups
  have hgreedy : ∀ term ∈ sentence.greedy.terms, term.TakesNames := by
    intro term hterm
    have hsame := (sentence.forall_mem_terms_greedy (P := fun negated group =>
      negated = true ∧ ∀ selector ∈ group, selector.parents = []) hnegated).2
      (fun term hterm => ⟨(htakes term hterm).negated, (htakes term hterm).direct⟩) term hterm
    exact ⟨hsame.1, hsame.2⟩
  have hnodes : expression.nodes = Node.everything :: Term.nodesAll sentence.greedy.terms := by
    have hread := nodes?_of_tokens htokens
    rw [nodes?, hparse, Sentence.nodes?] at hread
    split at hread
    · rw [← level_of_onlyTakes sentence.greedy.nodesAll_ne_nil (Term.onlyTakes_nodesAll hgreedy)]
      exact Option.some.inj hread
    · cases hread
  obtain ⟨included, hfollow, hiff⟩ := Matching.follow_onlyTakes lookup policy
    (Term.onlyTakes_nodesAll hgreedy) [] first rest
  rw [← hnodes] at hfollow
  refine ⟨included, hfollow, ?_⟩
  rw [hiff, Term.forall_name_nodesAll hgreedy (P := fun name => name.strength first.name = none)]
  exact sentence.forall_mem_terms_greedy (P := fun _ group =>
    ∀ selector ∈ group, selector.target.strength first.name = none) hnegated

/-- A filter that takes away what starts with an `n`, twice in the case of names, and the size. -/
def withoutNames : String :=
  "-n*|name\x7bid\x7d,-'size'"

/-- The terms of the filter. -/
def withoutNamesRead : Sentence :=
  .cons (.mk true ⟨false, ⟨.word "n*", []⟩, [⟨.word "name", []⟩]⟩
      (.of (.last (Phrase.word false "id" .absent)))) false
    (.last (.mk true ⟨false, ⟨.quoted "size" rfl, []⟩, []⟩ .absent))

/-- The nodes of the filter. -/
def withoutNamesNodes : List Node :=
  [Node.everything, ⟨.glob "n*", true, true, false, [.leaf (.exact "id")]⟩,
    ⟨.exact "name", true, true, false, [.leaf (.exact "id")]⟩, ⟨.exact "size", true, false, false, []⟩]

/-- The number of a name is excluded with the name, and that of a place is included, where no type
is known and every question about types fails. -/
theorem Expression.includes_withoutNames :
    parse withoutNames = .ok ⟨withoutNames, withoutNamesNodes⟩
      ∧ includes ⟨withoutNames, withoutNamesNodes⟩ (.broken "gone") ⟨true, true⟩
          [⟨"name", some (.described "Order")⟩, ⟨"id", some (.described "Name")⟩] = .ok false
      ∧ includes ⟨withoutNames, withoutNamesNodes⟩ (.broken "gone") ⟨true, true⟩
          [⟨"place", some (.described "Order")⟩, ⟨"id", some (.described "Place")⟩] = .ok true := by
  have hparse : parse withoutNames = .ok ⟨withoutNames, withoutNamesNodes⟩ := by decide +kernel
  have htokens : tokens withoutNames = .ok withoutNamesRead.tokens := by decide +kernel
  have htakes : ∀ term ∈ withoutNamesRead.terms, term.TakesNames := by
    simp only [withoutNamesRead, Sentence.terms, List.forall_mem_cons]
    exact ⟨⟨rfl, by decide⟩, ⟨rfl, by decide⟩, List.forall_mem_nil _⟩
  have hmatches := includes_complement hparse htokens htakes (.broken "gone") ⟨true, true⟩
  refine ⟨hparse, ?_, ?_⟩
  · obtain ⟨included, hname, hiff⟩ := hmatches ⟨"name", some (.described "Order")⟩
      [⟨"id", some (.described "Name")⟩]
    cases included with
    | true => exact absurd (hiff.1 rfl) (by decide +kernel)
    | false => exact hname
  · obtain ⟨included, hplace, hiff⟩ := hmatches ⟨"place", some (.described "Order")⟩
      [⟨"id", some (.described "Place")⟩]
    rw [hiff.2 (by decide +kernel)] at hplace
    exact hplace

end FieldFilter
