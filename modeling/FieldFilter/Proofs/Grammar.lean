import FieldFilter.Expression.Read
import Mathlib.Data.List.Basic

/-!
# The grammar of filter expressions

The grammar as trees: a tree is one way to read a list of tokens.  A bar stands both between the
selectors of a group and between terms, so some lists of tokens can be read in more than one way.
The *greedy* reading goes on with a group wherever it can; every other reading can be turned into
it, and its names do not come to lie higher on the way.

* `Segment`, `Dotted`, `Group`, `Phrase`, `Block`, `Sentence` — the trees.
* `Sentence.tokens`, `Sentence.terms` — what a tree is a reading of, and what it says.
* `Sentence.levels`, `Sentence.Shallow` — the levels at which its segments lie, and the limit.
* `Sentence.height`, **`Sentence.shallow_iff`** — the number of levels that a tree takes.
* `Sentence.Greedy`, `Sentence.greedy` — groups that go on as far as they can.
* **`Sentence.tokens_greedy`, `Sentence.height_le_greedy`** — the greedy reading reads the same
  tokens, and takes as many levels at least.
-/

namespace FieldFilter

/-! ## Trees -/

/-- A segment of a selector: a word, or a quoted text that is not empty. -/
inductive Segment where
  | word (text : String)
  | quoted (text : String) (nonempty : text.isEmpty = false)

/-- A selector: segments with dots between them. -/
structure Dotted where
  first : Segment
  more : List Segment

/-- A group: selectors with bars between them, in parentheses or not. -/
structure Group where
  inParens : Bool
  first : Dotted
  more : List Dotted

mutual

/-- A term: a group with a sign and a block. -/
inductive Phrase where
  | mk (negated : Bool) (group : Group) (block : Block)

/-- A block, if there is one. -/
inductive Block where
  | absent
  | empty
  | of (inner : Sentence)

/-- Terms with commas or bars between them. -/
inductive Sentence where
  | last (phrase : Phrase)
  | cons (phrase : Phrase) (bar : Bool) (rest : Sentence)

end

/-! ## What a tree is a reading of -/

namespace Segment

def token : Segment → Token
  | word text => .word text
  | quoted text _ => .quoted text

def name : Segment → Name
  | word text => Name.ofWord text
  | quoted text _ => .exact text

end Segment

namespace Dotted

/-- Segments that go on with a selector. -/
def dots (more : List Segment) : List Token :=
  more.flatMap fun segment => [.dot, segment.token]

theorem dots_cons (segment : Segment) (more : List Segment) :
    dots (segment :: more) = .dot :: segment.token :: dots more :=
  rfl

def tokens (dotted : Dotted) : List Token :=
  dotted.first.token :: dots dotted.more

def length (dotted : Dotted) : Nat :=
  dotted.more.length + 1

/-- A selector that goes on with further segments. -/
def extend (selector : Selector) (more : List Segment) : Selector :=
  more.foldl (fun selector segment => ⟨selector.parents ++ [selector.target], segment.name⟩)
    selector

def selector (dotted : Dotted) : Selector :=
  extend ⟨[], dotted.first.name⟩ dotted.more

def levels (dotted : Dotted) (level : Nat) : List Nat :=
  (List.range dotted.length).map (level + ·)

end Dotted

namespace Group

/-- Selectors that go on with a group. -/
def bars (more : List Dotted) : List Token :=
  more.flatMap fun dotted => .pipe :: dotted.tokens

theorem bars_cons (dotted : Dotted) (more : List Dotted) :
    bars (dotted :: more) = .pipe :: dotted.first.token :: (Dotted.dots dotted.more ++ bars more) :=
  rfl

/-- The tokens of a group, parentheses apart. -/
def inner (group : Group) : List Token :=
  group.first.tokens ++ bars group.more

theorem inner_eq_cons (group : Group) :
    group.inner = group.first.first.token :: (Dotted.dots group.first.more ++ bars group.more) :=
  rfl

def tokens (group : Group) : List Token :=
  if group.inParens then .openParen :: group.inner ++ [.closeParen] else group.inner

def dotteds (group : Group) : List Dotted :=
  group.first :: group.more

def selectors (group : Group) : List Selector :=
  group.dotteds.map Dotted.selector

def longest (group : Group) : Nat :=
  (group.dotteds.map Dotted.length).foldr max 0

def levels (group : Group) (level : Nat) : List Nat :=
  group.dotteds.flatMap fun dotted => dotted.levels level

end Group

def Phrase.sign (negated : Bool) : List Token :=
  if negated then [.minus] else []

def Sentence.separator (bar : Bool) : Token :=
  if bar then .pipe else .comma

mutual

def Phrase.tokens : Phrase → List Token
  | .mk negated group block => Phrase.sign negated ++ group.tokens ++ block.tokens

def Block.tokens : Block → List Token
  | .absent => []
  | .empty => [.openBrace, .closeBrace]
  | .of inner => .openBrace :: inner.tokens ++ [.closeBrace]

def Sentence.tokens : Sentence → List Token
  | .last phrase => phrase.tokens
  | .cons phrase bar rest => phrase.tokens ++ Sentence.separator bar :: rest.tokens

end

mutual

/-- The term that a tree stands for. -/
def Phrase.term : Phrase → Term
  | .mk negated group block => ⟨negated, group.selectors, block.terms?⟩

def Block.terms? : Block → Option (List Term)
  | .absent => none
  | .empty => some []
  | .of inner => some inner.terms

/-- The terms that a tree stands for. -/
def Sentence.terms : Sentence → List Term
  | .last phrase => [phrase.term]
  | .cons phrase _ rest => phrase.term :: rest.terms

end

/-! ## Levels -/

mutual

/-- The levels at which the segments of a term lie, if the term is at a level. -/
def Phrase.levels : Phrase → Nat → List Nat
  | .mk _ group block, level => group.levels level ++ block.levels (level + group.longest)

def Block.levels : Block → Nat → List Nat
  | .absent, _ | .empty, _ => []
  | .of inner, level => inner.levels level

def Sentence.levels : Sentence → Nat → List Nat
  | .last phrase, level => phrase.levels level
  | .cons phrase _ rest, level => phrase.levels level ++ rest.levels level

end

/-- No segment lies too deep. -/
def Sentence.Shallow (sentence : Sentence) : Prop :=
  ∀ level ∈ sentence.levels 0, level < Term.depthLimit

mutual

/-- The number of levels that a term takes. -/
def Phrase.height : Phrase → Nat
  | .mk _ group block => group.longest + block.height

def Block.height : Block → Nat
  | .absent | .empty => 0
  | .of inner => inner.height

def Sentence.height : Sentence → Nat
  | .last phrase => phrase.height
  | .cons phrase _ rest => max phrase.height rest.height

end

theorem Dotted.forall_mem_levels (dotted : Dotted) (level bound : Nat) :
    (∀ deep ∈ dotted.levels level, deep < bound) ↔ level + dotted.length ≤ bound := by
  simp only [levels, List.forall_mem_map, List.mem_range]
  constructor
  · intro h
    have hlast := h dotted.more.length (Nat.lt_succ_self _)
    simp only [length]
    omega
  · intro h index hindex
    omega

/-- Below a bound on a maximum is below it everywhere. -/
theorem Group.add_longest_le (group : Group) (level bound : Nat) :
    level + group.longest ≤ bound ↔ ∀ dotted ∈ group.dotteds, level + dotted.length ≤ bound := by
  have hall : ∀ dotteds : List Dotted, dotteds ≠ [] →
      (level + (dotteds.map Dotted.length).foldr max 0 ≤ bound
        ↔ ∀ dotted ∈ dotteds, level + dotted.length ≤ bound) := by
    intro dotteds hne
    induction dotteds with
    | nil => exact absurd rfl hne
    | cons first more ih =>
        rw [List.map_cons, List.foldr_cons, List.forall_mem_cons]
        cases more with
        | nil => simp
        | cons second others =>
            rw [← ih (List.cons_ne_nil _ _)]
            omega
  exact hall group.dotteds (List.cons_ne_nil _ _)

theorem Group.forall_mem_levels (group : Group) (level bound : Nat) :
    (∀ deep ∈ group.levels level, deep < bound) ↔ level + group.longest ≤ bound := by
  rw [group.add_longest_le, levels]
  simp only [List.forall_mem_flatMap, Dotted.forall_mem_levels]

mutual

theorem Phrase.forall_mem_levels (phrase : Phrase) (level bound : Nat) :
    (∀ deep ∈ phrase.levels level, deep < bound) ↔ level + phrase.height ≤ bound := by
  rcases phrase with ⟨negated, group, block⟩
  rw [Phrase.levels, Phrase.height, List.forall_mem_append, group.forall_mem_levels]
  constructor
  · rintro ⟨hgroup, hblock⟩
    rw [← Nat.add_assoc]
    exact (block.forall_mem_levels hgroup).1 hblock
  · intro h
    have hgroup : level + group.longest ≤ bound := by omega
    rw [← Nat.add_assoc] at h
    exact ⟨hgroup, (block.forall_mem_levels hgroup).2 h⟩

theorem Block.forall_mem_levels (block : Block) {level bound : Nat} (hlevel : level ≤ bound) :
    (∀ deep ∈ block.levels level, deep < bound) ↔ level + block.height ≤ bound := by
  cases block with
  | absent => simp [Block.levels, Block.height, hlevel]
  | empty => simp [Block.levels, Block.height, hlevel]
  | of inner =>
      rw [Block.levels, Block.height]
      exact inner.forall_mem_levels level bound

theorem Sentence.forall_mem_levels (sentence : Sentence) (level bound : Nat) :
    (∀ deep ∈ sentence.levels level, deep < bound) ↔ level + sentence.height ≤ bound := by
  cases sentence with
  | last phrase =>
      rw [Sentence.levels, Sentence.height]
      exact phrase.forall_mem_levels level bound
  | cons phrase bar rest =>
      rw [Sentence.levels, Sentence.height, List.forall_mem_append, phrase.forall_mem_levels,
        rest.forall_mem_levels]
      omega

end

/-- **A tree is shallow if it does not take more levels than there are.** -/
theorem Sentence.shallow_iff (sentence : Sentence) :
    sentence.Shallow ↔ sentence.height ≤ Term.depthLimit := by
  rw [Shallow, sentence.forall_mem_levels, Nat.zero_add]

/-! ## Greedy readings -/

namespace Phrase

def group : Phrase → Group
  | mk _ group _ => group

/-- A term that a bar may go on with: it has neither parentheses nor a block. -/
def isOpen : Phrase → Bool
  | mk _ ⟨inParens, _, _⟩ .absent => !inParens
  | mk _ _ _ => false

/-- A term that may go on a group: it has neither a sign nor parentheses. -/
def isBare : Phrase → Bool
  | mk negated ⟨inParens, _, _⟩ _ => !negated && !inParens

/-- One term for two with a bar between them. -/
def merge : Phrase → Phrase → Phrase
  | mk negated ⟨inParens, first, more⟩ _, mk _ ⟨_, second, others⟩ block =>
    mk negated ⟨inParens, first, more ++ second :: others⟩ block

end Phrase

namespace Sentence

def head : Sentence → Phrase
  | last phrase => phrase
  | cons phrase _ _ => phrase

def setHead : Sentence → Phrase → Sentence
  | last _, phrase => last phrase
  | cons _ bar rest, phrase => cons phrase bar rest

/-- Whether a bar after a term goes on with its group. -/
def goesOn (phrase : Phrase) (bar : Bool) (next : Phrase) : Bool :=
  bar && phrase.isOpen && next.isBare

/-- A sentence with one more term in front, whose group goes on if it can. -/
def prepend (phrase : Phrase) (bar : Bool) (rest : Sentence) : Sentence :=
  if goesOn phrase bar rest.head then rest.setHead (phrase.merge rest.head)
  else cons phrase bar rest

end Sentence

mutual

/-- No group of a term could go on. -/
def Phrase.Greedy : Phrase → Prop
  | .mk _ _ block => block.Greedy

def Block.Greedy : Block → Prop
  | .absent | .empty => True
  | .of inner => inner.Greedy

def Sentence.Greedy : Sentence → Prop
  | .last phrase => phrase.Greedy
  | .cons phrase bar rest =>
    phrase.Greedy ∧ Sentence.goesOn phrase bar rest.head = false ∧ rest.Greedy

end

mutual

/-- The greedy reading of the same tokens. -/
def Phrase.greedy : Phrase → Phrase
  | .mk negated group block => .mk negated group block.greedy

def Block.greedy : Block → Block
  | .absent => .absent
  | .empty => .empty
  | .of inner => .of inner.greedy

def Sentence.greedy : Sentence → Sentence
  | .last phrase => .last phrase.greedy
  | .cons phrase bar rest => Sentence.prepend phrase.greedy bar rest.greedy

end

/-! ### One term in front -/

section Prepend

variable {phrase next : Phrase} {bar : Bool} {rest : Sentence}

theorem Sentence.tokens_setHead (rest : Sentence) (phrase : Phrase) (front : List Token)
    (h : phrase.tokens = front ++ rest.head.tokens) :
    (rest.setHead phrase).tokens = front ++ rest.tokens := by
  cases rest with
  | last other => rw [setHead, tokens, tokens, h, head]
  | cons other bar rest => rw [setHead, tokens, tokens, h, head, List.append_assoc]

theorem Phrase.tokens_merge (hopen : phrase.isOpen = true) (hbare : next.isBare = true) :
    (phrase.merge next).tokens = phrase.tokens ++ .pipe :: next.tokens := by
  rcases phrase with ⟨negated, ⟨_ | _, first, more⟩, _ | _ | _⟩
  · rcases next with ⟨_ | _, ⟨_ | _, second, others⟩, block⟩
    · simp [merge, tokens, sign, Group.tokens, Group.inner, Group.bars, Block.tokens]
    · exact absurd hbare Bool.false_ne_true
    · exact absurd hbare Bool.false_ne_true
    · exact absurd hbare Bool.false_ne_true
  all_goals exact absurd hopen Bool.false_ne_true

theorem Sentence.tokens_prepend (phrase : Phrase) (bar : Bool) (rest : Sentence) :
    (prepend phrase bar rest).tokens = phrase.tokens ++ separator bar :: rest.tokens := by
  rw [prepend]
  split
  · next h =>
    simp only [goesOn, Bool.and_eq_true] at h
    obtain ⟨⟨rfl, hopen⟩, hbare⟩ := h
    have hmerge := Phrase.tokens_merge hopen hbare
    rw [tokens_setHead rest _ (phrase.tokens ++ [.pipe])]
    · simp [separator]
    · simpa using hmerge
  · rw [tokens]

theorem Phrase.height_le_merge (hopen : phrase.isOpen = true) :
    phrase.height ≤ (phrase.merge next).height ∧ next.height ≤ (phrase.merge next).height := by
  have hfold : ∀ dotteds others : List Dotted,
      ((dotteds ++ others).map Dotted.length).foldr max 0
        = max ((dotteds.map Dotted.length).foldr max 0)
            ((others.map Dotted.length).foldr max 0) := by
    intro dotteds others
    induction dotteds with
    | nil => simp
    | cons first more ih => simp only [List.cons_append, List.map_cons, List.foldr_cons, ih]; omega
  rcases phrase with ⟨negated, ⟨_ | _, first, more⟩, _ | _ | _⟩
  · rcases next with ⟨negated', ⟨inParens, second, others⟩, block⟩
    have hlongest : ({ inParens := false, first := first, more := more ++ second :: others }
        : Group).longest = max (Group.longest ⟨false, first, more⟩)
          (Group.longest ⟨inParens, second, others⟩) :=
      hfold (first :: more) (second :: others)
    rw [merge, height, height, height, hlongest, Block.height]
    omega
  all_goals exact absurd hopen Bool.false_ne_true

theorem Sentence.height_setHead (rest : Sentence) (h : rest.head.height ≤ phrase.height) :
    phrase.height ≤ (rest.setHead phrase).height
      ∧ rest.height ≤ (rest.setHead phrase).height := by
  cases rest with
  | last other =>
      rw [head] at h
      rw [setHead, height, height]
      exact ⟨Nat.le_refl _, h⟩
  | cons other bar rest =>
      rw [head] at h
      rw [setHead, height, height]
      omega

theorem Sentence.height_le_prepend (phrase : Phrase) (bar : Bool) (rest : Sentence) :
    max phrase.height rest.height ≤ (prepend phrase bar rest).height := by
  rw [prepend]
  split
  · next h =>
    simp only [goesOn, Bool.and_eq_true] at h
    obtain ⟨hphrase, hnext⟩ := @Phrase.height_le_merge phrase rest.head h.1.2
    obtain ⟨hhead, hrest⟩ := rest.height_setHead hnext
    exact Nat.max_le.2 ⟨Nat.le_trans hphrase hhead, hrest⟩
  · have hcons : (cons phrase bar rest).height = max phrase.height rest.height := by
      rw [height]
    exact Nat.le_of_eq hcons.symm

theorem Phrase.isOpen_merge (hbare : next.isBare = true) (hopen : phrase.isOpen = true) :
    (phrase.merge next).isOpen = next.isOpen := by
  rcases phrase with ⟨negated, ⟨_ | _, first, more⟩, _ | _ | _⟩
  · rcases next with ⟨_ | _, ⟨_ | _, second, others⟩, _ | _ | _⟩
    all_goals first | rfl | exact absurd hbare Bool.false_ne_true
  all_goals exact absurd hopen Bool.false_ne_true

theorem Phrase.greedy_merge (h : next.Greedy) : (phrase.merge next).Greedy := by
  rcases phrase with ⟨negated, ⟨inParens, first, more⟩, block⟩
  rcases next with ⟨negated', ⟨inParens', second, others⟩, block'⟩
  rw [Phrase.Greedy] at h
  rw [merge, Phrase.Greedy]
  exact h

/-- Going on with a group leaves nothing to go on with. -/
theorem Sentence.greedy_prepend (hphrase : phrase.Greedy) (hrest : rest.Greedy) :
    (prepend phrase bar rest).Greedy := by
  rw [prepend]
  split
  · next h =>
    simp only [goesOn, Bool.and_eq_true] at h
    obtain ⟨⟨rfl, hopen⟩, hbare⟩ := h
    cases rest with
    | last next =>
        rw [Greedy] at hrest
        rw [setHead, head, Greedy]
        exact Phrase.greedy_merge hrest
    | cons next bar' rest =>
        rw [Greedy] at hrest
        obtain ⟨hnext, hends, hrest⟩ := hrest
        rw [setHead, head, Greedy]
        have hmerge : (phrase.merge next).isOpen = next.isOpen :=
          Phrase.isOpen_merge hbare hopen
        refine ⟨Phrase.greedy_merge hnext, ?_, hrest⟩
        rw [goesOn, hmerge]
        exact hends
  · next h =>
    rw [Greedy]
    exact ⟨hphrase, Bool.eq_false_iff.2 h, hrest⟩

end Prepend

/-! ### The greedy reading -/

mutual

theorem Phrase.tokens_greedy (phrase : Phrase) : phrase.greedy.tokens = phrase.tokens := by
  rcases phrase with ⟨negated, group, block⟩
  rw [Phrase.greedy, Phrase.tokens, Phrase.tokens, block.tokens_greedy]

theorem Block.tokens_greedy (block : Block) : block.greedy.tokens = block.tokens := by
  cases block with
  | absent => rfl
  | empty => rfl
  | of inner => rw [Block.greedy, Block.tokens, Block.tokens, inner.tokens_greedy]

/-- **The greedy reading reads the same tokens.** -/
theorem Sentence.tokens_greedy (sentence : Sentence) :
    sentence.greedy.tokens = sentence.tokens := by
  cases sentence with
  | last phrase => rw [Sentence.greedy, Sentence.tokens, Sentence.tokens, phrase.tokens_greedy]
  | cons phrase bar rest =>
      rw [Sentence.greedy, Sentence.tokens_prepend, phrase.tokens_greedy, rest.tokens_greedy,
        Sentence.tokens]

end

mutual

theorem Phrase.greedy_greedy (phrase : Phrase) : phrase.greedy.Greedy := by
  rcases phrase with ⟨negated, group, block⟩
  rw [Phrase.greedy, Phrase.Greedy]
  exact block.greedy_greedy

theorem Block.greedy_greedy (block : Block) : block.greedy.Greedy := by
  cases block with
  | absent => trivial
  | empty => trivial
  | of inner =>
      rw [Block.greedy, Block.Greedy]
      exact inner.greedy_greedy

/-- The greedy reading is greedy. -/
theorem Sentence.greedy_greedy (sentence : Sentence) : sentence.greedy.Greedy := by
  cases sentence with
  | last phrase =>
      rw [Sentence.greedy, Sentence.Greedy]
      exact phrase.greedy_greedy
  | cons phrase bar rest =>
      rw [Sentence.greedy]
      exact Sentence.greedy_prepend phrase.greedy_greedy rest.greedy_greedy

end

mutual

theorem Phrase.height_le_greedy (phrase : Phrase) : phrase.height ≤ phrase.greedy.height := by
  rcases phrase with ⟨negated, group, block⟩
  rw [Phrase.greedy, Phrase.height, Phrase.height]
  exact Nat.add_le_add_left block.height_le_greedy _

theorem Block.height_le_greedy (block : Block) : block.height ≤ block.greedy.height := by
  cases block with
  | absent => exact Nat.le_refl _
  | empty => exact Nat.le_refl _
  | of inner =>
      rw [Block.greedy, Block.height, Block.height]
      exact inner.height_le_greedy

/-- **The greedy reading takes as many levels as any other.** -/
theorem Sentence.height_le_greedy (sentence : Sentence) :
    sentence.height ≤ sentence.greedy.height := by
  cases sentence with
  | last phrase =>
      rw [Sentence.greedy, Sentence.height, Sentence.height]
      exact phrase.height_le_greedy
  | cons phrase bar rest =>
      have hphrase := phrase.height_le_greedy
      have hrest := rest.height_le_greedy
      have hboth := Sentence.height_le_prepend phrase.greedy bar rest.greedy
      rw [Sentence.greedy, Sentence.height]
      omega

end

end FieldFilter
