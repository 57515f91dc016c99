import FieldFilter.Expression
import FieldFilter.Expression.Term
import FieldFilter.Token.Scan

/-!
# Reading a filter expression

The grammar, with `|` both between the selectors of a group and between terms:

```
expression  :=  term ((',' | '|') term)*
term        :=  '-'? group block?
group       :=  selector ('|' selector)*  |  '(' selector ('|' selector)* ')'
selector    :=  segment ('.' segment)*
segment     :=  word  |  quoted
block       :=  '{' expression? '}'
```

A bar goes on with the group as long as a segment follows it, so `a|b{c}` gives both names the
block, and `a|-b` is two terms.  A blank text is an expression without nodes.

**Depth.**  No segment may lie sixty-four or more levels below the top.  A selector reaches one
level down per segment, and a block lies below the longest selector of its group.  The limit is
tested before the segment itself is looked at.

**Patterns.**  A word with a star in it is a pattern, which has to compile.  It is compiled where
the reader takes the word for a segment, so a defect further on in the text is reported only if all
patterns before it compile.

Main definitions:

* `Term.readSelectors`, `Term.readGroup` — the part of a term that holds no other terms;
* `Term.readBlock`, `Term.readAll` — blocks and lists of terms, which hold each other;
* `Expression.parse` — the expression of a text.
-/

namespace FieldFilter

namespace Term

/-- No segment lies this many levels below the top, or more. -/
def depthLimit : Nat := 64

/-- The offset of the next token, or of the end of the text. -/
def offsetOf (stop : Nat) (input : List Lexeme) : Nat :=
  (input.head?.map (·.offset)).getD stop

def tokenOf (input : List Lexeme) : Option Token :=
  input.head?.map (·.token)

/-- Refuses the next token as a segment if it would lie too deep. -/
def checkDepth (stop depth : Nat) (input : List Lexeme) : Except Defect Unit :=
  if depthLimit ≤ depth then .error ⟨.tooDeep, offsetOf stop input⟩ else .ok ()

def readSign (input : List Lexeme) : Bool × List Lexeme :=
  match input with
  | ⟨.minus, _⟩ :: rest => (true, rest)
  | _ => (false, input)

theorem length_readSign (input : List Lexeme) : (readSign input).2.length ≤ input.length := by
  unfold readSign
  split <;> simp

variable [Glob.Engine]

/-- The name that a bare word stands for, if its pattern compiles. -/
def classify (word : String) (offset : Nat) : Except Defect Name :=
  match (Name.ofWord word).refusal? with
  | some reason => .error ⟨.invalidPattern reason, offset⟩
  | none => .ok (Name.ofWord word)

/-- The name that a segment stands for.  A quoted name stands for itself, stars included. -/
def segment (lexeme : Lexeme) : Except Defect Name :=
  match lexeme.token with
  | .word text => classify text lexeme.offset
  | .quoted text =>
    if text.isEmpty then .error ⟨.emptyQuotedName, lexeme.offset⟩ else .ok (.exact text)
  | other => .error ⟨.emptySelector (some other), lexeme.offset⟩

/-- The rest of a group after the segment `current`, which comes after the segments `parents` of
its selector.  A dot goes on with the selector.  A bar goes on with the group, outside of
parentheses only if a segment follows. -/
def readSelectors (stop depth : Nat) (inParens : Bool) (parents : List Name) (current : Name) :
    List Lexeme → Except Defect (List Selector × List Lexeme)
  | ⟨.dot, _⟩ :: rest =>
    match checkDepth stop (depth + parents.length + 1) rest with
    | .error defect => .error defect
    | .ok _ =>
      match rest with
      | [] => .error ⟨.emptySelector none, stop⟩
      | lexeme :: after =>
        match segment lexeme with
        | .error defect => .error defect
        | .ok name => readSelectors stop depth inParens (parents ++ [current]) name after
  | ⟨.pipe, offset⟩ :: rest =>
    match rest with
    | [] =>
      if inParens then .error ⟨.emptySelector none, stop⟩
      else .ok ([⟨parents, current⟩], [⟨.pipe, offset⟩])
    | lexeme :: after =>
      if inParens || lexeme.token.opensSelector then
        match segment lexeme with
        | .error defect => .error defect
        | .ok name =>
          (readSelectors stop depth inParens [] name after).map fun (others, remaining) =>
            (⟨parents, current⟩ :: others, remaining)
      else .ok ([⟨parents, current⟩], ⟨.pipe, offset⟩ :: lexeme :: after)
  | input => .ok ([⟨parents, current⟩], input)

/-- The selectors of a group, parentheses apart. -/
def readFirst (stop depth : Nat) (inParens : Bool) (input : List Lexeme) :
    Except Defect (List Selector × List Lexeme) :=
  match checkDepth stop depth input with
  | .error defect => .error defect
  | .ok _ =>
    match input with
    | [] => .error ⟨.emptySelector none, stop⟩
    | lexeme :: after =>
      match segment lexeme with
      | .error defect => .error defect
      | .ok name => readSelectors stop depth inParens [] name after

/-- A group, with or without parentheses. -/
def readGroup (stop depth : Nat) (input : List Lexeme) :
    Except Defect (List Selector × List Lexeme) :=
  match input with
  | ⟨.openParen, offset⟩ :: rest =>
    match readFirst stop depth true rest with
    | .error defect => .error defect
    | .ok (group, ⟨.closeParen, _⟩ :: after) => .ok (group, after)
    | .ok _ => .error ⟨.unclosedParen, offset⟩
  | _ => readFirst stop depth false input

/-! ## Each part takes something from the input

The rest that a part leaves is what the next one reads, and it is shorter: this is why reading
ends. -/

/-- What follows the selectors of a group is no longer than what follows the first segment. -/
theorem length_of_readSelectors {stop depth : Nat} {inParens : Bool} {parents : List Name}
    {current : Name} {input rest : List Lexeme} {group : List Selector}
    (h : readSelectors stop depth inParens parents current input = .ok (group, rest)) :
    rest.length ≤ input.length := by
  fun_induction readSelectors stop depth inParens parents current input generalizing group with
  | case1 => cases h
  | case2 => cases h
  | case3 => cases h
  | case4 _ _ _ _ _ _ _ _ _ ih =>
    have := ih h
    simp only [List.length_cons]
    omega
  | case5 => cases h
  | case6 => cases h; exact Nat.le_refl _
  | case7 => cases h
  | case8 parents current offset lexeme after _ name _ ih =>
    cases hr : readSelectors stop depth inParens [] name after with
    | error defect => rw [hr] at h; cases h
    | ok read =>
      rw [hr] at h
      cases h
      have := ih hr
      simp only [List.length_cons]
      omega
  | case9 => cases h; exact Nat.le_refl _
  | case10 => cases h; exact Nat.le_refl _

theorem length_of_readFirst {stop depth : Nat} {inParens : Bool} {input rest : List Lexeme}
    {group : List Selector} (h : readFirst stop depth inParens input = .ok (group, rest)) :
    rest.length < input.length := by
  unfold readFirst at h
  split at h
  · cases h
  · split at h
    · cases h
    · split at h
      · cases h
      · exact Nat.lt_succ_of_le (length_of_readSelectors h)

theorem length_of_readGroup {stop depth : Nat} {input rest : List Lexeme}
    {group : List Selector} (h : readGroup stop depth input = .ok (group, rest)) :
    rest.length < input.length := by
  unfold readGroup at h
  split at h
  · split at h
    · cases h
    · next hf =>
      cases h
      have := length_of_readFirst hf
      simp only [List.length_cons] at this ⊢
      omega
    · cases h
  · exact length_of_readFirst h

/-! ## Blocks and lists of terms -/

/-- Something read from the front of an input, and what is left of it. -/
structure Reading (α : Type) (bound : Nat) where
  value : α
  rest : List Lexeme
  /-- What is left has fewer tokens than the bound. -/
  shorter : rest.length < bound

mutual

/-- The block that comes next, if one does. -/
def readBlock (stop depth : Nat) (input : List Lexeme) :
    Except Defect (Reading (Option (List Term)) (input.length + 1)) :=
  match input with
  | ⟨.openBrace, _⟩ :: ⟨.closeBrace, _⟩ :: rest =>
    .ok ⟨some [], rest, by simp only [List.length_cons]; omega⟩
  | ⟨.openBrace, offset⟩ :: rest =>
    match readAll stop depth rest with
    | .error defect => .error defect
    | .ok ⟨inner, ⟨.closeBrace, _⟩ :: after, h⟩ =>
      .ok ⟨some inner, after, by simp only [List.length_cons] at h ⊢; omega⟩
    | .ok _ => .error ⟨.unclosedBrace, offset⟩
  | input => .ok ⟨none, input, Nat.lt_succ_self _⟩
termination_by input.length

/-- The terms up to the end of the text or the brace that closes them, which is left. -/
def readAll (stop depth : Nat) (input : List Lexeme) :
    Except Defect (Reading (List Term) input.length) :=
  match hg : readGroup stop depth (readSign input).2 with
  | .error defect => .error defect
  | .ok (group, afterGroup) =>
    have hgroup : afterGroup.length < input.length :=
      Nat.lt_of_lt_of_le (length_of_readGroup hg) (length_readSign input)
    match readBlock stop (depth + Selector.groupDepth group) afterGroup with
    | .error defect => .error defect
    | .ok ⟨block, afterTerm, hblock⟩ =>
      let term : Term := ⟨(readSign input).1, group, block⟩
      match afterTerm with
      | [] => .ok ⟨[term], [], by simp only [List.length_nil]; omega⟩
      | ⟨token, offset⟩ :: rest =>
        if token = .comma ∨ token = .pipe then
          have hrest : rest.length < input.length := by
            simp only [List.length_cons] at hblock
            omega
          match readAll stop depth rest with
          | .error defect => .error defect
          | .ok ⟨terms, remaining, h⟩ => .ok ⟨term :: terms, remaining, by omega⟩
        else if token = .closeBrace then
          .ok ⟨[term], ⟨token, offset⟩ :: rest, by omega⟩
        else .error ⟨.expectedComma token, offset⟩
termination_by input.length

end

def read (stop : Nat) (input : List Lexeme) : Except Defect (List Term) :=
  match readAll stop 0 input with
  | .error defect => .error defect
  | .ok ⟨terms, [], _⟩ => .ok terms
  | .ok ⟨_, lexeme :: _, _⟩ => .error ⟨.strayBrace, lexeme.offset⟩

end Term

namespace Expression

variable [Glob.Engine]

/-- The terms of a filter text; a text without tokens has none. -/
def terms (source : String) : Except Defect (List Term) :=
  match Token.scan 0 source.toList with
  | .error defect => .error defect
  | .ok [] => .ok []
  | .ok lexemes => Term.read source.toList.length lexemes

/-- The expression of a filter text, or what is wrong with the text. -/
def parse (source : String) : Except SyntaxFault Expression :=
  match terms source with
  | .error defect => .error ⟨source, defect⟩
  | .ok terms => .ok ⟨source, Term.level terms⟩

end Expression

end FieldFilter
