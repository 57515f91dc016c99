import FieldFilter.Proofs.CacheContents

/-!
# Questions to a cache

A cache stands between questions and the computations that answer them.  A question that may be
remembered is looked up under its key, and computed only if nothing is found; any other question is
computed.  Computing the same question again may come to something else, if it depends on something
that has changed, or if the key does not tell two questions apart.  Then the cache may show.

* `Cache.Question`, `Cache.consult` — a question, and the one look-up or computation that answers it.
* `Cache.Consults` — questions one after the other, and the answers.
* **`Cache.Consults.origin`** — every answer is the outcome of its question, or that of an earlier
  question of the same key.
* **`Cache.Consults.eq_outcomes_iff_coherent`** — questions are answered by their outcomes, whatever
  the limits are, just if none comes to something else than an earlier one of the same key.
-/

namespace FieldFilter.Cache

variable {κ ν ε : Type}

/-- A question: what the answer is remembered under, if it may be remembered, and what computing it
comes to. -/
structure Question (κ ν ε : Type) where
  key? : Option κ
  outcome : Except ε ν

namespace Question

/-- What questions leave in a cache: their outcomes, under their keys. -/
def Recorded (done : List (Question κ ν ε)) (key : κ) (value : ν) : Prop :=
  ∃ question ∈ done, question.key? = some key ∧ question.outcome = .ok value

/-- No question comes to something else than an earlier one with the same key.  An earlier fault
does not count, as it is not remembered. -/
def Coherent (questions : List (Question κ ν ε)) : Prop :=
  questions.Pairwise fun earlier later => ∀ key value,
    earlier.key? = some key → later.key? = some key →
      earlier.outcome = .ok value → later.outcome = .ok value

/-- What was recorded stays recorded. -/
theorem Recorded.append {done : List (Question κ ν ε)} {key : κ} {value : ν}
    (h : Recorded done key value) (more : List (Question κ ν ε)) :
    Recorded (done ++ more) key value := by
  obtain ⟨question, hmem, hrecorded⟩ := h
  exact ⟨question, List.mem_append_left _ hmem, hrecorded⟩

end Question

variable [DecidableEq κ]

/-- One look-up or computation, if there is a key to remember it under. -/
def consult (cache : Cache κ ν) (now later : Nat) (key? : Option κ) (compute : Except ε ν) :
    Except ε ν × Cache κ ν :=
  match key? with
  | none => (compute, cache)
  | some key => cache.getOrInsert now later key compute

/-- The answers to questions that are put to a cache one after the other, at some times. -/
inductive Consults : Cache κ ν → List (Question κ ν ε) → List (Except ε ν) → Prop where
  | nil {cache : Cache κ ν} : Consults cache [] []
  | cons {cache : Cache κ ν} {question : Question κ ν ε} {rest : List (Question κ ν ε)}
    {answers : List (Except ε ν)} (now later : Nat)
    (h : Consults (cache.consult now later question.key? question.outcome).2 rest answers) :
    Consults cache (question :: rest)
      ((cache.consult now later question.key? question.outcome).1 :: answers)

/-! ## One question -/

section Consult

variable {P : κ → ν → Prop} {cache : Cache κ ν} {key? : Option κ} {compute : Except ε ν}

/-- A question leaves at most its outcome. -/
theorem holds_consult (h : cache.Holds P) (now later : Nat)
    (hcompute : ∀ key value, key? = some key → compute = .ok value → P key value) :
    (cache.consult now later key? compute).2.Holds P := by
  cases key? with
  | none => exact h
  | some key => exact holds_getOrInsert h now later fun value => hcompute key value rfl

/-- A question is answered by its outcome, or by what the cache holds under its key. -/
theorem consult_cases (h : cache.Holds P) (now later : Nat) :
    (cache.consult now later key? compute).1 = compute
      ∨ ∃ key value, key? = some key ∧ P key value
        ∧ (cache.consult now later key? compute).1 = .ok value := by
  cases key? with
  | none => exact .inl rfl
  | some key =>
    rw [consult, getOrInsert_eq]
    cases hread : (cache.get now key).1 with
    | none => exact .inl (by cases compute <;> rfl)
    | some value => exact .inr ⟨key, value, rfl, holds_of_get h hread, rfl⟩

/-- Where whatever is held is right about a question, it is answered by its outcome. -/
theorem consult_of_holds (h : cache.Holds P) (now later : Nat)
    (hright : ∀ key value, key? = some key → P key value → compute = .ok value) :
    (cache.consult now later key? compute).1 = compute := by
  rcases consult_cases h now later with houtcome | ⟨key, value, hkey, hheld, hanswer⟩
  · exact houtcome
  · rw [hanswer, hright key value hkey hheld]

theorem limits_consult (cache : Cache κ ν) (now later : Nat) (key? : Option κ)
    (compute : Except ε ν) : (cache.consult now later key? compute).2.limits = cache.limits := by
  cases key? with
  | none => rfl
  | some key => exact limits_getOrInsert cache now later key compute

/-- A cache of size zero computes every time. -/
theorem consult_of_isDisabled (h : cache.limits.isDisabled = true) (now later : Nat)
    (key? : Option κ) (compute : Except ε ν) :
    (cache.consult now later key? compute).1 = compute := by
  cases key? with
  | none => rfl
  | some key => exact getOrInsert_of_isDisabled h now later key compute

end Consult

/-! ## Questions one after the other -/

namespace Consults

open Question

variable {cache : Cache κ ν} {questions : List (Question κ ν ε)} {answers : List (Except ε ν)}

/-- A further question is among those whose outcomes may be held. -/
theorem holds_concat {done : List (Question κ ν ε)} (hdone : cache.Holds (Recorded done))
    (now later : Nat) (question : Question κ ν ε) :
    (cache.consult now later question.key? question.outcome).2.Holds
      (Recorded (done ++ [question])) := by
  refine holds_consult (hdone.imp fun key value hrecorded => hrecorded.append _) now later ?_
  intro key value hkey hvalue
  exact ⟨question, List.mem_append_right _ (List.mem_singleton_self question), hkey, hvalue⟩

/-- There are as many answers as questions. -/
theorem length_eq (h : Consults cache questions answers) : answers.length = questions.length := by
  induction h with
  | nil => rfl
  | cons now later _ ih => rw [List.length_cons, List.length_cons, ih]

/-- **Every answer is the outcome of its question, or that of an earlier one** with the same key. -/
theorem origin (h : Consults cache questions answers) {done : List (Question κ ν ε)}
    (hdone : cache.Holds (Recorded done)) {before after : List (Question κ ν ε)}
    {question : Question κ ν ε} (hsplit : questions = before ++ question :: after) :
    ∃ answer, answers[before.length]? = some answer
      ∧ (answer = question.outcome ∨ ∃ earlier ∈ done ++ before, ∃ key value,
          earlier.key? = some key ∧ question.key? = some key
            ∧ earlier.outcome = .ok value ∧ answer = .ok value) := by
  induction h generalizing done before with
  | nil => simp at hsplit
  | @cons cache first rest answers now later _ ih =>
    cases before with
    | nil =>
      obtain ⟨rfl, -⟩ := List.cons.inj hsplit
      refine ⟨_, rfl, (consult_cases hdone now later).imp_right ?_⟩
      rintro ⟨key, value, hkey, ⟨earlier, hmem, hsame, houtcome⟩, hanswer⟩
      exact ⟨earlier, List.mem_append_left _ hmem, key, value, hsame, hkey, houtcome, hanswer⟩
    | cons second before =>
      obtain ⟨rfl, hrest⟩ := List.cons.inj hsplit
      obtain ⟨answer, hanswer, horigin⟩ := ih (holds_concat hdone now later first) hrest
      rw [List.append_assoc, List.singleton_append] at horigin
      exact ⟨answer, hanswer, horigin⟩

/-- **Coherent questions are answered by their outcomes**, whatever the limits of the cache are. -/
theorem eq_outcomes (h : Consults cache questions answers) {done : List (Question κ ν ε)}
    (hdone : cache.Holds (Recorded done)) (hcoherent : Coherent (done ++ questions)) :
    answers = questions.map (·.outcome) := by
  induction h generalizing done with
  | nil => rfl
  | @cons cache question rest answers now later _ ih =>
    obtain ⟨-, -, hbetween⟩ := List.pairwise_append.1 hcoherent
    have hfirst : (cache.consult now later question.key? question.outcome).1 = question.outcome := by
      refine consult_of_holds hdone now later ?_
      rintro key value hkey ⟨earlier, hmem, hsame, hvalue⟩
      exact hbetween earlier hmem question List.mem_cons_self key value hsame hkey hvalue
    have hrest := ih (holds_concat hdone now later question) (by
      rw [List.append_assoc]
      exact hcoherent)
    rw [List.map_cons, hfirst, hrest]

/-- A cache of size zero does not show. -/
theorem eq_outcomes_of_isDisabled (h : Consults cache questions answers)
    (hdisabled : cache.limits.isDisabled = true) : answers = questions.map (·.outcome) := by
  induction h with
  | nil => rfl
  | @cons cache question rest answers now later _ ih =>
    have hfirst := consult_of_isDisabled hdisabled now later question.key? question.outcome
    have hrest := ih (by rwa [limits_consult])
    rw [List.map_cons, hfirst, hrest]

/-! ### Without limits, incoherent questions show the cache -/

/-- A value that is known is the answer to every later question of its key. -/
theorem outcome_of_knows (h : Consults cache questions answers) {key : κ} {value : ν}
    (hknows : cache.Knows key value) (hanswers : answers = questions.map (·.outcome)) :
    ∀ question ∈ questions, question.key? = some key → question.outcome = .ok value := by
  induction h with
  | nil => nofun
  | @cons cache first rest answers now later _ ih =>
    rw [List.map_cons, List.cons.injEq] at hanswers
    obtain ⟨hfirst, hrest⟩ := hanswers
    refine List.forall_mem_cons.2 ⟨fun hkey => ?_, ih ?_ hrest⟩
    · rw [← hfirst, hkey]
      exact hknows.getOrInsert_self now later _
    · cases first.key? with
      | none => exact hknows
      | some other => exact hknows.getOrInsert now later other _

/-- **Questions that a cache without limits answers by their outcomes are coherent.** -/
theorem coherent (h : Consults cache questions answers) (hlimits : cache.limits = .unlimited)
    (hanswers : answers = questions.map (·.outcome)) : Coherent questions := by
  induction h with
  | nil => exact List.Pairwise.nil
  | @cons cache first rest answers now later hnext ih =>
    rw [List.map_cons, List.cons.injEq] at hanswers
    obtain ⟨hfirst, hrest⟩ := hanswers
    refine List.pairwise_cons.2 ⟨fun question hmem key value hkey hsame hvalue => ?_, ?_⟩
    · -- the first question has made its outcome known, so this one can only repeat it
      refine hnext.outcome_of_knows ?_ hrest question hmem hsame
      rw [hvalue, hkey] at hfirst
      rw [hvalue, hkey]
      exact knows_getOrInsert hlimits hfirst
    · exact ih ((limits_consult cache now later _ _).trans hlimits) hrest

/-- **The cache never shows just if the questions are coherent.**  New caches of all limits answer
them by their outcomes, if and only if none comes to something else than an earlier one of the same
key. -/
theorem eq_outcomes_iff_coherent {answers : Limits → List (Except ε ν)}
    (h : ∀ limits, (empty limits : Cache κ ν).Consults questions (answers limits)) :
    (∀ limits, answers limits = questions.map (·.outcome)) ↔ Coherent questions := by
  constructor
  · intro hanswers
    exact (h .unlimited).coherent rfl (hanswers .unlimited)
  · intro hcoherent limits
    have hempty : (empty limits : Cache κ ν).Holds (Recorded ([] : List (Question κ ν ε))) :=
      holds_empty _ limits
    exact (h limits).eq_outcomes hempty hcoherent

end Consults

end FieldFilter.Cache
