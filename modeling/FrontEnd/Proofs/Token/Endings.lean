import FrontEnd.Proofs.Token.Lines

/-!
# How scanning ends

Whatever items the scanner reads, in whatever order, it ends with the end of the input, which it
answers once.  One item may be answered twice, by the token that it ends and by an error of its
own; but then a lexeme was begun before it without an answer.  So the answers are counted together
with the one that is owed inside a lexeme, and there is at most one for each item, and the end.

## Main definitions

* `Answer.isInput`: the answer is that a line could not be read.

## Main statements

* `Scanner.run_ends`: the answers of any scanner to any items.
* `scan_ends`: the answers to any items, and what becomes of them.
-/

namespace FrontEnd

/-- The answer is that a line could not be read. -/
def Answer.isInput : Answer → Bool
  | .error ⟨.input, _⟩ => true
  | _ => false

namespace Scanner

variable {m : Scanner} {c : Char} {after : Position} {k : Nat} {fed : Scanner × List Answer}

theorem Fed.countP_isInput (h : Fed k c after fed) : fed.2.countP Answer.isInput = 0 := by
  obtain ⟨tokens, error?, hanswers, -, herror⟩ := h.answers
  rw [hanswers, List.countP_eq_zero]
  intro answer hanswer
  rcases List.mem_append.mp hanswer with hmem | hmem
  · obtain ⟨t, -, rfl⟩ := List.mem_map.mp hmem
    simp [Answer.isInput]
  · obtain ⟨⟨error, span⟩, herror?, rfl⟩ := List.mem_map.mp hmem
    have hne := (herror ⟨error, span⟩ (Option.mem_toList.mp herror?)).1
    cases error with
    | input => exact absurd rfl hne
    | _ => simp [Answer.isInput]

theorem Fed.spells (h : Fed k c after fed) {t : Located Token} (ht : .ok t ∈ fed.2) :
    ∃ part, Spells part t.value := by
  obtain ⟨tokens, error?, hanswers, htokens, -⟩ := h.answers
  rw [hanswers] at ht
  exact htokens t (by simpa using ht)

/-- What the scanner answers ends with the end of the input.  Before it there are tokens that can
be spelt, and errors, one of them for each line that could not be read. -/
def Ends (length inputs : Nat) (answers : List Answer) : Prop :=
  ∃ front span, answers = front ++ [.token .eof span] ∧
    (∀ t, .ok t ∈ front → ∃ part, Spells part t.value) ∧ front.length ≤ length ∧
    front.countP Answer.isInput = inputs

theorem ends_finish (h : m.Proper) : Ends m.owed 0 m.finish := by
  obtain ⟨phase, next⟩ := m
  cases phase with
  | between => exact ⟨[], _, rfl, by simp, by simp, rfl⟩
  | skipping => exact ⟨[], _, rfl, by simp, by simp, rfl⟩
  | within lexeme start last =>
    obtain ⟨part, hpart⟩ := h lexeme start last rfl
    have hfinish := hpart.finish
    simp only [finish]
    cases hend : lexeme.finish with
    | none => exact ⟨[], _, rfl, by simp, by simp, rfl⟩
    | some result =>
      rw [hend] at hfinish
      cases result with
      | ok token =>
        refine ⟨[_], _, rfl, fun t ht => ?_, Nat.le_refl _, rfl⟩
        cases List.mem_singleton.mp ht
        exact ⟨part, hfinish.1⟩
      | error error =>
        refine ⟨[_], _, rfl, by simp [Answer.failure], Nat.le_refl _, ?_⟩
        cases lexeme <;> cases hend <;> rfl

/-- Answers to one item come before the answers to the others. -/
theorem Ends.append {answers : List Answer} {length inputs : Nat} (h : Ends length inputs answers)
    (first : List Answer) (hspells : ∀ t, .ok t ∈ first → ∃ part, Spells part t.value) :
    Ends (first.length + length) (first.countP Answer.isInput + inputs) (first ++ answers) := by
  obtain ⟨front, span, rfl, hfront, hlength, hinputs⟩ := h
  refine ⟨first ++ front, span, (List.append_assoc _ _ _).symm, fun t ht => ?_, ?_, ?_⟩
  · exact (List.mem_append.mp ht).elim (hspells t) (hfront t)
  · simpa using hlength
  · rw [List.countP_append, hinputs]

/-- The answers of any scanner to any items. -/
theorem run_ends (h : m.Proper) (items : List Item) :
    Ends (items.length + m.owed) (items.count .failure) (m.run items) := by
  induction items generalizing m with
  | nil => simpa [run] using ends_finish h
  | cons item rest ih =>
    cases item with
    | char c after =>
      have hfed := fed_feedChar h c after
      obtain ⟨front, span, hrun, hfront, hlength, hinputs⟩ := (ih hfed.proper).append _
        fun _ => hfed.spells
      refine ⟨front, span, hrun, hfront, ?_, ?_⟩
      · have hstep := hfed.length
        rw [List.length_cons]
        omega
      · simpa [hfed.countP_isInput] using hinputs
    | failure =>
      have hproper : Proper ⟨.skipping, m.next⟩ := by
        intro lexeme start last hphase
        cases hphase
      obtain ⟨front, span, hrun, hfront, hlength, hinputs⟩ := (ih hproper).append
        [.failure .input m.next.cell] (by simp [Answer.failure])
      refine ⟨front, span, hrun, hfront, ?_, ?_⟩
      · simp only [List.length_cons, List.length_nil, owed] at hlength ⊢
        omega
      · rw [hinputs, List.count_cons_self, Nat.add_comm]
        rfl

end Scanner

/-- Answers among which there is no error are tokens. -/
theorem map_ok_tokens {answers : List Answer} (h : Answer.errors answers = []) :
    (Answer.tokens answers).map .ok = answers := by
  induction answers with
  | nil => rfl
  | cons answer rest ih =>
    cases answer with
    | error error => cases h
    | ok token => exact congrArg _ (ih h)

theorem tokens_eq_ok_iff_map {items : List Item} {result : List (Located Token)} :
    tokens items = .ok result ↔ scan items = result.map .ok := by
  rw [tokens_eq_ok_iff]
  constructor
  · rintro ⟨herrors, rfl⟩
    exact (map_ok_tokens herrors).symm
  · intro h
    rw [h]
    simp [Answer.errors, Answer.tokens, List.filterMap_map]

/-- **Scanning ends.**  The answers to any items are one more than the items at most.  The last is
the end of the input, and no other is; one answer is that a line could not be read for each item
that says so.  The tokens of the items are all answers if none is an error; otherwise the outcome
is the errors, in order. -/
theorem scan_ends (items : List Item) :
    (scan items).length ≤ items.length + 1 ∧
    (∃ front span, scan items = front ++ [.token .eof span] ∧ ∀ t, .ok t ∈ front → t.value ≠ .eof) ∧
    (scan items).countP Answer.isInput = items.count .failure ∧
    (∀ result, tokens items = .ok result ↔ scan items = result.map .ok) ∧
    ∀ errors, tokens items = .error errors ↔ Answer.errors (scan items) = errors ∧ errors ≠ [] := by
  have hproper : Scanner.initial.Proper := .of_between
  obtain ⟨front, span, hrun, hfront, hlength, hinputs⟩ := Scanner.run_ends hproper items
  have hscan : scan items = front ++ [.token .eof span] := hrun
  refine ⟨?_, ⟨front, span, hscan, fun t ht => ne_eof_of_spells (hfront t ht)⟩, ?_,
    fun _ => tokens_eq_ok_iff_map, fun _ => tokens_eq_error_iff⟩
  · rw [hscan, List.length_append]
    exact Nat.succ_le_succ hlength
  · rw [hscan, List.countP_append, hinputs]
    rfl

end FrontEnd
