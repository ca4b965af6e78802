import FrontEnd.Proofs.Grammar.Likeness

/-!
# Bounds on loops

Every loop of the grammar carries a bound on the number of its turns, which is the number of tokens
that are left where it starts.  Here it is shown that no such bound is ever felt: a loop passes a
token in each turn after which it goes on, so any larger bound leads to the same outcome.  In other
words, the loops end by themselves.

`Alike k p q` says that two productions do the same as long as no more than `k` tokens are left.
Passing a token leaves room for one token less, which is what the induction on `k` needs.

## Main definitions

* `Alike`: productions with the same outcomes on few tokens.
* `Settles`: loops whose bound is not felt.
-/

namespace FrontEnd.Grammar

variable {α β : Type} {s s' : State} {around : Option Position} {k : Nat}

/-! ## Productions that do the same -/

/-- Two productions do the same where at most `k` tokens are left. -/
def Alike (k : Nat) (p q : Parser α) : Prop :=
  ∀ around s, s.Ended → s.values.length ≤ k → outcome p around s = outcome q around s

/-- A production that succeeds has passed a token. -/
def Consumes (p : Parser α) : Prop :=
  ∀ around s a s', s.Ended → outcome p around s = .ok a s' → s'.values.length < s.values.length

namespace Alike

variable {p q r : Parser α} {f g : α → Parser β}

/-- There is always a token left. -/
theorem zero : Alike 0 p q := by
  intro around s _ hlength
  exact absurd (List.length_eq_zero_iff.mp (Nat.le_zero.mp hlength)) s.values_ne_nil

theorem refl : Alike k p p := fun _ _ _ _ => rfl

/-- Productions that go on alike. -/
theorem bind (hpq : Alike k p q) (hq : Balanced q) (h : ∀ a, Alike k (f a) (g a)) :
    Alike k (p >>= f) (q >>= g) := by
  intro around s hs hlength
  have hfirst := hpq around s hs hlength
  cases hrun : outcome q around s with
  | ok a s₁ =>
    obtain ⟨hs₁, hless⟩ := hq.shrinks hs hrun
    rw [bind_of_ok hrun, bind_of_ok (hfirst.trans hrun)]
    exact h a around s₁ hs₁ (Nat.le_trans hless hlength)
  | error marker s₁ => rw [bind_of_error hrun, bind_of_error (hfirst.trans hrun)]

/-- Productions that go on alike after a token was passed. -/
theorem bind_consumes (hp : Balanced p) (hc : Consumes p) (h : ∀ a, Alike k (f a) (g a)) :
    Alike (k + 1) (p >>= f) (p >>= g) := by
  intro around s hs hlength
  cases hrun : outcome p around s with
  | ok a s₁ =>
    have hless := hc around s a s₁ hs hrun
    rw [bind_of_ok hrun, bind_of_ok hrun]
    exact h a around s₁ (hp.shrinks hs hrun).1 (by omega)
  | error marker s₁ => rw [bind_of_error hrun, bind_of_error hrun]

/-- Productions that go on alike behind a token that is not the last. -/
theorem after_advance {p q : Parser β} (h : Alike k p q) (hs : s.Ended)
    (hnext : s.cursor.hasNext = true) (hlength : s.values.length ≤ k + 1) :
    outcome p around s.advance = outcome q around s.advance := by
  have hless := length_values_advance hs hnext
  exact h around s.advance ((moved_advance_of_hasNext hs hnext).ended hs) (by omega)

/-- Productions that go on alike behind a sign that may be there. -/
theorem after_symbol {sign : Symbol} (h : Alike k p q) :
    Alike (k + 1) (do if ← isSymbol sign then advance; p else r)
      (do if ← isSymbol sign then advance; q else r) := by
  intro around s hs hlength
  rw [isSymbol_bind, isSymbol_bind]
  by_cases hsign : s.cursor.kind = .symbol sign
  · rw [decide_eq_true hsign]
    exact h.after_advance hs (by simp [Cursor.hasNext, hsign]) hlength
  · rw [decide_eq_false hsign]
    rfl

end Alike

theorem consumes_skipOver {kind : TokenKind} (hkind : kind ≠ .eof) : Consumes (skipOver kind) := by
  intro around s a s' hs hrun
  by_cases hk : s.cursor.kind = kind
  · rw [skipOver_eq hk] at hrun
    cases hrun
    have hless := length_values_advance hs (by simpa [Cursor.hasNext, hk])
    omega
  · obtain ⟨span, hfail⟩ := outcome_expect around hk
    rw [skipOver, bind_of_error hfail] at hrun
    cases hrun

theorem Consumes.bind {p : Parser α} {f : α → Parser β} (hc : Consumes p) (hp : Balanced p)
    (hf : ∀ a, Balanced (f a)) : Consumes (p >>= f) := by
  intro around s b s' hs hrun
  obtain ⟨a, s₁, hfirst, hrest⟩ := bind_eq_ok hrun
  have hless := hc around s a s₁ hs hfirst
  have hmore := ((hf a).shrinks (hp.shrinks hs hfirst).1 hrest).2
  omega

theorem Consumes.node {rule : Parser Construct} (hc : Consumes rule) : Consumes (node rule) := by
  intro around s id s' hs hrun
  obtain ⟨r, s₁, hmapped, hbuild⟩ := bind_eq_ok hrun
  obtain ⟨c, hrule⟩ := mapped_eq_ok hmapped
  cases hbuild
  exact hc _ s c s₁ hs hrule

/-- A production that reads what is written with a token at least. -/
theorem Plants.consumes {γ : Type} {p : Parser NodeId} {Written : List Token → γ → Prop}
    {At : Store.Placing γ} (h : Plants p Written At) (hne : ∀ {ts a}, Written ts a → ts ≠ []) :
    Consumes p := by
  intro around s id s' hs hrun
  obtain ⟨ts, hreached, a, hts, -⟩ := (h around hs).of_ok hrun
  have hlength := hreached.passes.length_le
  have hpos := List.length_pos_iff.mpr (hne hts)
  omega

/-! ## Loops -/

/-- A loop ends by itself: bounds on its turns that are as large as the number of tokens left all
lead to the same outcome. -/
def Settles (loop : Nat → Parser α) : Prop :=
  ∀ around s, s.Ended → ∀ n m, s.values.length ≤ n → s.values.length ≤ m →
    outcome (loop n) around s = outcome (loop m) around s

theorem settles_of_alike {loop : Nat → Parser α}
    (h : ∀ k n m, Alike k (loop (n + k)) (loop (m + k))) : Settles loop := by
  intro around s hs n m hn hm
  have := h s.values.length (n - s.values.length) (m - s.values.length) around s hs (Nat.le_refl _)
  rwa [Nat.sub_add_cancel hn, Nat.sub_add_cancel hm] at this

theorem settles_commaList {rule : Parser α} (hrule : Balanced rule) (items : List α) :
    Settles fun n => commaList rule n items := by
  refine settles_of_alike fun k n m => ?_
  induction k generalizing items with
  | zero => exact .zero
  | succ k ih => exact Alike.refl.bind hrule fun item => (ih (items ++ [item])).after_symbol

theorem settles_operations {operand : Parser NodeId} (hoperand : Balanced operand) (least : Nat)
    (start : Position) (lhs : NodeId) : Settles fun n => operations operand n least start lhs := by
  refine settles_of_alike fun k n m => ?_
  induction k generalizing least start lhs with
  | zero => exact .zero
  | succ k ih =>
    intro around s hs hlength
    rw [← Nat.add_assoc, ← Nat.add_assoc, operations, operations, currentKind_bind,
      currentKind_bind]
    cases hop : operatorOf? s.cursor.kind with
    | none => rfl
    | some op =>
      dsimp only
      split
      · rfl
      · have hnext : s.cursor.hasNext = true := by
          rw [Cursor.hasNext, decide_eq_true_iff]
          rintro heof
          rw [heof] at hop
          cases hop
        rw [advance_bind, advance_bind]
        refine Alike.after_advance ?_ hs hnext hlength
        intro around s₁ hs₁ hlength₁
        rw [current_bind, current_bind]
        refine (Alike.refl.bind hoperand fun first => ?_) around s₁ hs₁ hlength₁
        refine (ih _ _ first).bind (balanced_operations hoperand _ _ _ _) fun rhs => ?_
        exact Alike.refl.bind balanced_lastSpan fun _ => Alike.refl.bind (balanced_build _ _)
          fun whole => ih _ _ whole

theorem settles_statements {rule : Parser NodeId} (hrule : Balanced rule) (hc : Consumes rule)
    (block : NodeId) : Settles (statements rule block) := by
  refine settles_of_alike fun k n m => ?_
  induction k with
  | zero => exact .zero
  | succ k ih =>
    intro around s hs hlength
    rw [← Nat.add_assoc, ← Nat.add_assoc, statements, statements, isSymbol_bind, isSymbol_bind]
    split
    · rfl
    · refine (Alike.bind_consumes hrule hc fun statement => ?_) around s hs hlength
      exact Alike.refl.bind (balanced_append block statement) fun _ => ih

theorem settles_argumentList (function : Ident) (scope : Scope) :
    Settles fun n => argumentList function n scope := by
  refine settles_of_alike fun k n m => ?_
  induction k generalizing scope with
  | zero => exact .zero
  | succ k ih =>
    intro around s hs hlength
    rw [← Nat.add_assoc, ← Nat.add_assoc, argumentList, argumentList, isSymbol_bind, isSymbol_bind]
    split
    · rfl
    · refine (Alike.refl.bind balanced_typeRef fun type => ?_) around s hs hlength
      refine Alike.refl.bind balanced_ident fun name => ?_
      split
      · exact .refl
      · exact (ih _).after_symbol

theorem settles_fields (owner : Ident) (scope : Scope) :
    Settles fun n => fields owner n scope := by
  refine settles_of_alike fun k n m => ?_
  induction k generalizing scope with
  | zero => exact .zero
  | succ k ih =>
    intro around s hs hlength
    rw [← Nat.add_assoc, ← Nat.add_assoc, fields, fields, isSymbol_bind, isSymbol_bind]
    split
    · rfl
    · refine (Alike.refl.bind balanced_typeRef fun type => ?_) around s hs hlength
      refine Alike.refl.bind balanced_ident fun name => ?_
      refine Alike.bind_consumes (balanced_symbol rfl) (consumes_skipOver (by simp)) fun _ => ?_
      split
      · exact .refl
      · exact ih _

theorem settles_attributes (read : List NodeId) : Settles fun n => attributes n read := by
  refine settles_of_alike fun k n m => ?_
  induction k generalizing read with
  | zero => exact .zero
  | succ k ih =>
    intro around s hs hlength
    rw [← Nat.add_assoc, ← Nat.add_assoc, attributes, attributes, isSymbol_bind, isSymbol_bind]
    have hrest : ∀ _ : Unit, Balanced (do return Construct.attr (← ident).value) :=
      fun _ => balanced_ident.bind fun _ => balanced_pure _
    have hsign : Balanced (symbol .atSign) := balanced_symbol rfl
    have hc : Consumes (symbol .atSign) := consumes_skipOver (by simp)
    split
    · exact Alike.bind_consumes (balanced_node (hsign.bind hrest)) (hc.bind hsign hrest).node
        (fun one => ih _) around s hs hlength
    · rfl

theorem settles_skipToBoundary (depth skipped : Nat) :
    Settles fun n => skipToBoundary depth n skipped := by
  refine settles_of_alike fun k n m => ?_
  induction k generalizing skipped with
  | zero => exact .zero
  | succ k ih =>
    intro around s hs hlength
    rw [← Nat.add_assoc, ← Nat.add_assoc, skipToBoundary, skipToBoundary, get_bind, get_bind]
    dsimp only
    split
    next hgo => exact (ih (skipped + 1)).after_advance hs hgo.1 hlength
    next => rfl

end FrontEnd.Grammar
