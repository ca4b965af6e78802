import FrontEnd.Proofs.Grammar.Likeness

/-!
# Open calls

Blocks, expressions, operands joined by operators, single operands and calls of functions are read
by productions that call each other.  Here each of them gets a number of calls that may be open at
once and takes one of them for itself; without one left it stops, and records nothing.  So a number
of calls is enough for a run exactly if the run with that number goes as the run without a limit.

The room for nesting bounds how often a block or an expression is open inside another one.  Between
two expressions the operands of looser operators are open, one for each precedence, and those of
powers, one for each power sign: the right operand of a power is read at the same precedence.

## Main definitions

* `blockWithin room calls`: a block that is read with a number of calls.
* `carets`: the power signs among tokens.

## Main statements

* `blockWithin_eq`: a number of calls that is enough.
* `expressionWithin_tower`: powers of powers take more calls than there are power signs.
-/

namespace FrontEnd.Grammar

open Phrase

variable {α : Type} {s s₁ : State} {around : Option Position} {us : List Token} {k m calls : Nat}

/-! ## Productions with a number of calls -/

/-- A production that takes one of the calls that it may make, if one is left. -/
def called (rule : Nat → Parser α) : Nat → Parser α
  | 0 => throw ⟨0⟩
  | calls + 1 => rule calls

/-- An operand. -/
def primaryWithin (expression : Nat → Parser NodeId) : Nat → Parser NodeId :=
  called fun calls => do
    if (← isKind .ident) && (← nextIsKind (.symbol .openParen)) then
      called (fun calls => call (expression calls)) calls
    else primary (expression calls)

/-- Operators after an operand; the right operand of each is a call. -/
def operationsWithin (operand : Nat → Parser NodeId) :
    Nat → Nat → Nat → Position → NodeId → Parser NodeId
  | 0, _, _, _, lhs => return lhs
  | n + 1, calls, least, start, lhs => do
    match operatorOf? (← currentKind) with
    | none => return lhs
    | some op =>
      if op.precedence < least then return lhs
      advance
      let rhsStart := (← current).span.start
      let rhs ← called (fun calls => do
        operationsWithin operand n calls op.operandPrecedence rhsStart (← operand calls)) calls
      let whole ← build (.binary ⟨op, lhs, rhs⟩) (some ⟨start, (← lastSpan).stop⟩)
      operationsWithin operand n calls least start whole

/-- Operands joined by operators. -/
def operandsWithin (operand : Nat → Parser NodeId) : Nat → Parser NodeId :=
  called fun calls => do
    let start := (← current).span.start
    let first ← operand calls
    operationsWithin operand ((← tokensAhead) + 1) calls 0 start first

/-- An expression. -/
def expressionWithin : Nat → Nat → Parser NodeId
  | 0 => called fun _ => fail (.nestingTooDeep maxNesting)
  | room + 1 => called (operandsWithin (primaryWithin (expressionWithin room)))

/-- A block. -/
def blockWithin : Nat → Nat → Parser NodeId
  | 0 => called fun _ => fail (.nestingTooDeep maxNesting)
  | room + 1 => called fun calls =>
      braces (statement (blockWithin room calls) (expressionWithin room calls))

/-! ## Enough calls -/

/-- The number of power signs among tokens. -/
def carets (ts : List Token) : Nat := ts.count (.symbol .caret)

/-- Two runs have one outcome if no more than some power signs are ahead. -/
def Same (m : Nat) (s : State) (result result' : EStateM.Result Marker State α) : Prop :=
  carets s.values ≤ m → result = result'

theorem Sinks.carets_le (h : Sinks s k s₁) : carets s₁.values ≤ carets s.values := by
  obtain ⟨read, hmoved, -⟩ := h.moved
  rw [carets, carets, State.values, State.values, hmoved.upcoming, List.map_append,
    List.count_append]
  exact Nat.le_add_left _ _

theorem likeness_same (m : Nat) : Likeness (Same m) where
  refl _ _ _ := rfl
  of_sinks hs h hle := h (Nat.le_trans hs.carets_le hle)
  bind {α β p q f g around s} hs hq hfirst hrest _ hle := by
    cases hrun : outcome q around s with
    | ok a s₁ =>
      have hsinks := hq.sinks hs hrun
      rw [bind_of_ok hrun, bind_of_ok ((hfirst hle).trans hrun)]
      exact hrest a s₁ hsinks (Nat.le_trans hsinks.carets_le hle)
    | error marker s₁ => rw [bind_of_error hrun, bind_of_error ((hfirst hle).trans hrun)]

/-- The precedences of operators that group from the left, as far as they are not below one. -/
def climbs (least : Nat) : Nat := [10, 20, 30].countP (least ≤ ·)

theorem climbs_operandPrecedence {op : Operator} {least : Nat} (hop : op ≠ .pow)
    (hleast : least ≤ op.precedence) : climbs op.operandPrecedence < climbs least := by
  have hown : climbs op.operandPrecedence < climbs op.precedence := by
    cases op with
    | pow => exact absurd rfl hop
    | _ => decide
  have hmono : climbs op.precedence ≤ climbs least := by
    refine List.countP_mono_left fun n _ hn => ?_
    simp only [decide_eq_true_eq] at hn ⊢
    omega
  omega

/-- The right operand of an operator has less to climb, or there is a power sign less ahead. -/
theorem exists_fewer {op : Operator} {least : Nat} (hs : s.Ended)
    (hkind : s.cursor.kind = .symbol op.symbol) (hleast : least ≤ op.precedence)
    (hm : carets s.values ≤ m) :
    ∃ m', carets s.advance.values ≤ m' ∧ m' ≤ m ∧
      climbs op.operandPrecedence + m' < climbs least + m := by
  have hnext : s.cursor.hasNext = true := by simp [Cursor.hasNext, hkind]
  have hvalues : s.values = .symbol op.symbol :: s.advance.values := by
    rw [State.values, (moved_advance_of_hasNext hs hnext).upcoming, List.map_append,
      List.map_singleton, Token.kind_eq_symbol.mp hkind]
    rfl
  by_cases hpow : op = .pow
  · subst hpow
    have hcount : carets s.values = carets s.advance.values + 1 := by
      rw [hvalues, carets, Operator.symbol, List.count_cons_self]
      rfl
    have hzero : climbs Operator.pow.operandPrecedence = 0 := by decide
    exact ⟨m - 1, by omega, by omega, by omega⟩
  · have hcount : carets s.advance.values ≤ carets s.values := by
      rw [hvalues]
      exact List.count_le_count_cons
    have hfewer := climbs_operandPrecedence hpow hleast
    exact ⟨m, by omega, by omega, by omega⟩

section Operands

variable {operand : Nat → Parser NodeId} {operand' : Parser NodeId} {need : Nat}
  (h : ∀ m calls, need + m < calls → Resembles (Same m) (operand calls) operand')
include h

/-- An operand takes a call for itself, and one more if it is the call of a function. -/
theorem primaryWithin_same {m calls : Nat} (hcalls : need + 2 + m < calls) :
    Resembles (Same m) (primaryWithin operand calls) (primary operand') := by
  obtain ⟨calls, rfl⟩ : ∃ c, calls = c + 2 := ⟨calls - 2, by omega⟩
  have hprimary := resembles_primary (likeness_same m) (h m (calls + 1) (by omega))
  refine ⟨fun around s hs => ?_, hprimary.balanced⟩
  rw [primaryWithin, called, isKind_bind, nextIsKind_bind]
  split
  next hcall =>
    simp only [Bool.and_eq_true, decide_eq_true_eq] at hcall
    have hprimary : outcome (primary operand') around s = outcome (call operand') around s := by
      rw [primary, currentKind_bind, hcall.1]
      dsimp only
      rw [nextIsKind_bind, decide_eq_true hcall.2]
      rfl
    rw [hprimary]
    exact (resembles_call (likeness_same m) (h m calls (by omega))).like around s hs
  next => exact hprimary.like around s hs

/-- Operators take a call for each precedence that there is to climb and for each power sign. -/
theorem operationsWithin_same (n : Nat) {m calls least : Nat} (start : Position) (lhs : NodeId)
    (hcalls : climbs least + need + m < calls) :
    Resembles (Same m) (operationsWithin operand n calls least start lhs)
      (operations operand' n least start lhs) := by
  induction n generalizing m calls least start lhs with
  | zero => exact .refl (likeness_same m) (balanced_pure lhs)
  | succ n ih =>
    refine ⟨fun around s hs hm => ?_,
      balanced_operations (h m (need + m + 1) (by omega)).balanced _ _ _ lhs⟩
    rw [operationsWithin, operations, currentKind_bind, currentKind_bind]
    cases hop : operatorOf? s.cursor.kind with
    | none => rfl
    | some op =>
      dsimp only
      split
      · rfl
      next hleast =>
        have hkind := operatorOf?_eq_some_iff.mp hop
        obtain ⟨m', hm', hle, hfewer⟩ := exists_fewer hs hkind (Nat.le_of_not_lt hleast) hm
        obtain ⟨c, rfl⟩ : ∃ c, calls = c + 1 := ⟨calls - 1, by omega⟩
        have hended : s.advance.Ended :=
          (moved_advance_of_hasNext hs (by simp [Cursor.hasNext, hkind])).ended hs
        rw [advance_bind, advance_bind, current_bind, current_bind, called, ← bind_assoc]
        -- The right operand is read with one call less, the operators behind it are not.
        refine (Resembles.bind (likeness_same m') ((h m' c (by omega)).bind (likeness_same m')
          fun first => ih _ first (by omega)) fun rhs => ?_).like around s.advance hended hm'
        refine .after (likeness_same m') balanced_lastSpan fun _ => ?_
        exact .after (likeness_same m') (balanced_build _ _) fun whole => ih _ whole (by omega)

/-- Operands joined by operators take a call, and what the operators take. -/
theorem operandsWithin_same {m calls : Nat} (hcalls : need + 4 + m < calls) :
    Resembles (Same m) (operandsWithin operand calls) (operands operand') := by
  obtain ⟨calls, rfl⟩ : ∃ c, calls = c + 1 := ⟨calls - 1, by omega⟩
  have hclimbs : climbs 0 = 3 := by decide
  refine .current fun token => (h m calls (by omega)).bind (likeness_same m) fun first => ?_
  refine .after (likeness_same m) balanced_tokensAhead fun n => ?_
  exact operationsWithin_same h _ _ first (by omega)

end Operands

theorem expressionWithin_same (room : Nat) {m calls : Nat} (hcalls : 7 * room + m < calls) :
    Resembles (Same m) (expressionWithin room calls) (expression room) := by
  induction room generalizing m calls with
  | zero =>
    obtain ⟨calls, rfl⟩ : ∃ c, calls = c + 1 := ⟨calls - 1, by omega⟩
    exact .refl (likeness_same m) (balanced_expression 0)
  | succ room ih =>
    obtain ⟨calls, rfl⟩ : ∃ c, calls = c + 1 := ⟨calls - 1, by omega⟩
    exact operandsWithin_same (fun m calls h => primaryWithin_same (fun _ _ => ih) h) (by omega)

theorem blockWithin_same (room : Nat) {m calls : Nat} (hcalls : 7 * room + m < calls) :
    Resembles (Same m) (blockWithin room calls) (block room) := by
  induction room generalizing m calls with
  | zero =>
    obtain ⟨calls, rfl⟩ : ∃ c, calls = c + 1 := ⟨calls - 1, by omega⟩
    exact .refl (likeness_same m) (balanced_block 0)
  | succ room ih =>
    obtain ⟨calls, rfl⟩ : ∃ c, calls = c + 1 := ⟨calls - 1, by omega⟩
    exact resembles_braces (likeness_same m) (resembles_statement (likeness_same m)
      (expressionWithin_same room (by omega)) (ih (by omega)))

/-- Seven calls for each level of nesting and one for each power sign ahead are enough. -/
theorem blockWithin_eq (room : Nat) (around : Option Position) (hs : s.Ended)
    (hcalls : 7 * room + carets s.values < calls) :
    outcome (blockWithin room calls) around s = outcome (block room) around s :=
  (blockWithin_same room hcalls).like around s hs (Nat.le_refl _)

/-! ## Powers of powers -/

/-- `1 ^ (1 ^ (.. ^ 1))`, with a number of power signs. -/
def tower : Nat → Expr
  | 0 => .literal (.int 1)
  | k + 1 => .binary .pow (.literal (.int 1)) (tower k)

/-- The tokens of a tower; it needs no parentheses. -/
def towerTokens : Nat → List Token
  | 0 => [.integer 1]
  | k + 1 => .integer 1 :: .symbol .caret :: towerTokens k

theorem carets_towerTokens (k : Nat) : carets (towerTokens k) = k := by
  induction k with
  | zero => rfl
  | succ k ih =>
    rw [carets] at ih
    simp [carets, towerTokens, ih]

theorem length_towerTokens (k : Nat) : (towerTokens k).length = 2 * k + 1 := by
  induction k with
  | zero => rfl
  | succ k ih =>
    rw [towerTokens, List.length_cons, List.length_cons, ih]
    omega

/-- However high a tower is, it takes room for one expression. -/
theorem expressionTokens_tower (room k : Nat) :
    ExpressionTokens (room + 1) (towerTokens k) (tower k) := by
  have hone : PrimaryTokens (ExpressionTokens room) [.integer 1] (.literal (.int 1)) :=
    .literal (.int 1)
  suffices hlevel : LevelTokens (PrimaryTokens (ExpressionTokens room)) Operator.pow.precedence
      (towerTokens k) (tower k) from hlevel.mono (Nat.zero_le _)
  induction k with
  | zero => exact .operand hone
  | succ k ih => exact .binary (Nat.le_refl _) (.operand hone) ih

/-- A run fails. -/
def Fails (p : Parser α) (around : Option Position) (s : State) : Prop :=
  ∃ marker s', outcome p around s = .error marker s'

theorem Fails.bind {β : Type} {p : Parser α} (f : α → Parser β) (h : Fails p around s) :
    Fails (p >>= f) around s := by
  obtain ⟨marker, s', hfail⟩ := h
  exact ⟨marker, s', bind_of_error hfail⟩

theorem fails_called_zero (rule : Nat → Parser α) (around : Option Position) (s : State) :
    Fails (called rule 0) around s :=
  ⟨⟨0⟩, s, rfl⟩

section Tower

variable (expr : Nat → Parser NodeId)

/-- The number at the start of a tower is read, or there is no call left for it. -/
theorem primaryWithin_one (calls : Nat) {next : Token} (around : Option Position)
    (hs : s.values = .integer 1 :: next :: us) :
    Fails (primaryWithin expr calls) around s ∨
      ∃ id s', outcome (primaryWithin expr calls) around s = .ok id s' ∧
        s'.values = next :: us := by
  cases calls with
  | zero => exact .inl (fails_called_zero _ around s)
  | succ calls =>
    have hkind : s.cursor.kind = .integer := State.kind_of_values hs
    obtain ⟨id, s', hrun, hpass, -⟩ := complete_literal around (.int 1) hs trivial
    refine .inr ⟨id, s', ?_, hpass.values_right hs⟩
    rw [primaryWithin, called, isKind_bind_false (by simp [hkind]), nextIsKind_bind]
    rw [Bool.false_and, if_neg (by simp), primary, currentKind_bind, hkind]
    exact hrun

/-- Behind an operand, the right operand of a tower takes a call. -/
theorem operationsWithin_tower {n least : Nat} (start : Position) (lhs : NodeId)
    (around : Option Position) (hs : s.values = .symbol .caret :: (towerTokens k ++ us))
    (hn : k < n) (hleast : least ≤ Operator.pow.precedence) (hcalls : calls ≤ k) :
    Fails (operationsWithin (primaryWithin expr) n calls least start lhs) around s := by
  induction calls generalizing s k n least start lhs with
  | zero =>
    obtain ⟨n, rfl⟩ : ∃ m, n = m + 1 := ⟨n - 1, by omega⟩
    rw [Fails, operationsWithin, currentKind_bind, State.kind_of_values hs]
    dsimp only [operatorOf?, Token.kind]
    rw [if_neg (Nat.not_lt.mpr hleast), advance_bind, current_bind]
    exact (fails_called_zero _ around s.advance).bind _
  | succ calls ih =>
    obtain ⟨n, rfl⟩ : ∃ m, n = m + 1 := ⟨n - 1, by omega⟩
    obtain ⟨k, rfl⟩ : ∃ m, k = m + 1 := ⟨k - 1, by omega⟩
    have hs₁ : s.advance.values = .integer 1 :: .symbol .caret :: (towerTokens k ++ us) :=
      values_advance hs
    rw [Fails, operationsWithin, currentKind_bind, State.kind_of_values hs]
    dsimp only [operatorOf?, Token.kind]
    rw [if_neg (Nat.not_lt.mpr hleast), advance_bind, current_bind, called]
    refine Fails.bind _ ?_
    obtain hfail | ⟨first, s₁, hrun, hvalues⟩ := primaryWithin_one expr calls around hs₁
    · exact hfail.bind _
    · rw [Fails, bind_of_ok hrun]
      exact ih _ first hvalues (by omega) (Nat.le_refl _) (by omega)

end Tower

/-- A tower takes more calls than it has power signs. -/
theorem expressionWithin_tower (room : Nat) (around : Option Position)
    (hs : s.values = towerTokens k ++ us) (hcalls : calls ≤ k) :
    Fails (expressionWithin (room + 1) calls) around s := by
  obtain _ | _ | calls := calls
  · exact fails_called_zero _ around s
  · exact ⟨⟨0⟩, s, rfl⟩
  · obtain ⟨k, rfl⟩ : ∃ m, k = m + 1 := ⟨k - 1, by omega⟩
    have hs₁ : s.values = .integer 1 :: .symbol .caret :: (towerTokens k ++ us) := hs
    rw [Fails, expressionWithin, called, operandsWithin, called, current_bind]
    obtain hfail | ⟨first, s₁, hrun, hvalues⟩ :=
      primaryWithin_one (expressionWithin room) calls around hs₁
    · exact hfail.bind _
    · rw [bind_of_ok hrun, tokensAhead_bind]
      refine operationsWithin_tower _ _ first around hvalues ?_ (Nat.zero_le _) (by omega)
      have hlength := length_towerTokens k
      rw [State.ahead_length, hvalues, List.length_cons, List.length_append]
      omega

theorem Fails.mapped {rule : Parser α} (h : ∀ around, Fails rule around s) :
    Fails (mapped rule) around s := by
  have hreader : Fails (withReader (fun _ => some s.cursor.current.span.start) rule) around s :=
    h (some s.cursor.current.span.start)
  exact hreader.bind _

/-- So does a block with a tower in it. -/
theorem blockWithin_tower (room : Nat) (around : Option Position)
    (hs : s.values = .symbol .openCurly :: (towerTokens k ++ us)) (hcalls : calls ≤ k) :
    Fails (blockWithin (room + 2) calls) around s := by
  cases calls with
  | zero => exact fails_called_zero _ around s
  | succ calls =>
    obtain ⟨k, rfl⟩ : ∃ m, k = m + 1 := ⟨k - 1, by omega⟩
    rw [Fails, blockWithin, called, braces]
    refine Fails.bind _ (Fails.mapped fun around => ?_)
    -- The statement behind the brace is the tower, and that fails.
    rw [Fails, symbol_bind hs, build_bind, tokensAhead_bind, statements]
    let s₁ := s.advance.withStore (s.advance.store.build .emptyBlock none).2
    have hs₁ : s₁.values = towerTokens (k + 1) ++ us :=
      values_advance hs (by simp) (by simp [towerTokens])
    refine Fails.bind _ ?_
    rw [Fails, isSymbol_bind_false hs₁ (by simp)]
    refine Fails.bind _ ?_
    rw [Fails, statement, currentKind_bind, State.kind_of_values hs₁]
    refine Fails.bind _ (Fails.mapped fun around => Fails.bind _ ?_)
    exact expressionWithin_tower room around hs₁ (by omega)

end FrontEnd.Grammar
