import FrontEnd.Proofs.Grammar.Run

/-!
# Reading expressions

The productions for expressions read exactly what the grammar of expressions allows.
Completeness says that what is written is read as the expression it is, soundness that
nothing else is.

The grammar is left recursive where the loop over operators is not.  The two meet in
`operations_of_level`: with the operands and operators of a derivation ahead, the loop
comes to stand behind them with the whole expression in hand.  It then takes in the next
operator or not, as precedence tells.

## Main definitions

* `EndsExpression`: the tokens that may follow an expression.

## Main statements

* `complete_expression`, `plants_expression`.
-/

namespace FrontEnd.Grammar

open Phrase Store

variable {α : Type} {s s' s₀ s₁ s₂ : State} {t next : Token} {ts us rest : List Token}
  {around : Option Position}

/-! ## Literals -/

/-- The value of a literal of one token. -/
theorem literalOf?_eq_some {t : Token} {c : Literal} (h : literalOf? false t = some c) :
    ∃ l : Lit, LiteralTokens [t] l ∧ c = l.sized := by
  unfold literalOf? at h
  split at h
  · injection h with h; exact ⟨.int _, .int _, by simpa [Lit.sized] using h.symm⟩
  · injection h with h; exact ⟨.bool _, .bool _, h.symm⟩
  · injection h with h; exact ⟨.char _, .char _, h.symm⟩
  · cases h

/-- A literal is read whatever follows it. -/
theorem complete_literal : Complete literal LiteralTokens LitAt fun _ => True := by
  intro around s ts next rest l hl hs _
  have hplant := fun (l : Lit) span =>
    planted_leaf (fun l : Lit => .literal l.sized) l s.store span rfl
  -- A literal of one token.
  have hsingle : ∀ {t : Token} {l : Lit}, s.values = t :: next :: rest → t ≠ .symbol .minus →
      t ≠ .eof → literalOf? false t = some l.sized → Reads literal around s [t] fun id s' =>
        Planted LitAt s.store s'.store l id := by
    intro t l hs hminus heof hof
    refine .node (.of_eq (isSymbol_bind_false hs hminus) ?_)
    rw [if_neg (by simp)]
    refine .of_eq current_bind ?_
    rw [State.current_of_values hs]
    simp only [hof]
    exact .advance hs (fun _ => .pure (hplant l)) heof
  cases hl with
  | int n => exact hsingle hs (by simp) (by simp) (by simp [literalOf?, Lit.sized])
  | bool b => exact hsingle hs (by simp) (by simp) rfl
  | char c => exact hsingle hs (by simp) (by simp) rfl
  | negative n =>
    refine .node (.of_eq (isSymbol_bind_true hs) (.advance hs fun hs₁ => ?_))
    refine .of_eq (bind_of_ok (expect_eq (State.kind_of_values hs₁))) (.of_eq current_bind ?_)
    rw [State.current_of_values hs₁]
    exact .advance hs₁ fun _ => .pure (hplant (.int (-n)))

theorem plants_literal : Plants literal LiteralTokens LitAt := by
  refine plants_node fun around s hs => ?_
  have hstart := Reached.refl hs
  have hplant := fun l : Lit => planted_leaf (fun l : Lit => .literal l.sized) l s.store
  refine ends_isSymbol (fun hcurrent => ?_) ?_
  · have hfirst := hstart.advance s.values_eq (by simp [hcurrent])
    rw [if_pos rfl, ends_of_eq advance_bind]
    refine hfirst.expect fun hkind => ?_
    obtain ⟨n, hn⟩ := Token.kind_eq_integer.mp hkind
    rw [ends_of_eq current_bind, hn]
    have hsecond := hfirst.advance s.advance.values_eq (by simp [hn])
    rw [hcurrent, hn] at hsecond
    exact ⟨_, hsecond, _, .negative n, fun span => hplant (.int (-n)) span rfl⟩
  · rw [if_neg (by simp), ends_of_eq current_bind]
    cases hof : literalOf? false s.cursor.current.value with
    | none =>
      simp only [hof]
      exact hstart.fail rfl
    | some c =>
      simp only [hof]
      obtain ⟨l, hl, rfl⟩ := literalOf?_eq_some hof
      have hread := hstart.advance s.values_eq fun heof => by simp [heof, literalOf?] at hof
      exact ⟨_, hread, l, hl, fun span => hplant l span rfl⟩

/-! ## Operands -/

/-- The tokens that may follow an expression: no operator and no opening parenthesis. -/
def EndsExpression (next : Token) : Prop :=
  operatorOf? next.kind = none ∧ next ≠ .symbol .openParen

theorem endsExpression_comma : EndsExpression (.symbol .comma) := ⟨rfl, by simp⟩

theorem endsExpression_closeParen : EndsExpression (.symbol .closeParen) := ⟨rfl, by simp⟩

theorem endsExpression_semicolon : EndsExpression (.symbol .semicolon) := ⟨rfl, by simp⟩

theorem Separated.length_le {Item : List Token → α → Prop} {as : List α}
    (h : Separated Item ts as) : as.length ≤ ts.length + 1 := by
  induction h with
  | last _ => simp
  | cons _ _ ih => simp; omega

section Lists

variable {rule : Parser NodeId} {Item : List Token → α → Prop} {At : Placing α}
  {Follow : Token → Prop}

/-- Items parted by commas are read up to the first that no comma follows. -/
theorem reads_commaList [Framed At] (h : Complete rule Item At Follow)
    (hcomma : Follow (.symbol .comma)) {as : List α} (has : Separated Item ts as)
    {n : Nat} (hn : as.length ≤ n) {before : List α} {items : List NodeId} {store : Store}
    (hbefore : PlantedList At store s.store before items) (hs : s.values = ts ++ next :: rest)
    (hnext : Follow next) (hstop : next ≠ .symbol .comma) :
    Reads (commaList rule n items) around s ts fun ids s' =>
      PlantedList At store s'.store (before ++ as) ids := by
  induction has generalizing n s before items with
  | last ha =>
    cases n with
    | zero => simp at hn
    | succ n =>
      exact .last (h around ha hs hnext) hs fun _ _ hplant hs₁ =>
        .unlessSymbol hs₁ hstop (.pure (hbefore.snoc hplant))
  | cons ha has ih =>
    cases n with
    | zero => simp at hn
    | succ n =>
      rw [List.append_assoc, List.cons_append] at hs
      refine .bind (h around ha hs hcomma) hs fun _ s₁ hplant hs₁ =>
        .ifSymbol hs₁ (.advance hs₁ fun hs₂ => ?_)
      simpa using ih (s := s₁.advance) (by simpa using hn) (hbefore.snoc hplant) hs₂

/-- A list that is read is written with commas. -/
theorem ends_commaList [Framed At] (h : Plants rule Item At) {n : Nat}
    (hn : s₁.values.length ≤ n) {before : List α} {items : List NodeId} {store : Store}
    (hreached : Reached s ts s₁) (hbefore : PlantedList At store s₁.store before items) :
    Ends (commaList rule n items) around s₁
      (fun ids s' => ∃ us, Reached s (ts ++ us) s' ∧ ∃ as, Separated Item us as ∧
        PlantedList At store s'.store (before ++ as) ids) (Spoilt s) := by
  induction n generalizing s₁ ts before items with
  | zero => exact absurd hn (by simp [State.values_eq])
  | succ n ih =>
    rw [commaList]
    refine hreached.bind (h around hreached.ended) ?_
    rintro id us s₂ ⟨a, ha, hplant⟩ hstep hread
    have hnew := hbefore.snoc hplant
    have hless := hstep.passes.length_le
    refine hread.ifSymbol (fun hnext hlength => ?_) ⟨us, hread, [a], .last ha, hnew⟩
    refine (ih (by omega) hnext hnew).imp ?_ fun _ hbad => hbad
    rintro ids s' ⟨vs, hvs, as, has, hids⟩
    exact ⟨us ++ .symbol .comma :: vs, by simpa using hvs, a :: as, .cons ha has,
      by simpa using hids⟩

end Lists

section Operands

variable {expression : Parser NodeId} {Nested : List Token → Expr → Prop}

/-- The arguments of a call are read up to the closing parenthesis. -/
theorem reads_commaSeparated (h : Complete expression Nested ExprAt EndsExpression)
    (hopen : ∀ {ts e}, Nested ts e → Opening ts) {es : List Expr} (hes : CallTokens Nested ts es)
    (hs : s.values = ts ++ .symbol .closeParen :: next :: rest) :
    Reads (commaSeparated .closeParen expression) around s (ts ++ [.symbol .closeParen])
      fun ids s' => PlantedList ExprAt s.store s'.store es ids := by
  cases hes with
  | none => exact .ifSymbol hs (.pure_bind (.symbol hs fun _ => .pure (.nil _)))
  | some hsep =>
    obtain ⟨t, us, rfl⟩ := (hsep.opening hopen).exists_cons
    have hfuel : es.length ≤ s.cursor.ahead.length + 1 := by
      rw [State.ahead_length, hs]
      have := hsep.length_le
      simp only [List.length_append, List.length_cons] at this ⊢
      omega
    refine .unlessSymbol hs ((hsep.opening hopen).head_ne_symbol rfl) (.of_eq tokensAhead_bind ?_)
    exact .bind (reads_commaList h endsExpression_comma hsep hfuel (.nil s.store) hs
      endsExpression_closeParen (by simp)) hs fun _ _ hplant hs₁ =>
        .symbol hs₁ fun _ => .pure hplant

theorem reads_call (h : Complete expression Nested ExprAt EndsExpression)
    (hopen : ∀ {ts e}, Nested ts e → Opening ts) {es : List Expr} (hes : CallTokens Nested ts es)
    {callee : Ident} (hs : s.values =
      .ident callee :: .symbol .openParen :: (ts ++ .symbol .closeParen :: next :: rest)) :
    Reads (call expression) around s
      (.ident callee :: .symbol .openParen :: (ts ++ [.symbol .closeParen])) fun id s' =>
        Planted ExprAt s.store s'.store (.call callee es) id :=
  .node (.ident hs fun hs₁ _ => .symbol hs₁ fun hs₂ =>
    .last (reads_commaSeparated h hopen hes hs₂) (by simpa using hs₂) fun _ _ hplant _ =>
      .pure (planted_call hplant callee))

/-- An operand is read; a name with a parenthesis behind it is a call. -/
theorem complete_primary (h : Complete expression Nested ExprAt EndsExpression)
    (hopen : ∀ {ts e}, Nested ts e → Opening ts) :
    Complete (primary expression) (PrimaryTokens Nested) ExprAt (· ≠ .symbol .openParen) := by
  intro around s ts next rest e he hs hnext
  cases he with
  | literal hl =>
    have hliteral : outcome (primary expression) around s = outcome literal around s := by
      cases hl <;> rw [primary, currentKind_bind, State.kind_of_values hs] <;> rfl
    refine .of_eq hliteral ((complete_literal around hl hs trivial).imp fun id s' hplant => ?_)
    have ⟨hlo, hhi, hhas⟩ := hplant.placed
    exact ⟨hplant.grown, .literal hlo hhi hhas⟩
  | reference name =>
    have hreference : outcome (primary expression) around s = outcome reference around s := by
      rw [primary, currentKind_bind, State.kind_of_values hs]
      change outcome (nextIsKind _ >>= _) around s = _
      rw [nextIsKind_bind, State.peek_of_values hs,
        decide_eq_false (mt Token.kind_eq_symbol.mp hnext), if_neg (by simp)]
    exact .of_eq hreference (.node (.ident hs fun _ _ => .pure (planted_reference s.store name)))
  | @call us es callee hes =>
    have hs' : s.values =
        .ident callee :: .symbol .openParen :: (us ++ .symbol .closeParen :: next :: rest) := by
      simpa using hs
    have hcall : outcome (primary expression) around s = outcome (call expression) around s := by
      rw [primary, currentKind_bind, State.kind_of_values hs']
      change outcome (nextIsKind _ >>= _) around s = _
      rw [nextIsKind_bind, State.peek_of_values hs', if_pos (by rfl)]
    exact .of_eq hcall (reads_call h hopen hes hs')
  | @paren us _ he =>
    have hs' : s.values = .symbol .openParen :: (us ++ .symbol .closeParen :: next :: rest) := by
      simpa using hs
    refine .of_eq (currentKind_bind.trans (by rw [State.kind_of_values hs'])) ?_
    exact .advance hs' fun hs₁ => .bind (h around he hs₁ endsExpression_closeParen) hs₁
      fun _ _ hplant hs₂ => .symbol hs₂ fun _ => .pure hplant

theorem ends_commaSeparated (h : Plants expression Nested ExprAt) (hreached : Reached s ts s₁) :
    Ends (commaSeparated .closeParen expression) around s₁
      (fun ids s' => ∃ us, Reached s (ts ++ (us ++ [.symbol .closeParen])) s' ∧
        ∃ es, CallTokens Nested us es ∧ PlantedList ExprAt s₁.store s'.store es ids)
      (Spoilt s) := by
  rw [commaSeparated]
  refine ends_isSymbol (fun _ => ?_) ?_
  · rw [if_pos rfl, ends_of_eq (bind_of_ok (outcome_pure _))]
    exact hreached.symbol fun _ hread => ⟨[], hread, [], .none, .nil _⟩
  · rw [if_neg (by simp), ends_of_eq tokensAhead_bind, ends_bind]
    refine (ends_commaList h (Nat.le_of_eq s₁.ahead_length.symm) hreached
      (.nil s₁.store)).imp ?_ fun _ hbad => hbad
    rintro ids s₂ ⟨us, hread, es, hes, hids⟩
    exact hread.symbol fun _ hread' => ⟨us, by simpa using hread', es, .some hes, hids⟩

theorem plants_call (h : Plants expression Nested ExprAt) :
    Plants (call expression) (PrimaryTokens Nested) ExprAt := by
  refine plants_node fun around s hs => ?_
  refine (Reached.refl hs).ident fun callee _ hcallee => ?_
  refine hcallee.symbol fun _ hparen => ?_
  rw [ends_bind]
  refine (ends_commaSeparated h hparen).imp ?_ fun _ hbad => hbad
  rintro ids s₁ ⟨us, hread, es, hes, hids⟩
  exact ⟨_, hread, _, .call callee hes, planted_call hids callee⟩

theorem plants_reference : Plants reference (PrimaryTokens Nested) ExprAt := by
  refine plants_node fun around s hs => ?_
  refine (Reached.refl hs).ident fun name _ hname => ?_
  exact ⟨_, hname, _, .reference name, planted_reference s.store name⟩

/-- What is read as an operand is one. -/
theorem plants_primary (h : Plants expression Nested ExprAt) :
    Plants (primary expression) (PrimaryTokens Nested) ExprAt := by
  have hliteral : Plants literal (PrimaryTokens Nested) ExprAt := by
    intro around s hs
    refine (plants_literal around hs).imp ?_ fun _ hbad => hbad
    rintro id s' ⟨ts, hread, l, hl, hplant⟩
    have ⟨hlo, hhi, hhas⟩ := hplant.placed
    exact ⟨ts, hread, _, .literal hl, hplant.grown, .literal hlo hhi hhas⟩
  intro around s hs
  have hstart := Reached.refl hs
  rw [primary, ends_of_eq currentKind_bind]
  split
  · exact hliteral around hs
  · exact hliteral around hs
  · exact hliteral around hs
  · exact hliteral around hs
  · rw [ends_of_eq (nextIsKind_bind _)]
    split
    · exact plants_call h around hs
    · exact plants_reference around hs
  case _ hkind =>
    have hcurrent := Token.kind_eq_symbol.mp hkind
    have hparen := hstart.advance s.values_eq (by simp [hcurrent])
    rw [hcurrent] at hparen
    rw [ends_of_eq advance_bind]
    refine hparen.bind (h around hparen.ended) ?_
    rintro id us s₂ ⟨e, he, hplant⟩ - hread
    refine hread.symbol fun _ hclose => ?_
    exact ⟨_, hclose, e, by simpa using PrimaryTokens.paren he, hplant⟩
  · exact hstart.fail rfl

end Operands

/-! ## Operators -/

section Operators

variable {operand : Parser NodeId} {Operand : List Token → Expr → Prop} {least n : Nat}
  {start : Position} {lhs : NodeId}

/-- The loop ends where no operator follows that binds tightly enough. -/
theorem operations_eq_of_stop
    (h : ∀ op, operatorOf? s.cursor.kind = some op → op.precedence < least) :
    outcome (operations operand n least start lhs) around s = .ok lhs s := by
  cases n with
  | zero => rfl
  | succ n =>
    rw [operations, currentKind_bind]
    cases hop : operatorOf? s.cursor.kind with
    | none => rfl
    | some op =>
      simp only [if_pos (h op hop)]
      rfl

/-- The loop takes in an operator that binds tightly enough, with its right operand. -/
theorem operations_succ_eq {first rhs : NodeId} {op : Operator}
    (hs : s.values = .symbol op.symbol :: us) (hop : least ≤ op.precedence)
    (hfirst : outcome operand around s.advance = .ok first s₁)
    (hrhs : outcome (operations operand n op.operandPrecedence
      s.advance.cursor.current.span.start first) around s₁ = .ok rhs s₂) :
    outcome (operations operand (n + 1) least start lhs) around s =
      outcome (operations operand n least start s₂.store.fresh) around
        (s₂.withStore (s₂.store.build (.binary ⟨op, lhs, rhs⟩)
          (some ⟨start, s₂.cursor.lastSpan.stop⟩)).2) := by
  rw [operations, currentKind_bind, operatorOf?_eq_some_iff.mpr (State.kind_of_values hs)]
  simp only [if_neg (Nat.not_lt.mpr hop)]
  rw [advance_bind, current_bind, bind_of_ok hfirst, bind_of_ok hrhs, lastSpan_bind, build_bind]

/-- Behind the first operand of a derivation the loop comes to stand behind all of it,
with the whole in hand, if the next operator leaves the last operand alone. -/
theorem operations_of_level
    (h : Complete operand Operand ExprAt (· ≠ .symbol .openParen)) {bound : Nat} {e : Expr}
    (he : LevelTokens Operand bound ts e) (hle : least ≤ bound)
    (hs : s.values = ts ++ next :: rest) (hparen : next ≠ .symbol .openParen)
    (hnext : ∀ op, operatorOf? next.kind = some op → ∀ inner : Operator,
      bound ≤ inner.precedence → op.precedence < inner.operandPrecedence) (start : Position) :
    ∃ first s₁ id s', outcome operand around s = .ok first s₁ ∧
      s₁.values.length ≤ s.values.length ∧ Passes s ts s' ∧
      Planted ExprAt s.store s'.store e id ∧
      ∀ n, s₁.values.length ≤ n → ∃ n', s'.values.length ≤ n' ∧
        outcome (operations operand n least start first) around s₁ =
          outcome (operations operand n' least start id) around s' := by
  induction he generalizing s least next rest start with
  | operand hop =>
    obtain ⟨id, s₁, hrun, hpass, hplant⟩ := h around hop hs hparen
    have hlength := hpass.length_le
    exact ⟨id, s₁, id, s₁, hrun, by omega, hpass, hplant, fun n hn => ⟨n, hn, rfl⟩⟩
  | @binary bound ts us op l r hbound _ _ ihl ihr =>
    rw [List.append_assoc, List.cons_append] at hs
    -- The left operand stops before the operator itself.
    have hopnext : ∀ op', operatorOf? (Token.symbol op.symbol).kind = some op' →
        ∀ inner : Operator, op.leftPrecedence ≤ inner.precedence →
          op'.precedence < inner.operandPrecedence := by
      intro op' hop' inner hinner
      have hself : operatorOf? (Token.symbol op.symbol).kind = some op :=
        operatorOf?_eq_some_iff.mpr rfl
      obtain rfl := Option.some.inj (hself.symm.trans hop')
      exact (op.leftPrecedence_le_iff inner).mp hinner
    have hleft := Nat.le_trans (Nat.le_trans hle hbound) op.precedence_le_leftPrecedence
    obtain ⟨first, s₁, lhs, s₂, hfirst, hless, hpassl, hplantl, hloopl⟩ :=
      ihl hleft hs (by cases op <;> simp [Operator.symbol]) hopnext start
    have hs₂ := hpassl.values_right hs
    have hs₃ := values_advance hs₂
    have hpassop := passes_advance hs₂
    -- The right operand stops before what the whole stops before.
    have hrightnext : ∀ op', operatorOf? next.kind = some op' →
        op'.precedence < op.operandPrecedence := fun op' hop' => hnext op' hop' op hbound
    obtain ⟨first', s₃, rhs, s₄, hfirst', hless', hpassr, hplantr, hloopr⟩ :=
      ihr (Nat.le_refl _) hs₃ hparen (fun op' hop' inner hinner => Nat.lt_of_lt_of_le
        (hrightnext op' hop') (Nat.le_trans hinner inner.precedence_le_operandPrecedence))
        s₂.advance.cursor.current.span.start
    have hs₄ := hpassr.values_right hs₃
    have hpass := hpassl.trans (hpassop.trans hpassr)
    refine ⟨first, s₁, s₄.store.fresh, _, hfirst, hless, hpass.withStore _,
      planted_binary hplantl hplantr op ⟨start, s₄.cursor.lastSpan.stop⟩, fun n hn => ?_⟩
    obtain ⟨n₁, hn₁, hstepl⟩ := hloopl n hn
    have hlengthop := hpassop.length_le
    have hlengthr := hpassr.length_le
    cases n₁ with
    | zero => simp [hs₂] at hn₁
    | succ m =>
      obtain ⟨n₂, -, hstepr⟩ := hloopr m (by simp at hlengthop; omega)
      have hrhs := hstepr.trans (operations_eq_of_stop fun op' hop' =>
        hrightnext op' (State.kind_of_values hs₄ ▸ hop'))
      refine ⟨m, ?_, hstepl.trans (operations_succ_eq hs₂ (Nat.le_trans hle hbound) hfirst' hrhs)⟩
      simp at hlengthop ⊢
      omega

/-- Operands joined by operators are read as the tree that precedence and associativity
give. -/
theorem complete_operands (h : Complete operand Operand ExprAt (· ≠ .symbol .openParen)) :
    Complete (operands operand) (LevelTokens Operand 0) ExprAt EndsExpression := by
  intro around s ts next rest e he hs hnext
  obtain ⟨first, s₁, id, s', hfirst, -, hpass, hplant, hloop⟩ := operations_of_level h he
    (Nat.le_refl _) hs hnext.2 (by simp [hnext.1]) s.cursor.current.span.start
  have hs' := hpass.values_right hs
  obtain ⟨n', -, hrun⟩ := hloop (s₁.cursor.ahead.length + 1) (Nat.le_of_eq s₁.ahead_length.symm)
  refine ⟨id, s', ?_, hpass, hplant⟩
  rw [operands, current_bind, bind_of_ok hfirst, tokensAhead_bind, hrun]
  exact operations_eq_of_stop fun op hop => by
    rw [State.kind_of_values hs', hnext.1] at hop
    exact absurd hop (by simp)

/-- The loop plants what it has read, and no operator is left that it should have taken in. -/
theorem plants_operations (h : Plants operand Operand ExprAt) {e : Expr}
    (hn : s₁.values.length ≤ n) (hreached : Reached s ts s₁)
    (hlhs : Planted ExprAt s.store s₁.store e lhs) (he : LevelTokens Operand least ts e)
    (hleft : ∀ op, operatorOf? s₁.cursor.kind = some op → least ≤ op.precedence →
      LevelTokens Operand op.leftPrecedence ts e) :
    Ends (operations operand n least start lhs) around s₁
      (fun id s' => ∃ us, Reached s us s' ∧
        (∃ e, LevelTokens Operand least us e ∧ Planted ExprAt s.store s'.store e id) ∧
        ∀ op, operatorOf? s'.cursor.kind = some op → op.precedence < least) (Spoilt s) := by
  induction n generalizing s s₁ ts e least start lhs with
  | zero => exact absurd hn (by simp [State.values_eq])
  | succ n ih =>
    rw [operations, ends_of_eq currentKind_bind]
    cases hop : operatorOf? s₁.cursor.kind with
    | none => exact ⟨ts, hreached, ⟨e, he, hlhs⟩, by simp [hop]⟩
    | some op =>
      by_cases hlt : op.precedence < least
      · simp only [if_pos hlt]
        refine ⟨ts, hreached, ⟨e, he, hlhs⟩, fun op' hop' => ?_⟩
        obtain rfl := Option.some.inj (hop.symm.trans hop')
        exact hlt
      · have hcurrent := Token.kind_eq_symbol.mp (operatorOf?_eq_some_iff.mp hop)
        have hpassop := hreached.advance s₁.values_eq (by simp [hcurrent])
        rw [hcurrent] at hpassop
        have hshorter := (passes_advance s₁.values_eq (by simp [hcurrent])
          (hreached.ended.tail_ne_nil s₁.values_eq (by simp [hcurrent]))).length_le
        simp only [if_neg hlt]
        rw [ends_of_eq advance_bind, ends_of_eq current_bind]
        refine hpassop.bind (h around hpassop.ended) ?_
        rintro first us s₂ ⟨r, hr, hfirst⟩ hstep -
        have hlength := hstep.passes.length_le
        rw [ends_bind]
        -- The right operand is read from behind the operator on.
        have hoperand : LevelTokens Operand op.operandPrecedence us r := .operand hr
        refine (ih (by simp at hshorter; omega) hstep hfirst hoperand
          fun _ _ _ => .operand hr).imp ?_ fun _ hbad => hpassop.spoilt hbad
        rintro rhs s₃ ⟨vs, hrhs, ⟨r, hr, hplant⟩, hstop⟩
        have hlength' := hrhs.passes.length_le
        rw [ends_of_eq lastSpan_bind, ends_of_eq (build_bind _ _)]
        have hbinary : ∀ {bound : Nat}, bound ≤ op.precedence →
            LevelTokens Operand bound (ts ++ [.symbol op.symbol] ++ vs) (.binary op e r) := by
          intro bound hbound
          rw [List.append_assoc]
          exact .binary hbound (hleft op hop (Nat.le_of_not_lt hlt)) hr
        have hwhole := hpassop.trans hrhs
        have hplanted := planted_binary hlhs hplant op ⟨start, s₃.cursor.lastSpan.stop⟩
        refine ih ?_ ⟨hwhole.passes.withStore _, hplanted.grown, hwhole.ended⟩ hplanted
          (hbinary (Nat.le_of_not_lt hlt)) ?_
        · simp only [State.values_withStore]
          simp at hshorter
          omega
        · exact fun op' hop' _ => hbinary ((op'.leftPrecedence_le_iff op).mpr (hstop op' hop'))

/-- Operands joined by operators are planted as precedence tells, up to where no operator is. -/
theorem ends_operands (h : Plants operand Operand ExprAt) (hs : s.Ended) :
    Ends (operands operand) around s
      (fun id s' => ∃ us, Reached s us s' ∧
        (∃ e, LevelTokens Operand 0 us e ∧ Planted ExprAt s.store s'.store e id) ∧
        operatorOf? s'.cursor.kind = none) (Spoilt s) := by
  rw [operands, ends_of_eq current_bind]
  refine (Reached.refl hs).bind (h around hs) ?_
  rintro first us s₁ ⟨e, he, hplant⟩ hstep -
  rw [ends_of_eq tokensAhead_bind]
  refine (plants_operations h (Nat.le_of_eq s₁.ahead_length.symm) hstep hplant (.operand he)
    fun _ _ _ => .operand he).imp ?_ fun _ hbad => hbad
  rintro id s' ⟨vs, hread, hlevel, hstop⟩
  refine ⟨vs, hread, hlevel, Option.eq_none_iff_forall_ne_some.mpr fun op hop => ?_⟩
  exact Nat.not_lt_zero _ (hstop op hop)

end Operators

/-! ## Expressions -/

/-- Whatever is written as an expression that fits into the room is read as that
expression. -/
theorem complete_expression (room : Nat) :
    Complete (expression room) (ExpressionTokens room) ExprAt EndsExpression := by
  induction room with
  | zero => exact fun _ _ _ _ _ _ he => he.elim
  | succ room ih => exact complete_operands (complete_primary ih ExpressionTokens.opening)

/-- Whatever is read as an expression is written as one, and planted whatever follows it. -/
theorem plants_expression (room : Nat) :
    Plants (expression room) (ExpressionTokens room) ExprAt := by
  induction room with
  | zero => exact fun _ _ hs => (Reached.refl hs).fail rfl
  | succ room ih =>
    intro around s hs
    refine (ends_operands (plants_primary ih) hs).imp ?_ fun _ hbad => hbad
    rintro id s' ⟨us, hread, hlevel, -⟩
    exact ⟨us, hread, hlevel⟩

end FrontEnd.Grammar
