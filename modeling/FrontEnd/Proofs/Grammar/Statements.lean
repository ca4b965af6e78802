import FrontEnd.Proofs.Grammar.Expressions

/-!
# Reading statements and blocks

The productions for statements and blocks read exactly what the grammar of statements
allows, and plant it.  The loop over the statements of a block needs them planted: whether a
variable is declared twice is decided by the block's node in the store.

## Main statements

* `complete_statement`, `plants_statement`.
* `complete_block`, `plants_block`.
-/

namespace FrontEnd.Grammar

open Phrase Store

variable {α β : Type} {s s' s₁ s₂ : State} {t next : Token} {ts us rest : List Token}
  {around : Option Position}

/-! ## Types -/

/-- A type is read whatever follows it. -/
theorem complete_typeRef :
    Complete typeRef (fun ts (type : TypeName) => ts = [type.token]) TypeAt fun _ => True := by
  intro around s ts next rest type hts hs _
  subst hts
  have hof : typeOf? type.token = some type.ref := typeOf?_eq_some_iff.mpr ⟨type, rfl, rfl⟩
  have heof : type.token ≠ .eof := by cases type <;> simp [TypeName.token]
  refine .node (.of_eq current_bind ?_)
  rw [State.current_of_values hs]
  simp only [hof]
  exact .advance hs (fun _ => .pure fun span =>
    planted_leaf (fun type : TypeName => .typeRef type.ref) type s.store span rfl) heof

theorem plants_typeRef : Plants typeRef (fun ts (type : TypeName) => ts = [type.token]) TypeAt := by
  refine plants_node fun around s hs => ?_
  have hstart := Reached.refl hs
  rw [Furnishes, ends_of_eq current_bind]
  cases hof : typeOf? s.cursor.current.value with
  | none =>
    simp only [hof]
    exact hstart.fail rfl
  | some ref =>
    simp only [hof]
    obtain ⟨type, htoken, rfl⟩ := typeOf?_eq_some_iff.mp hof
    have hread := hstart.advance s.values_eq (by rw [htoken]; cases type <;> simp [TypeName.token])
    exact ⟨_, hread, type, by rw [htoken]; rfl, fun span =>
      planted_leaf (fun type : TypeName => .typeRef type.ref) type s.store span rfl⟩

/-! ## Single statements -/

section Single

variable {expression : Parser NodeId} {Expression : List Token → Expr → Prop}

variable {value : Expr}

/-- A variable declaration behind its type. -/
def variableTail (expression : Parser NodeId) (type : Option NodeId) : Parser Construct := do
  let name ← ident
  symbol .assign
  let value ← expression
  symbol .semicolon
  return .varDecl ⟨name.value, type, value⟩

theorem reads_variableDecl (h : Complete expression Expression ExprAt EndsExpression)
    {name : Ident} {type : Option TypeName} (hvalue : Expression ts value)
    (hs : s.values = declarator type :: .ident name :: .symbol .assign ::
      (ts ++ .symbol .semicolon :: next :: rest)) :
    Reads (variableDecl expression) around s (declarator type :: .ident name :: .symbol .assign ::
        (ts ++ [.symbol .semicolon])) fun id s' =>
      Planted StmtAt s.store s'.store (.varDecl name type value) id := by
  have htail : ∀ {s₁ : State} {t : Option NodeId},
      PlantedList TypeAt s.store s₁.store type.toList t.toList →
      s₁.values = .ident name :: .symbol .assign :: (ts ++ .symbol .semicolon :: next :: rest) →
      Reads (variableTail expression t) (some s.cursor.current.span.start) s₁
        (.ident name :: .symbol .assign :: (ts ++ [.symbol .semicolon])) fun c s' => ∀ span,
          Planted StmtAt s.store (s'.store.build c (some span)).2 (.varDecl name type value)
            s'.store.fresh := by
    intro s₁ t ht hs₁
    refine .ident hs₁ fun hs₂ _ => .symbol hs₂ fun hs₃ => ?_
    exact .bind (h _ hvalue hs₃ endsExpression_semicolon) hs₃ fun _ _ hplant hs₄ =>
      .symbol hs₄ fun _ => .pure (planted_varDecl ht hplant name)
  have hkind := State.kind_of_values hs
  cases type with
  | none =>
    exact .node (.of_eq (isKind_bind_true hkind)
      (.advance hs (htail (.nil s.store)) (by simp [declarator])))
  | some type =>
    have hlet : s.cursor.kind ≠ .keyword .binding := by
      rw [hkind]
      cases type <;> simp [declarator, TypeName.token, Token.kind]
    have hs' : s.values = [type.token] ++ .ident name :: .symbol .assign ::
        (ts ++ .symbol .semicolon :: next :: rest) := hs
    exact .node (.of_eq (isKind_bind_false hlet) (.bind (complete_typeRef _ rfl hs' trivial) hs'
      fun _ _ hplant => htail (.single hplant)))

theorem reads_returnStatement_none
    (hs : s.values = .keyword .ret :: .symbol .semicolon :: next :: rest) :
    Reads (returnStatement expression) around s [.keyword .ret, .symbol .semicolon] fun id s' =>
      Planted StmtAt s.store s'.store (.ret none) id :=
  .node (.keyword hs fun hs₁ => .ifSymbol hs₁ (.pure_bind (.symbol hs₁ fun _ =>
    .pure (@planted_ret _ _ none none (.nil s.store)))))

theorem reads_returnStatement_some (h : Complete expression Expression ExprAt EndsExpression)
    (hopen : ∀ {ts e}, Expression ts e → Opening ts) (hvalue : Expression ts value)
    (hs : s.values = .keyword .ret :: (ts ++ .symbol .semicolon :: next :: rest)) :
    Reads (returnStatement expression) around s (.keyword .ret :: (ts ++ [.symbol .semicolon]))
      fun id s' => Planted StmtAt s.store s'.store (.ret (some value)) id := by
  refine .node (.keyword hs fun hs₁ => ?_)
  -- A value does not begin with the semicolon that stands for its absence.
  obtain ⟨t, us, rfl⟩ := (hopen hvalue).exists_cons
  refine .unlessSymbol hs₁ ((hopen hvalue).head_ne_symbol rfl) ?_
  exact .bind (h _ hvalue hs₁ endsExpression_semicolon) hs₁ fun v _ hplant hs₂ =>
    .pure_bind (.symbol hs₂ fun _ => .pure (@planted_ret _ _ (some value) (some v) (.single hplant)))

theorem reads_expressionStatement (h : Complete expression Expression ExprAt EndsExpression)
    (hvalue : Expression ts value) (hs : s.values = ts ++ .symbol .semicolon :: next :: rest) :
    Reads (expressionStatement expression) around s (ts ++ [.symbol .semicolon]) fun id s' =>
      Planted StmtAt s.store s'.store (.exprStatement value) id :=
  .node (.bind (h _ hvalue hs endsExpression_semicolon) hs fun _ _ hplant hs₁ =>
    .symbol hs₁ fun _ => .pure (planted_exprStatement hplant))

variable {block : Parser NodeId} {Block : List Token → List Stmt → Prop}

/-- A block at its node. -/
abbrev BlockAt : Placing (List Stmt) := fun s lo hi p body id => StmtAt s lo hi p (.block body) id

/-- What begins as an expression is read as an expression statement. -/
theorem statement_eq_of_opening (h : Opening ts)
    (hs : s.values = ts ++ .symbol .semicolon :: rest) :
    outcome (statement block expression) around s =
      outcome (expressionStatement expression) around s := by
  have hopen : Opening s.values := hs ▸ h.append (by simp)
  rw [statement, currentKind_bind]
  generalize hvalues : s.values = vs at hopen
  cases hopen with
  | @name name us hus =>
    rw [State.kind_of_values hvalues]
    change outcome (nextIsKind _ >>= _) around s = _
    have hne : us ≠ [] := by
      rintro rfl
      rw [hs] at hvalues
      cases h <;> simp at hvalues
    obtain ⟨u, us, rfl⟩ := List.exists_cons_of_ne_nil hne
    have hu : u.kind ≠ .ident := by
      intro hkind
      obtain ⟨other, rfl⟩ := Token.kind_eq_ident.mp hkind
      exact hus other rfl
    rw [nextIsKind_bind, State.peek_of_values hvalues, decide_eq_false hu, if_neg (by simp)]
  | @other t us hstart hident =>
    rw [State.kind_of_values hvalues]
    cases t with
    | ident _ => exact absurd rfl hident
    | keyword word => cases word <;> first | rfl | cases hstart
    | symbol sign => cases sign <;> first | rfl | cases hstart
    | eof => cases hstart
    | _ => rfl

/-- A statement is read whatever follows it. -/
theorem complete_statement (hblock : Complete block Block BlockAt fun _ => True)
    (hcurly : ∀ {ts body}, Block ts body → ∃ us, ts = .symbol .openCurly :: us)
    (h : Complete expression Expression ExprAt EndsExpression)
    (hopen : ∀ {ts e}, Expression ts e → Opening ts) :
    Complete (statement block expression) (StatementTokens Block Expression) StmtAt
      fun _ => True := by
  intro around s ts next rest st hst hs _
  cases hst with
  | block hbody =>
    obtain ⟨us, rfl⟩ := hcurly hbody
    refine .of_eq (currentKind_bind.trans (by rw [State.kind_of_values hs])) ?_
    exact (hblock around hbody hs trivial).imp fun _ _ hplant => ⟨hplant.grown, hplant.placed⟩
  | @varDecl us value name type hvalue =>
    have hs' : s.values = declarator type :: .ident name :: .symbol .assign ::
        (us ++ .symbol .semicolon :: next :: rest) := by
      simpa using hs
    have hdispatch : outcome (statement block expression) around s =
        outcome (variableDecl expression) around s := by
      rw [statement, currentKind_bind, State.kind_of_values hs']
      cases type with
      | none => rfl
      | some type =>
        cases type with
        | prim _ => rfl
        | named _ =>
          change outcome (nextIsKind _ >>= _) around s = _
          rw [nextIsKind_bind, State.peek_of_values hs', if_pos (by rfl)]
    exact .of_eq hdispatch (reads_variableDecl h hvalue hs')
  | retNone =>
    refine .of_eq (currentKind_bind.trans (by rw [State.kind_of_values hs])) ?_
    exact reads_returnStatement_none hs
  | @ret us value hvalue =>
    have hs' : s.values = .keyword .ret :: (us ++ .symbol .semicolon :: next :: rest) := by
      simpa using hs
    refine .of_eq (currentKind_bind.trans (by rw [State.kind_of_values hs'])) ?_
    exact reads_returnStatement_some h hopen hvalue hs'
  | @exprStatement us value hvalue =>
    have hs' : s.values = us ++ .symbol .semicolon :: next :: rest := by simpa using hs
    exact .of_eq (statement_eq_of_opening (hopen hvalue) hs') (reads_expressionStatement h hvalue hs')

/-! ## Soundness of single statements -/

theorem plants_variableDecl (h : Plants expression Expression ExprAt) :
    Plants (variableDecl expression) (StatementTokens Block Expression) StmtAt := by
  refine plants_node fun around s hs => ?_
  have hstart := Reached.refl hs
  -- What follows the type is the same with a type and without.
  have htail : ∀ (type : Option TypeName) {t : Option NodeId} {s₁ : State},
      Reached s [declarator type] s₁ → PlantedList TypeAt s.store s₁.store type.toList t.toList →
      Furnishes (variableTail expression t) around s s₁ (StatementTokens Block Expression)
        StmtAt := by
    intro type t s₁ hread ht
    refine hread.ident fun name _ hname => hname.symbol fun _ hassign => ?_
    refine hassign.bind (h around hassign.ended) ?_
    rintro v us s₂ ⟨value, hval, hplant⟩ - hvalue
    exact hvalue.symbol fun _ hend => ⟨_, hend, _, by simpa using .varDecl name type hval,
      planted_varDecl ht hplant name⟩
  by_cases hlet : s.cursor.kind = .keyword .binding
  · have hcurrent := Token.kind_eq_keyword.mp hlet
    have hread := hstart.advance s.values_eq (by simp [hcurrent])
    rw [hcurrent] at hread
    rw [Furnishes, ends_of_eq (isKind_bind_true hlet), if_pos rfl, ends_of_eq advance_bind]
    exact htail none hread (.nil s.store)
  · rw [Furnishes, ends_of_eq (isKind_bind_false hlet), if_neg (by simp)]
    refine hstart.bind (plants_typeRef around hs) ?_
    rintro t us s₁ ⟨type, rfl, hplant⟩ - hread
    exact htail (some type) hread (.single hplant)

theorem plants_returnStatement (h : Plants expression Expression ExprAt) :
    Plants (returnStatement expression) (StatementTokens Block Expression) StmtAt := by
  refine plants_node fun around s hs => (Reached.refl hs).keyword fun hret => ?_
  refine ends_isSymbol (fun _ => ?_) ?_
  · exact hret.symbol fun _ hend => ⟨_, hend, _, .retNone,
      @planted_ret _ _ none none (.nil s.store)⟩
  · rw [if_neg (by simp)]
    refine hret.bind (h around hret.ended) ?_
    rintro v us s₂ ⟨value, hval, hplant⟩ - hvalue
    exact hvalue.symbol fun _ hend => ⟨_, hend, _, by simpa using .ret hval,
      @planted_ret _ _ (some value) (some v) (.single hplant)⟩

theorem plants_expressionStatement (h : Plants expression Expression ExprAt) :
    Plants (expressionStatement expression) (StatementTokens Block Expression) StmtAt := by
  refine plants_node fun around s hs => (Reached.refl hs).bind (h around hs) ?_
  rintro v us s₁ ⟨value, hval, hplant⟩ - hvalue
  exact hvalue.symbol fun _ hend => ⟨_, hend, _, .exprStatement hval, planted_exprStatement hplant⟩

/-- What is read as a statement is written as one. -/
theorem plants_statement (hblock : Plants block Block BlockAt)
    (h : Plants expression Expression ExprAt) :
    Plants (statement block expression) (StatementTokens Block Expression) StmtAt := by
  intro around s hs
  rw [statement, ends_of_eq currentKind_bind]
  split
  · refine (hblock around hs).imp ?_ fun _ hbad => hbad
    rintro id s' ⟨ts, hread, body, hbody, hplant⟩
    exact ⟨ts, hread, .block body, .block hbody, hplant.grown, hplant.placed⟩
  · exact plants_returnStatement h around hs
  · exact plants_variableDecl h around hs
  · exact plants_variableDecl h around hs
  · rw [ends_of_eq (nextIsKind_bind _)]
    split
    · exact plants_variableDecl h around hs
    · exact plants_expressionStatement h around hs
  · exact plants_expressionStatement h around hs

end Single

/-! ## Blocks -/

section Blocks

variable {rule : Parser NodeId} {Item : List Token → Stmt → Prop} {store : Store}
  {before body : List Stmt} {ids : List NodeId} {block : NodeId}

theorem append_bind {f : Unit → Parser β} {id : NodeId}
    (h : s.store.redeclared? block id = none) :
    outcome (append block id >>= f) around s =
      outcome (f ()) around (s.withStore (s.store.extend block id)) := by
  refine bind_of_ok ?_
  rw [append, get_bind]
  simp only [h]
  rfl

/-- Appending a statement fails only on a variable that is declared again. -/
theorem Reached.append {f : Unit → Parser β} {fine : β → State → Prop} {id : NodeId}
    (h : Reached s ts s₁)
    (hf : s₁.store.redeclared? block id = none →
      Ends (f ()) around (s₁.withStore (s₁.store.extend block id)) fine (Spoilt s)) :
    Ends (Grammar.append block id >>= f) around s₁ fine (Spoilt s) := by
  cases hre : s₁.store.redeclared? block id with
  | none =>
    rw [ends_of_eq (append_bind hre)]
    exact hf hre
  | some found =>
    rw [ends_bind, Grammar.append, ends_of_eq get_bind]
    simp only [hre]
    cases (s₁.store.get? id).bind Node.span with
    | some span => exact spoilt_record h rfl span
    | none => cases around <;> exact spoilt_record h rfl _

/-- Statements are read up to the closing brace. -/
theorem reads_statements (h : Complete rule Item StmtAt fun _ => True)
    (hitem : ∀ {ts a}, Item ts a → ∃ t us, ts = t :: us ∧ t ≠ .symbol .closeCurly)
    (hbody : Sequence Item ts body) {n : Nat} (hn : body.length ≤ n)
    (hopen : OpenBlock store s.store before ids block)
    (hdistinct : DistinctNames (declaredNames (before ++ body)))
    (hs : s.values = ts ++ .symbol .closeCurly :: rest) :
    Reads (statements rule block n) around s ts fun _ s' => ∃ ids,
      OpenBlock store s'.store (before ++ body) ids block := by
  induction hbody generalizing n s before ids with
  | nil =>
    have hdone : ∃ ids, OpenBlock store s.store (before ++ []) ids block :=
      ⟨ids, by simpa using hopen⟩
    cases n with
    | zero => exact .pure hdone
    | succ n => exact .ifSymbol hs (.pure hdone)
  | @cons us vs st body hst _ ih =>
    cases n with
    | zero => simp at hn
    | succ n =>
      have hsplit : before ++ st :: body = before ++ [st] ++ body := by simp
      rw [hsplit] at hdistinct ⊢
      rw [List.append_assoc] at hs
      obtain ⟨t, us', rfl, hclose⟩ := hitem hst
      obtain ⟨next, rest', hnext⟩ : ∃ next rest',
          vs ++ .symbol .closeCurly :: rest = next :: rest' :=
        List.exists_cons_of_ne_nil (by simp)
      refine .unlessSymbol hs hclose (.bind (h around hst (hnext ▸ hs) trivial) hs
        fun id s₁ hplant hs₁ => ?_)
      have hfresh : s₁.store.redeclared? block id = none :=
        (hopen.redeclared?_eq_none_iff hplant).mpr
          (distinctNames_declaredNames_snoc.mp
            (declaredNames_append (before ++ [st]) body ▸ hdistinct).of_append_left).2
      exact .of_store (append_bind hfresh)
        (ih (by simpa using hn) (hopen.append hplant) hdistinct hs₁)

/-- What the loop over statements has read is a sequence of statements, and the block in
the store holds them. -/
theorem ends_statements (h : Plants rule Item StmtAt)
    (hitem : ∀ {ts a}, Item ts a → ∃ t us, ts = t :: us ∧ t ≠ .symbol .closeCurly)
    {n : Nat} (hn : s₁.values.length ≤ n) (hread : Reached s (t :: ts) s₁)
    (hopen : OpenBlock s.store s₁.store before ids block) (hbefore : Sequence Item ts before)
    (hdistinct : DistinctNames (declaredNames before)) :
    Ends (statements rule block n) around s₁
      (fun _ s' => ∃ us body ids, Reached s (t :: us) s' ∧ Sequence Item us body ∧
        DistinctNames (declaredNames body) ∧ OpenBlock s.store s'.store body ids block)
      (Spoilt s) := by
  induction n generalizing s₁ ts before ids with
  | zero => exact absurd hn (by simp [State.values_eq])
  | succ n ih =>
    rw [statements]
    refine ends_isSymbol (fun _ => ?_) ?_
    · exact ⟨ts, before, ids, hread, hbefore, hdistinct, hopen⟩
    · rw [if_neg (by simp)]
      refine hread.bind (h around hread.ended) ?_
      rintro id us s₂ ⟨st, hst, hplant⟩ hstep hread'
      refine hread'.append fun hfresh => ?_
      have hnew := (hopen.redeclared?_eq_none_iff hplant).mp hfresh
      have hopen' := hopen.append hplant
      have hlength := hstep.passes.length_le
      obtain ⟨u, us', rfl, -⟩ := hitem hst
      refine ih ?_ ⟨hread'.passes.withStore _, hopen'.grown, hread'.ended⟩ hopen' ?_ ?_
      · simp at hlength ⊢
        omega
      · simpa using hbefore.append (.cons hst .nil)
      · exact distinctNames_declaredNames_snoc.mpr ⟨hdistinct, hnew⟩

/-- Statements in braces are read whatever follows them. -/
theorem complete_braces (h : Complete rule Item StmtAt fun _ => True)
    (hitem : ∀ {ts a}, Item ts a → ∃ t us, ts = t :: us ∧ t ≠ .symbol .closeCurly) :
    Complete (braces rule) (BraceTokens Item) BlockAt fun _ => True := by
  intro around s ts next rest body hbody hs _
  cases hbody with
  | @mk us _ hbody hdistinct =>
    have hs' : s.values = .symbol .openCurly :: (us ++ .symbol .closeCurly :: next :: rest) := by
      simpa using hs
    have hinner : Reads (do
        symbol .openCurly
        let block ← build .emptyBlock none
        statements rule block ((← tokensAhead) + 1)
        symbol .closeCurly
        return block) (some s.cursor.current.span.start) s
        (.symbol .openCurly :: (us ++ [.symbol .closeCurly])) fun block s' => ∃ ids,
          OpenBlock s.store s'.store body ids block := by
      refine .symbol hs' fun hs₁ => .of_store (build_bind _ _) (.of_eq tokensAhead_bind ?_)
      have hfuel : body.length ≤ s.advance.cursor.ahead.length + 1 := by
        have hle := hbody.length_le fun ha => by obtain ⟨t, us, rfl, -⟩ := hitem ha; simp
        rw [State.ahead_length, hs₁, List.length_append]
        omega
      exact .bind (reads_statements h hitem hbody hfuel (.empty s.store) (by simpa using hdistinct)
        hs₁) hs₁ fun _ _ hopen hs₂ => .symbol hs₂ fun _ => .pure (by simpa using hopen)
    obtain ⟨block, s', hrun, hpass, ids, hopen⟩ := hinner
    have hplant := hopen.close ⟨s.cursor.current.span.start, s'.cursor.lastSpan.stop⟩
    refine ⟨block, _, ?_, hpass.withStore _, hplant.grown, hplant.placed⟩
    rw [braces, bind_of_ok (mapped_of_ok hrun)]
    rfl

theorem plants_braces (h : Plants rule Item StmtAt)
    (hitem : ∀ {ts a}, Item ts a → ∃ t us, ts = t :: us ∧ t ≠ .symbol .closeCurly) :
    Plants (braces rule) (BraceTokens Item) BlockAt := by
  intro around s hs
  rw [braces, ends_bind, ends_mapped]
  refine (Reached.refl hs).symbol fun _ hcurly => ?_
  rw [ends_of_eq (build_bind _ _), ends_of_eq tokensAhead_bind, ends_bind]
  have hopen := OpenBlock.empty s.store
  have hread : Reached s [.symbol .openCurly]
      (s.advance.withStore (s.store.build .emptyBlock none).2) :=
    ⟨hcurly.passes.withStore _, hopen.grown, hcurly.ended⟩
  refine (ends_statements h hitem (Nat.le_of_eq (State.ahead_length _).symm) hread
    hopen .nil (by simp [declaredNames])).imp ?_ fun _ hbad => hbad
  rintro _ s₁ ⟨us, body, ids, hread', hbody, hdistinct, hopen'⟩
  refine hread'.symbol fun _ hclose => ?_
  have hplant := hopen'.close ⟨s.cursor.current.span.start, s₁.advance.cursor.lastSpan.stop⟩
  exact ⟨_, ⟨hclose.passes.withStore _, hplant.grown, hclose.ended⟩, body, .mk hbody hdistinct,
    hplant.grown, hplant.placed⟩

end Blocks

/-- Whatever is written as a block that fits into the room is read as that block. -/
theorem complete_block (room : Nat) :
    Complete (block room) (BlockTokens room) BlockAt fun _ => True := by
  induction room with
  | zero => exact fun _ _ _ _ _ _ hbody => hbody.elim
  | succ room ih =>
    exact complete_braces (complete_statement ih BlockTokens.exists_cons (complete_expression room)
      ExpressionTokens.opening) StatementTokens.exists_cons

/-- Whatever is read as a block is written as one. -/
theorem plants_block (room : Nat) : Plants (block room) (BlockTokens room) BlockAt := by
  induction room with
  | zero => exact fun _ _ hs => (Reached.refl hs).fail rfl
  | succ room ih =>
    exact plants_braces (plants_statement ih (plants_expression room)) StatementTokens.exists_cons

end FrontEnd.Grammar
