import FrontEnd.Proofs.Grammar.Braces

/-!
# Productions with like parts

Many productions take the productions for their parts.  A relation between the outcomes of two
parts, as that one of them may give up earlier, is inherited by the productions that take them.
What the relation has to provide for this is the same for all productions, so it is said once here.
With the relation that says nothing it follows that productions pass braces in pairs.

## Main definitions

* `Likeness Like`: the relation `Like` goes through sequences of productions.
* `Resembles Like p q`: the outcomes of `p` and `q` are related from every state.

## Main statements

* `resembles_primary`, `resembles_operations`, `resembles_statement`, `resembles_braces`:
  productions resemble each other if their parts do.
* `balanced_declaration`: declarations pass braces in pairs.
-/

namespace FrontEnd

namespace Grammar

open Phrase

variable {α β : Type} {s s' s₁ s₂ : State} {around : Option Position} {i j k : Nat}

/-! ## Relations of outcomes -/

/-- A relation between the outcomes of two productions from a state, which goes through sequences.
The second production of each two is the one that is known to keep braces balanced. -/
structure Likeness (Like : ∀ {α : Type}, State → EStateM.Result Marker State α →
    EStateM.Result Marker State α → Prop) : Prop where
  refl {α : Type} (s : State) (result : EStateM.Result Marker State α) : Like s result result
  of_sinks {α : Type} {s s₁ : State} {k : Nat} {result result' : EStateM.Result Marker State α} :
    Sinks s k s₁ → Like s₁ result result' → Like s result result'
  bind {α β : Type} {p q : Parser α} {f g : α → Parser β} {around : Option Position} {s : State} :
    s.Ended → Balanced q → Like s (outcome p around s) (outcome q around s) →
    (∀ a s₁, Sinks s 0 s₁ → Like s₁ (outcome (f a) around s₁) (outcome (g a) around s₁)) →
    (∀ a s₁ b s₂, s₁.Ended → outcome (g a) around s₁ = .ok b s₂ →
      s₂.values.length ≤ s₁.values.length) →
    Like s (outcome (p >>= f) around s) (outcome (q >>= g) around s)

/-- The outcomes of two productions are related from every state on a token of a kind, and the
second one leaves as many braces open as there were. -/
structure ResemblesAt (Like : ∀ {α : Type}, State → EStateM.Result Marker State α →
    EStateM.Result Marker State α → Prop) (kind : TokenKind) (p q : Parser α) : Prop where
  like : ∀ around s, s.cursor.kind = kind → s.Ended →
    Like s (outcome p around s) (outcome q around s)
  nests : ∀ i, NestsAt kind i i q

/-- The outcomes of two productions are related from every state, and the second one leaves as many
braces open as there were. -/
structure Resembles (Like : ∀ {α : Type}, State → EStateM.Result Marker State α →
    EStateM.Result Marker State α → Prop) (p q : Parser α) : Prop where
  like : ∀ around s, s.Ended → Like s (outcome p around s) (outcome q around s)
  balanced : Balanced q

section Productions

variable {α : Type} (like : Likeness Like) {kind : TokenKind}

theorem Resembles.at {p q : Parser α} (h : Resembles Like p q) : ResemblesAt Like kind p q :=
  ⟨fun around s _ hs => h.like around s hs, fun i => (h.balanced i).at⟩

/-- A look at the current token. -/
theorem Resembles.current {f g : Located Token → Parser β}
    (h : ∀ token, Resembles Like (f token) (g token)) :
    Resembles Like (current >>= f) (current >>= g) where
  like around s hs := (h s.cursor.current).like around s hs
  balanced i := nests_current fun token => ((h token).balanced i).at

theorem Resembles.currentKind {f g : TokenKind → Parser β}
    (h : ∀ kind, ResemblesAt Like kind (f kind) (g kind)) :
    Resembles Like (currentKind >>= f) (currentKind >>= g) where
  like around s hs := (h s.cursor.kind).like around s rfl hs
  balanced i := nests_currentKind fun kind => (h kind).nests i

theorem Resembles.isKind {f g : Bool → Parser β} (htrue : ResemblesAt Like kind (f true) (g true))
    (hfalse : Resembles Like (f false) (g false)) :
    Resembles Like (isKind kind >>= f) (isKind kind >>= g) where
  like around s hs := by
    by_cases hkind : s.cursor.kind = kind
    · rw [isKind_bind_true hkind, isKind_bind_true hkind]
      exact htrue.like around s hkind hs
    · rw [isKind_bind_false hkind, isKind_bind_false hkind]
      exact hfalse.like around s hs
  balanced i := nests_isKind (htrue.nests i) (hfalse.balanced i)

theorem ResemblesAt.nextIsKind {next : TokenKind} {f g : Bool → Parser β}
    (h : ∀ b, ResemblesAt Like kind (f b) (g b)) :
    ResemblesAt Like kind (nextIsKind next >>= f) (nextIsKind next >>= g) where
  like around s hk hs := (h _).like around s hk hs
  nests i := nestsAt_nextIsKind fun b => (h b).nests i

include like

namespace Resembles

variable {p q : Parser α} {f g : α → Parser β}

theorem refl (h : Balanced p) : Resembles Like p p := ⟨fun _ s _ => like.refl s _, h⟩

theorem bind (hpq : Resembles Like p q) (h : ∀ a, Resembles Like (f a) (g a)) :
    Resembles Like (p >>= f) (q >>= g) where
  like around s hs := like.bind hs hpq.balanced (hpq.like around s hs)
    (fun a s₁ hsinks => (h a).like around s₁ hsinks.ended)
    fun a _ _ _ hs₁ hrun => ((h a).balanced.shrinks hs₁ hrun).2
  balanced := hpq.balanced.bind fun a => (h a).balanced

/-- The parts that differ come last. -/
theorem after {x : Parser α} (hx : Balanced x) (h : ∀ a, Resembles Like (f a) (g a)) :
    Resembles Like (x >>= f) (x >>= g) :=
  bind like (refl like hx) h

/-- The parts that differ come first. -/
theorem before (hpq : Resembles Like p q) (hg : ∀ a, Balanced (g a)) :
    Resembles Like (p >>= g) (q >>= g) :=
  bind like hpq fun a => refl like (hg a)

theorem mapped (h : Resembles Like p q) : Resembles Like (mapped p) (mapped q) := by
  refine .current fun token => before like ?_ fun _ =>
    balanced_lastSpan.bind fun _ => balanced_pure _
  exact ⟨fun _ s hs => h.like _ s hs, fun i _ s₀ s hs => h.balanced i _ s₀ s hs⟩

theorem node {p q : Parser Construct} (h : Resembles Like p q) :
    Resembles Like (node p) (node q) :=
  (h.mapped like).before like fun _ => balanced_build _ _

end Resembles

/-- Passing a token that is known not to be a brace. -/
theorem ResemblesAt.advance {f g : PUnit → Parser β} (hkind : kind.isBrace = false)
    (h : Resembles Like (f ⟨⟩) (g ⟨⟩)) : ResemblesAt Like kind (advance >>= f) (advance >>= g) where
  like around s hk hs := by
    subst hk
    have hsinks := (Sinks.refl hs).advance (Token.bracesAfter?_of_not_isBrace hkind 0)
    exact like.of_sinks hsinks (h.like around s.advance hsinks.ended)
  nests i := nestsAt_advance hkind (h.balanced i)

/-! ## Expressions -/

section Expressions

variable {p q : Parser NodeId} (h : Resembles Like p q)
include h

theorem resembles_commaList (n : Nat) (items : List NodeId) :
    Resembles Like (commaList p n items) (commaList q n items) := by
  induction n generalizing items with
  | zero => exact .refl like (balanced_pure items)
  | succ n ih =>
    refine h.bind like fun item => .isKind ?_ (.refl like (balanced_pure _))
    exact .advance like rfl (ih (items ++ [item]))

theorem resembles_commaSeparated {close : Symbol}
    (hclose : (TokenKind.symbol close).isBrace = false) :
    Resembles Like (commaSeparated close p) (commaSeparated close q) := by
  refine .isKind (Resembles.at (.refl like ?_)) (.after like balanced_tokensAhead fun n =>
    (resembles_commaList like h (n + 1) []).before like fun items => ?_)
  all_goals exact (balanced_symbol hclose).bind fun _ => balanced_pure _

theorem resembles_call : Resembles Like (call p) (call q) := by
  refine .node like (.after like balanced_ident fun name => ?_)
  refine .after like (balanced_symbol rfl) fun _ => ?_
  exact (resembles_commaSeparated like h rfl).before like fun _ => balanced_pure _

theorem resembles_primary : Resembles Like (primary p) (primary q) := by
  have hliteral : Resembles Like literal literal := .refl like balanced_literal
  refine .currentKind fun kind => ?_
  split
  · exact hliteral.at
  · exact hliteral.at
  · exact hliteral.at
  · exact hliteral.at
  · refine .nextIsKind fun opened => ?_
    split
    · exact (resembles_call like h).at
    · exact Resembles.at (.refl like (balanced_node (balanced_ident.bind fun _ => balanced_pure _)))
  · exact .advance like rfl (h.before like fun _ =>
      (balanced_symbol rfl).bind fun _ => balanced_pure _)
  · exact Resembles.at (.refl like fun _ => nests_fail _)

theorem resembles_operations (n least : Nat) (start : Position) (lhs : NodeId) :
    Resembles Like (operations p n least start lhs) (operations q n least start lhs) := by
  have hpure : Resembles Like (pure lhs) (pure lhs) := .refl like (balanced_pure lhs)
  induction n generalizing least start lhs with
  | zero => exact hpure
  | succ n ih =>
    refine .currentKind fun kind => ?_
    split
    · exact hpure.at
    next op hop =>
      split
      · exact hpure.at
      · refine .advance like (operatorOf?_isBrace hop) (.current fun token => ?_)
        refine h.bind like fun first => (ih _ _ first (.refl like (balanced_pure first))).bind like
          fun rhs => ?_
        refine .after like balanced_lastSpan fun _ => ?_
        exact .after like (balanced_build _ _) fun whole => ih _ _ whole (.refl like
          (balanced_pure whole))

theorem resembles_operands : Resembles Like (operands p) (operands q) := by
  refine .current fun token => h.bind like fun first => ?_
  exact .after like balanced_tokensAhead fun n => resembles_operations like h _ _ _ first

end Expressions

/-! ## Statements -/

section Statements

variable {p q : Parser NodeId} (h : Resembles Like p q)
include h

theorem resembles_variableDecl : Resembles Like (variableDecl p) (variableDecl q) := by
  refine .node like (.isKind (.advance like rfl ?_) (.after like balanced_typeRef fun type => ?_))
  all_goals
    refine .after like (balanced_pure _) fun type => .after like balanced_ident fun name => ?_
    refine .after like (balanced_symbol rfl) fun _ => h.before like fun _ => ?_
    exact (balanced_symbol rfl).bind fun _ => balanced_pure _

theorem resembles_returnStatement : Resembles Like (returnStatement p) (returnStatement q) := by
  refine .node like (.after like (balanced_keyword _) fun _ =>
    .isKind (Resembles.at (.refl like ?_)) (h.before like fun value => ?_))
  all_goals exact (balanced_symbol rfl).bind fun _ => balanced_pure _

theorem resembles_expressionStatement :
    Resembles Like (expressionStatement p) (expressionStatement q) :=
  .node like (h.before like fun _ => (balanced_symbol rfl).bind fun _ => balanced_pure _)

theorem resembles_statement {block block' : Parser NodeId} (hblock : Resembles Like block block') :
    Resembles Like (statement block p) (statement block' q) := by
  have hdecl := resembles_variableDecl like h
  have hexpr := resembles_expressionStatement like h
  refine .currentKind fun kind => ?_
  split
  · exact hblock.at
  · exact (resembles_returnStatement like h).at
  · exact hdecl.at
  · exact hdecl.at
  · refine .nextIsKind fun typed => ?_
    split
    · exact hdecl.at
    · exact hexpr.at
  · exact hexpr.at

theorem resembles_statements (block : NodeId) (n : Nat) :
    Resembles Like (statements p block n) (statements q block n) := by
  have hdone : Resembles Like (pure () : Parser Unit) (pure ()) := .refl like (balanced_pure ())
  induction n with
  | zero => exact hdone
  | succ n ih =>
    refine .isKind hdone.at (h.bind like fun statement => ?_)
    exact .after like (balanced_append block statement) fun _ => ih

end Statements

/-- Braces and the statements in them, without a span yet. -/
def bracedBlock (rule : Parser NodeId) : Parser NodeId := do
  symbol .openCurly
  let block ← build .emptyBlock none
  statements rule block ((← tokensAhead) + 1)
  symbol .closeCurly
  return block

omit like in
/-- The statements behind an opening brace are read with the node of the block built. -/
theorem bracedBlock_eq (hs : s.Ended)
    (hopen : s.cursor.kind = .symbol .openCurly) :
    ∃ block n s₁, Sinks s 1 s₁ ∧ ∀ rule, outcome (bracedBlock rule) around s =
      outcome (do statements rule block n; symbol .closeCurly; return block) around s₁ := by
  have hcurrent : s.cursor.current.value = .symbol .openCurly := Token.kind_eq_symbol.mp hopen
  have hvalues := s.values_eq
  rw [hcurrent] at hvalues
  let s₁ := s.advance.withStore (s.advance.store.build .emptyBlock none).2
  refine ⟨s.advance.store.fresh, s₁.cursor.ahead.length + 1, s₁, ?_, fun rule => ?_⟩
  · exact ((Sinks.refl hs).advance (by rw [hcurrent]; rfl)).of_eq rfl rfl
  · rw [bracedBlock, symbol_bind hvalues, build_bind, tokensAhead_bind]

omit like in
/-- Without an opening brace no statement is read. -/
theorem bracedBlock_eq_of_ne (p q : Parser NodeId) (hopen : s.cursor.kind ≠ .symbol .openCurly) :
    outcome (bracedBlock p) around s = outcome (bracedBlock q) around s := by
  obtain ⟨span, hfail⟩ := outcome_expect around hopen
  rw [bracedBlock, bracedBlock, symbol, skipOver, bind_assoc, bind_of_error hfail, bind_assoc,
    bind_of_error hfail]

/-- Statements in braces. -/
theorem resembles_braces {p q : Parser NodeId} (h : Resembles Like p q) :
    Resembles Like (braces p) (braces q) := by
  have hinner : Resembles Like (bracedBlock p) (bracedBlock q) := by
    refine ⟨fun around s hs => ?_, fun i => ?_⟩
    · by_cases hopen : s.cursor.kind = .symbol .openCurly
      · obtain ⟨block, n, s₁, hsinks, hrun⟩ := bracedBlock_eq hs hopen
        rw [hrun, hrun]
        have hstatements := resembles_statements like h block n
        refine like.of_sinks hsinks (like.bind hsinks.ended hstatements.balanced
          (hstatements.like around s₁ hsinks.ended) (fun _ s₂ _ => like.refl s₂ _)
          fun _ s₂ id s₃ hs₂ hclosed => ?_)
        -- The closing brace is one token less.
        obtain ⟨hclose, hpure⟩ := skipOver_bind_eq_ok hclosed
        cases hpure
        have hlength := length_values_advance hs₂ (by simp [Cursor.hasNext, hclose])
        omega
      · rw [bracedBlock_eq_of_ne p q hopen]
        exact like.refl s _
    · -- The braces around the statements are a pair.
      refine nests_openCurly.bind fun _ => (balanced_build _ _ (i + 1)).bind fun block => ?_
      refine (balanced_tokensAhead (i + 1)).bind fun n => ?_
      exact ((resembles_statements like h block (n + 1)).balanced (i + 1)).bind fun _ =>
        nests_closeCurly.bind fun _ => balanced_pure block i
  exact (hinner.mapped like).before like fun _ => (balanced_setSpan _ _).bind fun _ =>
    balanced_pure _

end Productions

/-! ## Braces in pairs -/

section Pairs

variable {p q : Parser NodeId}

theorem likeness_true : Likeness fun _ _ _ => True :=
  ⟨fun _ _ => trivial, fun _ _ => trivial, fun _ _ _ _ _ => trivial⟩

theorem Balanced.resembles (h : Balanced p) : Resembles (fun _ _ _ => True) p p :=
  ⟨fun _ _ _ => trivial, h⟩

theorem balanced_primary (h : Balanced p) : Balanced (primary p) :=
  (resembles_primary likeness_true h.resembles).balanced

theorem balanced_operations (h : Balanced p) (n least : Nat) (start : Position) (lhs : NodeId) :
    Balanced (operations p n least start lhs) :=
  (resembles_operations likeness_true h.resembles n least start lhs).balanced

theorem balanced_expression (room : Nat) : Balanced (expression room) := by
  induction room with
  | zero => exact fun _ => nests_fail _
  | succ room ih =>
    exact (resembles_operands likeness_true (balanced_primary ih).resembles).balanced

theorem balanced_statement (hp : Balanced p) (hq : Balanced q) : Balanced (statement q p) :=
  (resembles_statement likeness_true hp.resembles hq.resembles).balanced

theorem balanced_block (room : Nat) : Balanced (block room) := by
  induction room with
  | zero => exact fun _ => nests_fail _
  | succ room ih =>
    have hstatement := balanced_statement (balanced_expression room) ih
    exact (resembles_braces likeness_true hstatement.resembles).balanced

end Pairs

/-! ## Declarations -/

theorem balanced_argumentList (function : Ident) (n : Nat) (scope : Scope) :
    Balanced (argumentList function n scope) := by
  induction n generalizing scope with
  | zero => exact balanced_pure _
  | succ n ih =>
    refine balanced_isSymbol (fun i => nestsAt_advance rfl (balanced_pure _ i)) ?_
    refine balanced_typeRef.bind fun type => balanced_ident.bind fun name => ?_
    split
    · exact fun _ => nests_failAt _ _
    · exact balanced_isSymbol (fun i => nestsAt_advance rfl (ih _ i)) (balanced_pure _)

theorem balanced_arguments (function : Ident) : Balanced (arguments function) := by
  refine balanced_node ((balanced_symbol rfl).bind fun _ => balanced_isSymbol
    (fun i => Nests.at (Balanced.bind (balanced_symbol rfl) (fun _ => balanced_pure _) i)) ?_)
  exact balanced_tokensAhead.bind fun n => (balanced_argumentList function (n + 1) .empty).bind
    fun _ => (balanced_symbol rfl).bind fun _ => balanced_pure _

theorem balanced_returnType : Balanced returnType :=
  balanced_isSymbol (fun i => nestsAt_advance rfl (balanced_typeRef i))
    (balanced_lastSpan.bind fun _ => balanced_build _ _)

theorem balanced_prototype : Balanced prototype :=
  balanced_declaring (balanced_ident.bind fun name => (balanced_arguments name.value).bind
    fun _ => balanced_returnType.bind fun _ => balanced_pure _)

theorem balanced_function (room : Nat) (attributes : List NodeId) :
    Balanced (function room attributes) :=
  balanced_declaring ((balanced_keyword _).bind fun _ => balanced_prototype.bind fun _ =>
    (balanced_block room).bind fun _ => balanced_pure _)

theorem balanced_external (attributes : List NodeId) : Balanced (external attributes) :=
  balanced_declaring ((balanced_keyword _).bind fun _ => (balanced_keyword _).bind fun _ =>
    balanced_prototype.bind fun _ => (balanced_symbol rfl).bind fun _ => balanced_pure _)

theorem balanced_global : Balanced global := by
  refine balanced_declaring ((balanced_keyword _).bind fun _ => balanced_typeRef.bind fun type =>
    balanced_ident.bind fun name => balanced_isSymbol
      (fun i => nestsAt_advance rfl (balanced_literal.bind (fun value => ?_) i)) ?_)
  all_goals exact (balanced_symbol rfl).bind fun _ => balanced_pure _

theorem balanced_fields (owner : Ident) (n : Nat) (scope : Scope) :
    Balanced (fields owner n scope) := by
  induction n generalizing scope with
  | zero => exact balanced_pure _
  | succ n ih =>
    refine balanced_isSymbol (fun i => (balanced_pure _ i).at) ?_
    refine balanced_typeRef.bind fun type => balanced_ident.bind fun name =>
      (balanced_symbol rfl).bind fun _ => ?_
    split
    · exact fun _ => nests_failAt _ _
    · exact ih _

/-- The braces of a struct are a pair. -/
theorem balanced_struct : Balanced struct := by
  refine balanced_declaring ((balanced_keyword _).bind fun _ =>
    balanced_ident.bind fun name i => ?_)
  refine nests_openCurly.bind fun _ => (balanced_tokensAhead (i + 1)).bind fun n => ?_
  exact (balanced_fields name.value (n + 1) .empty (i + 1)).bind fun _ => nests_closeCurly.bind
    fun _ => balanced_pure _ i

theorem balanced_attributes (n : Nat) (read : List NodeId) : Balanced (attributes n read) := by
  induction n generalizing read with
  | zero => exact balanced_pure _
  | succ n ih =>
    refine balanced_isSymbol (fun i => Nests.at ?_) (balanced_pure _)
    have hone : Balanced (node do symbol .atSign; return .attr (← ident).value) :=
      balanced_node ((balanced_symbol rfl).bind fun _ => balanced_ident.bind fun _ =>
        balanced_pure _)
    exact (hone i).bind fun one => ih _ i

/-- Declarations pass braces in pairs. -/
theorem balanced_declaration (room : Nat) : Balanced (declaration room) := by
  refine balanced_tokensAhead.bind fun n => (balanced_attributes (n + 1) []).bind
    fun attributes i => nests_currentKind fun found => Nests.at ?_
  split
  · exact balanced_function room attributes i
  · exact balanced_external attributes i
  · split
    · exact nests_fail _
    · split
      · exact balanced_global i
      · exact balanced_struct i
      · exact nests_fail _

end Grammar

end FrontEnd
