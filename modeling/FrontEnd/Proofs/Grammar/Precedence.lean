import FrontEnd.Proofs.Grammar.Forms
import FrontEnd.Proofs.Grammar.Statements
import FrontEnd.Proofs.Phrase.Uniqueness

/-!
# Precedence and associativity

The grammar of expressions in four strata: comparisons of sums of products of powers, where all but
powers group from the left.  Each stratum names its operators; no number says how tightly they bind.
The loop over operators, which goes by such numbers, builds the tree that this grammar derives from
the tokens it passes, and it stops behind the first operand that no operator follows.

That nothing else is derived from these tokens is seen by running the loop: it is a function, and it
is complete.

## Main definitions

* `Comparisons`, `Sums`, `Products`, `Powers`: the strata over a kind of operands.
* `Derives`: the stratified grammar.
* `Alternates`: operands with operators between them, however they group.
* `Reading`: the leaves and operators of a tree in order.

## Main statements

* `levelTokens_iff`: the strata, and levels by precedence.
* `expression_stratified`: what the parser makes of the tokens that it passes.
-/

namespace FrontEnd

/-- Whether a token is a parenthesis. -/
def Token.isParen : Token → Bool
  | .symbol .openParen | .symbol .closeParen => true
  | _ => false

/-- The operators of each stratum, with their precedences. -/
theorem Operator.stratum_cases (op : Operator) :
    (op ∈ [.less, .greater] ∧ op.leftPrecedence = 10 ∧ op.precedence = 10 ∧
      op.operandPrecedence = 11) ∨
    (op ∈ [.add, .sub] ∧ op.leftPrecedence = 20 ∧ op.precedence = 20 ∧
      op.operandPrecedence = 21) ∨
    (op ∈ [.mul, .div, .mod] ∧ op.leftPrecedence = 30 ∧ op.precedence = 30 ∧
      op.operandPrecedence = 31) ∨
    op = .pow ∧ op.leftPrecedence = 41 ∧ op.precedence = 40 ∧ op.operandPrecedence = 40 := by
  cases op <;> decide

namespace Grammar

open Phrase Store

/-! ## Strata -/

/-- Operands joined by some operators, the leftmost first. -/
inductive LeftJoined (ops : List Operator) (Tighter : List Token → Expr → Prop) :
    List Token → Expr → Prop
  | one {ts e} : Tighter ts e → LeftJoined ops Tighter ts e
  | more {ts us op l r} : op ∈ ops → LeftJoined ops Tighter ts l → Tighter us r →
      LeftJoined ops Tighter (ts ++ .symbol op.symbol :: us) (.binary op l r)

/-- Operands joined by some operators, the rightmost first. -/
inductive RightJoined (ops : List Operator) (Tighter : List Token → Expr → Prop) :
    List Token → Expr → Prop
  | one {ts e} : Tighter ts e → RightJoined ops Tighter ts e
  | more {ts us op l r} : op ∈ ops → Tighter ts l → RightJoined ops Tighter us r →
      RightJoined ops Tighter (ts ++ .symbol op.symbol :: us) (.binary op l r)

section Strata

variable (Operand : List Token → Expr → Prop)

/-- Powers of operands. -/
def Powers : List Token → Expr → Prop := RightJoined [.pow] Operand

/-- Products of powers. -/
def Products : List Token → Expr → Prop := LeftJoined [.mul, .div, .mod] (Powers Operand)

/-- Sums of products. -/
def Sums : List Token → Expr → Prop := LeftJoined [.add, .sub] (Products Operand)

/-- Comparisons of sums. -/
def Comparisons : List Token → Expr → Prop := LeftJoined [.less, .greater] (Sums Operand)

end Strata

/-- The stratified grammar, with room for `room` levels of parentheses and arguments. -/
def StratifiedTokens : Nat → List Token → Expr → Prop
  | 0 => fun _ _ => False
  | room + 1 => Comparisons (PrimaryTokens (StratifiedTokens room))

/-- The stratified grammar derives an expression from tokens. -/
def Derives (ts : List Token) (e : Expr) : Prop := ∃ room, StratifiedTokens room ts e

/-! ## Operands, leaves and operators in order -/

/-- Operands with operators between them, however they group. -/
inductive Alternates (Operand : List Token → Expr → Prop) :
    List Token → List Expr → List Operator → Prop
  | last {ts e} : Operand ts e → Alternates Operand ts [e] []
  | cons {ts us e es op ops} : Operand ts e → Alternates Operand us es ops →
      Alternates Operand (ts ++ .symbol op.symbol :: us) (e :: es) (op :: ops)

/-- The tokens of the leaves and operators of a tree, in order; those of a call are its callee and
its arguments. -/
inductive Reading : Expr → List Token → Prop
  | literal {l ts} : LiteralTokens ts l → Reading (.literal l) ts
  | reference (name : Ident) : Reading (.reference name) [.ident name]
  | call {arguments parts} (callee : Ident) : List.Forall₂ Reading arguments parts →
      Reading (.call callee arguments) (.ident callee :: separated parts)
  | binary {l r ts us} (op : Operator) : Reading l ts → Reading r us →
      Reading (.binary op l r) (ts ++ .symbol op.symbol :: us)

/-- The tokens without parentheses. -/
def unparenthesised (ts : List Token) : List Token := ts.filter fun t => !t.isParen

variable {room least : Nat} {ts us : List Token} {e : Expr} {s s' s₁ : State}
  {around : Option Position}

/-! ## Strata and levels -/

section Levels

variable {Operand : List Token → Expr → Prop}

/-- What is written at a level is in the stratum of that level, which holds all tighter ones. -/
theorem LevelTokens.stratum (h : LevelTokens Operand least ts e) :
    Comparisons Operand ts e ∧ (10 < least → Sums Operand ts e) ∧
      (20 < least → Products Operand ts e) ∧ (30 < least → Powers Operand ts e) ∧
      (40 < least → Operand ts e) := by
  induction h with
  | operand hop =>
    have hpower : Powers Operand _ _ := .one hop
    exact ⟨.one (.one (.one hpower)), fun _ => .one (.one hpower), fun _ => .one hpower,
      fun _ => hpower, fun _ => hop⟩
  | @binary least ts us op l r hleast _ _ ihl ihr =>
    obtain ⟨hl, hl₁, hl₂, -, hl₄⟩ := ihl
    obtain ⟨-, hr₁, hr₂, hr₃, -⟩ := ihr
    rcases op.stratum_cases with ⟨hop, hleft, hown, hright⟩ | ⟨hop, hleft, hown, hright⟩ |
      ⟨hop, hleft, hown, hright⟩ | ⟨rfl, -⟩
    · exact ⟨.more hop hl (hr₁ (by omega)), by omega, by omega, by omega, by omega⟩
    · have hsum : Sums Operand _ _ := .more hop (hl₁ (by omega)) (hr₂ (by omega))
      exact ⟨.one hsum, fun _ => hsum, by omega, by omega, by omega⟩
    · have hproduct : Products Operand _ _ := .more hop (hl₂ (by omega)) (hr₃ (by omega))
      exact ⟨.one (.one hproduct), fun _ => .one hproduct, fun _ => hproduct, by omega, by omega⟩
    · have hpower : Powers Operand _ _ :=
        .more (List.mem_singleton_self _) (hl₄ (by decide)) (hr₃ (by decide))
      change least ≤ 40 at hleast
      exact ⟨.one (.one (.one hpower)), fun _ => .one (.one hpower), fun _ => .one hpower,
        fun _ => hpower, by omega⟩

/-- A stratum that groups from the left is a level. -/
theorem LeftJoined.levelTokens {ops : List Operator} {Tighter : List Token → Expr → Prop}
    (h : LeftJoined ops Tighter ts e)
    (hops : ∀ op ∈ ops, op.leftPrecedence = least ∧ op.precedence = least ∧
      op.operandPrecedence = least + 1)
    (htighter : ∀ {ts e}, Tighter ts e → LevelTokens Operand (least + 1) ts e) :
    LevelTokens Operand least ts e := by
  induction h with
  | one h => exact (htighter h).mono (Nat.le_succ least)
  | more hop _ hr ih =>
    obtain ⟨hleft, hown, hright⟩ := hops _ hop
    exact .binary (Nat.le_of_eq hown.symm) (hleft ▸ ih) (hright ▸ htighter hr)

theorem Powers.levelTokens (h : Powers Operand ts e) : LevelTokens Operand 40 ts e := by
  induction h with
  | one h => exact .operand h
  | more hop hl _ ih =>
    obtain rfl := List.mem_singleton.mp hop
    exact .binary (Nat.le_refl _) (.operand hl) ih

/-- The loosest stratum is the loosest level. -/
theorem levelTokens_iff : LevelTokens Operand 0 ts e ↔ Comparisons Operand ts e := by
  refine ⟨fun h => h.stratum.1, fun h => ?_⟩
  have hproduct : ∀ {ts e}, Products Operand ts e → LevelTokens Operand 30 ts e := fun h =>
    h.levelTokens (by decide) fun h => h.levelTokens.mono (by decide)
  have hsum : ∀ {ts e}, Sums Operand ts e → LevelTokens Operand 20 ts e := fun h =>
    h.levelTokens (by decide) fun h => (hproduct h).mono (by decide)
  have hcomparison : LevelTokens Operand 10 ts e :=
    h.levelTokens (by decide) fun h => (hsum h).mono (by decide)
  exact hcomparison.mono (by decide)

end Levels

theorem stratifiedTokens_eq (room : Nat) : StratifiedTokens room = ExpressionTokens room := by
  induction room with
  | zero => rfl
  | succ room ih =>
    funext ts e
    rw [StratifiedTokens, ExpressionTokens, ih]
    exact propext levelTokens_iff.symm

/-- What the stratified grammar derives is what is grouped by precedence and associativity. -/
theorem derives_iff : Derives ts e ↔ ∃ f : Form, f.tokens = ts ∧ f.expr = e ∧ f.Grouped := by
  constructor
  · rintro ⟨room, h⟩
    rw [stratifiedTokens_eq] at h
    obtain ⟨f, ⟨hgrouped, -⟩, htokens, hexpr⟩ := expressionTokens_iff.mp h
    exact ⟨f, htokens, hexpr, hgrouped⟩
  · rintro ⟨f, htokens, hexpr, hgrouped⟩
    refine ⟨f.depth + 1, ?_⟩
    rw [stratifiedTokens_eq]
    exact expressionTokens_iff.mpr ⟨f, ⟨hgrouped, Nat.lt_succ_self _⟩, htokens, hexpr⟩

/-- The stratified grammar is not ambiguous. -/
theorem Derives.unique {e' : Expr} (h : Derives ts e) (h' : Derives ts e') : e = e' := by
  obtain ⟨room, h⟩ := h
  obtain ⟨room', h'⟩ := h'
  rw [stratifiedTokens_eq] at h h'
  obtain ⟨t, us, rfl⟩ := h.opening.exists_cons
  -- Both trees are what the parser makes of the tokens, with a semicolon behind them.
  let s : State := .start ⟨[], ⟨t, default⟩, (us ++ [Token.symbol .semicolon]).map (⟨·, default⟩)⟩
    .empty #[]
  have hs : s.values = (t :: us) ++ .symbol .semicolon :: [] := by
    simp [s, State.values, State.upcoming, State.start, Function.comp_def]
  obtain ⟨id, s₁, hrun, -, hplant⟩ := complete_expression (max room room') none
    (h.mono (Nat.le_max_left _ _)) hs endsExpression_semicolon
  obtain ⟨id', s₂, hrun', -, hplant'⟩ := complete_expression (max room room') none
    (h'.mono (Nat.le_max_right _ _)) hs endsExpression_semicolon
  obtain ⟨rfl, rfl⟩ : id = id' ∧ s₁ = s₂ := by simpa [hrun] using hrun'
  exact hplant.placed.unique hplant'.placed

/-! ## Reading a tree back -/

theorem Alternates.append {Operand : List Token → Expr → Prop} {es es' : List Expr}
    {ops ops' : List Operator} (h : Alternates Operand ts es ops)
    (h' : Alternates Operand us es' ops') (op : Operator) :
    Alternates Operand (ts ++ .symbol op.symbol :: us) (es ++ es') (ops ++ op :: ops') := by
  induction h with
  | last hoperand => exact .cons hoperand h'
  | cons hoperand _ ih =>
    rw [List.append_assoc, List.cons_append]
    exact .cons hoperand ih

/-- What is written at a level is operands with operators between them. -/
theorem LevelTokens.alternates {Operand Operand' : List Token → Expr → Prop}
    (h : LevelTokens Operand least ts e) (himp : ∀ {ts e}, Operand ts e → Operand' ts e) :
    ∃ es ops, Alternates Operand' ts es ops := by
  induction h with
  | operand hoperand => exact ⟨_, _, .last (himp hoperand)⟩
  | binary _ _ _ ihl ihr =>
    obtain ⟨es, ops, hl⟩ := ihl
    obtain ⟨es', ops', hr⟩ := ihr
    exact ⟨_, _, hl.append hr _⟩

/-- What is derived is operands with operators between them. -/
theorem Derives.alternates (h : Derives ts e) :
    ∃ es ops, Alternates (PrimaryTokens Derives) ts es ops := by
  obtain ⟨room, h⟩ := h
  cases room with
  | zero => exact h.elim
  | succ room => exact (levelTokens_iff.mpr h).alternates fun hop => hop.imp fun h => ⟨room, h⟩

theorem unparenthesised_append (ts us : List Token) :
    unparenthesised (ts ++ us) = unparenthesised ts ++ unparenthesised us :=
  List.filter_append ts us

theorem unparenthesised_inParens (ts : List Token) :
    unparenthesised (inParens ts) = unparenthesised ts := by
  simp [unparenthesised, inParens, Token.isParen]

theorem unparenthesised_separated (parts : List (List Token)) :
    unparenthesised (separated parts) = separated (parts.map unparenthesised) := by
  induction parts with
  | nil => rfl
  | cons ts rest ih =>
    cases rest with
    | nil => rfl
    | cons us rest =>
      have hcomma : unparenthesised [.symbol .comma] = [.symbol .comma] := rfl
      rw [separated, List.append_cons, unparenthesised_append, unparenthesised_append, hcomma, ih]
      · simp [separated]
      · simp

theorem unparenthesised_literal {l : Lit} (h : LiteralTokens ts l) : unparenthesised ts = ts := by
  cases h <;> rfl

/-- The leaves and operators of a tree are the tokens of a form without its parentheses. -/
theorem Form.reading (f : Form) : Reading f.expr (unparenthesised f.tokens) := by
  induction f with
  | literal value =>
    have hl : LiteralTokens value.tokens value.lit := literalTokens_iff.mpr ⟨value, rfl, rfl⟩
    rw [Form.tokens, unparenthesised_literal hl]
    exact .literal hl
  | reference name => exact .reference name
  | call callee arguments ih =>
    have htokens : unparenthesised (Form.call callee arguments).tokens =
        .ident callee :: separated ((tokenLists arguments).map unparenthesised) := by
      rw [Form.tokens, ← unparenthesised_separated, ← unparenthesised_inParens (separated _)]
      rfl
    rw [htokens]
    refine .call callee ?_
    clear htokens
    induction arguments with
    | nil => exact .nil
    | cons f rest ihs =>
      obtain ⟨hf, hrest⟩ := List.forall_mem_cons.mp ih
      exact .cons hf (ihs hrest)
  | paren inner ih =>
    rw [Form.tokens, unparenthesised_inParens]
    exact ih
  | binary op lhs rhs ihl ihr =>
    have hop : unparenthesised [.symbol op.symbol] = [.symbol op.symbol] := by cases op <;> rfl
    rw [Form.tokens, List.append_cons, unparenthesised_append, unparenthesised_append, hop,
      List.append_assoc, List.singleton_append]
    exact .binary op ihl ihr

/-! ## What the parser builds -/

/-- An expression that is read is planted, and no operator follows it. -/
theorem expression_of_ok {id : NodeId} (hs : s.Ended)
    (h : outcome (expression room) around s = .ok id s') :
    ∃ ts e, Passes s ts s' ∧ Planted ExprAt s.store s'.store e id ∧ ExpressionTokens room ts e ∧
      operatorOf? s'.cursor.kind = none := by
  cases room with
  | zero => exact absurd h (by cases around <;> exact fun h => by cases h)
  | succ room =>
    have hprimary := plants_primary (plants_expression room)
    obtain ⟨ts, hread, ⟨e, he, hplant⟩, hstop⟩ := (ends_operands hprimary hs).of_ok h
    exact ⟨ts, e, hread.passes, hplant, he, hstop⟩

/-- **Precedence and associativity.**  Wherever an expression is read, the tree is the one that the
stratified grammar derives from the tokens that were passed, and it derives no other.  These tokens
are operands with operators between them, and the next token is not an operator.  The trees that the
grammar derives are those that are grouped as precedence and associativity tell, and the leaves and
operators of the tree are the tokens without parentheses. -/
theorem expression_stratified (room : Nat) (around : Option Position) {s s' : State} {id : NodeId}
    (hs : s.Ended) (h : outcome (expression room) around s = .ok id s') :
    ∃ ts e, Passes s ts s' ∧ Planted ExprAt s.store s'.store e id ∧
      (Derives ts e ∧ ∀ e', Derives ts e' → e' = e) ∧
      (operatorOf? s'.cursor.kind = none ∧
        ∃ es ops, Alternates (PrimaryTokens Derives) ts es ops) ∧
      (∀ e', Derives ts e' ↔ ∃ f : Form, f.tokens = ts ∧ f.expr = e' ∧ f.Grouped) ∧
      Reading e (unparenthesised ts) := by
  obtain ⟨ts, e, hpass, hplant, he, hstop⟩ := expression_of_ok hs h
  have hderives : Derives ts e := ⟨room, by rwa [stratifiedTokens_eq]⟩
  obtain ⟨f, rfl, rfl, -⟩ := derives_iff.mp hderives
  exact ⟨f.tokens, f.expr, hpass, hplant, ⟨hderives, fun e' he' => he'.unique hderives⟩,
    ⟨hstop, hderives.alternates⟩, fun _ => derives_iff, f.reading⟩

/-- `1 - -2 * (3 - 4) ^ 5 ^ x < f(6, 7)`. -/
def mixture : Form :=
  .binary .less
    (.binary .sub (.literal (.int 1)) (.binary .mul (.literal (.negative 2))
      (.binary .pow (.paren (.binary .sub (.literal (.int 3)) (.literal (.int 4))))
        (.binary .pow (.literal (.int 5)) (.reference ⟨"x"⟩)))))
    (.call ⟨"f"⟩ [.literal (.int 6), .literal (.int 7)])

/-- The tokens that are left where an expression has been read. -/
def left? (room : Nat) (s : State) : Option (List Token) :=
  match outcome (expression room) none s with
  | .ok _ s' => some s'.values
  | .error _ _ => none

theorem exists_of_left? {room : Nat} {s : State} {us : List Token} (h : left? room s = some us) :
    ∃ id s', outcome (expression room) none s = .ok id s' ∧ s'.values = us := by
  unfold left? at h
  split at h
  next id s' hrun => exact ⟨id, s', hrun, by simpa using h⟩
  next => cases h

/-- The mixture, with a parenthesis behind the call that is not part of it. -/
def mixtureStart : State :=
  .start ⟨[], ⟨.integer 1, default⟩,
    (mixture.tokens.tail ++ [Token.symbol .openParen, .eof]).map (⟨·, default⟩)⟩ .empty #[]

theorem expression_stratified_mixture :
    mixtureStart.Ended ∧ mixture.Grouped ∧
      ∃ id s', outcome (expression 2) none mixtureStart = .ok id s' ∧
        s'.values = [.symbol .openParen, .eof] ∧
        Planted ExprAt mixtureStart.store s'.store mixture.expr id := by
  have hs : mixtureStart.Ended := rfl
  have hgrouped : mixture.Grouped := by decide
  obtain ⟨id, s', hrun, hvalues⟩ := exists_of_left?
    (show left? 2 mixtureStart = some [.symbol .openParen, .eof] by decide +kernel)
  obtain ⟨ts, e, hpass, hplant, ⟨-, hunique⟩, -⟩ := expression_stratified 2 none hs hrun
  have hboth : mixture.tokens ++ [.symbol .openParen, .eof] = ts ++ s'.values := hpass.values
  rw [hvalues] at hboth
  obtain rfl := List.append_cancel_right hboth
  obtain rfl := hunique mixture.expr (derives_iff.mpr ⟨mixture, rfl, rfl, hgrouped⟩)
  exact ⟨hs, hgrouped, id, s', hrun, hvalues, hplant⟩

end Grammar

end FrontEnd
