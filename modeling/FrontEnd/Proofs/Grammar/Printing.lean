import FrontEnd.Proofs.Grammar.Units
import Mathlib.Logic.Relation

/-!
# Printing

A module as tokens, with no parentheses but those that the precedence and the side of an
operator call for, and without a result type where that is `void`.  Parsing undoes
printing, as long as no more blocks and expressions are open at once than the parser
allows.

The level at which an expression stands is the least precedence that an operator may have
there without parentheses.

However else a module is written, the printed tokens are what stays when three things are left out
that the tree does not keep: parentheses that no precedence calls for, a result type `void`, and a
minus sign in front of zero.  They are left out one by one, and on the way to the printed tokens
every stage is a way to write the module.

## Main definitions

* `Expr.tokens`, `Stmt.tokens`, `Decl.tokens`, `Module.tokens`: the printer.
* `Module.Fits`: how many blocks and expressions are open at once in what is printed.
* `Omission`, `ZeroOmission`: what may be left out.
* `Reduces`: leaving out one thing after the other.

## Main statements

* `ModuleTokens.reduces`: every way to write a module reduces to the printed one.
* `parseModule_tokens`: parsing undoes printing.
-/

namespace FrontEnd.Phrase

/-! ## The printer -/

/-- A literal; the sign of a negative number is a token of its own. -/
def Lit.tokens : Lit → List Token
  | .int (.ofNat n) => [.integer n]
  | .int (.negSucc n) => [.symbol .minus, .integer (n + 1)]
  | .bool b => [.keyword (.truth b)]
  | .char c => [.character c]

/-- Tokens in parentheses. -/
def inParens (ts : List Token) : List Token :=
  .symbol .openParen :: (ts ++ [.symbol .closeParen])

/-- Tokens in braces. -/
def inBraces (ts : List Token) : List Token :=
  .symbol .openCurly :: (ts ++ [.symbol .closeCurly])

/-- Lists of tokens with commas between them. -/
def separated : List (List Token) → List Token
  | [] => []
  | [ts] => ts
  | ts :: rest => ts ++ .symbol .comma :: separated rest

mutual

/-- An expression at a level. -/
def Expr.tokens : Expr → Nat → List Token
  | .literal value, _ => value.tokens
  | .reference name, _ => [.ident name]
  | .call callee arguments, _ => .ident callee :: inParens (separated (argumentsTokens arguments))
  | .binary op lhs rhs, level =>
    let ts := lhs.tokens op.leftPrecedence ++ .symbol op.symbol :: rhs.tokens op.operandPrecedence
    if op.precedence < level then inParens ts else ts

/-- The arguments of a call, each for itself. -/
def argumentsTokens : List Expr → List (List Token)
  | [] => []
  | e :: rest => e.tokens 0 :: argumentsTokens rest

end

mutual

/-- A statement. -/
def Stmt.tokens : Stmt → List Token
  | .block body => inBraces (bodyTokens body)
  | .varDecl name type value =>
    Grammar.declarator type :: .ident name :: .symbol .assign ::
      (value.tokens 0 ++ [.symbol .semicolon])
  | .ret none => [.keyword .ret, .symbol .semicolon]
  | .ret (some value) => .keyword .ret :: (value.tokens 0 ++ [.symbol .semicolon])
  | .exprStatement value => value.tokens 0 ++ [.symbol .semicolon]

/-- Statements one after the other. -/
def bodyTokens : List Stmt → List Token
  | [] => []
  | s :: rest => s.tokens ++ bodyTokens rest

end

/-- The name, parameters and result of a function. -/
def Proto.tokens (proto : Proto) : List Token :=
  .ident proto.name :: (inParens (separated (proto.params.map Param.tokens ++
      if proto.variadic then [[.symbol .ellipsis]] else [])) ++
    if proto.result = .prim .void then [] else [.symbol .arrow, proto.result.token])

/-- A declaration. -/
def Decl.tokens : Decl → List Token
  | .struct name fields =>
    .keyword .struct :: .ident name :: inBraces (Grammar.fieldTokens fields)
  | .global type name value =>
    .keyword .global :: type.token :: .ident name ::
      ((value.map fun l => .symbol .assign :: l.tokens).getD [] ++ [.symbol .semicolon])
  | .external attributes proto =>
    Grammar.attributeTokens attributes ++
      .keyword .external :: .keyword .fn :: (proto.tokens ++ [.symbol .semicolon])
  | .function attributes proto body =>
    Grammar.attributeTokens attributes ++
      .keyword .fn :: (proto.tokens ++ inBraces (bodyTokens body))

/-- A module. -/
def Module.tokens (m : Module) : List Token :=
  .keyword .module :: .ident m.name :: inBraces (m.decls.flatMap Decl.tokens)

/-! ## Nesting -/

mutual

/-- How many further expressions are open at once in an expression at a level: those in
parentheses, and the arguments of calls. -/
def Expr.nesting : Expr → Nat → Nat
  | .literal _, _ => 0
  | .reference _, _ => 0
  | .call _ arguments, _ => argumentsNesting arguments
  | .binary op lhs rhs, level =>
    let n := max (lhs.nesting op.leftPrecedence) (rhs.nesting op.operandPrecedence)
    if op.precedence < level then n + 1 else n

/-- How many expressions are open at once in the arguments of a call. -/
def argumentsNesting : List Expr → Nat
  | [] => 0
  | e :: rest => max (e.nesting 0 + 1) (argumentsNesting rest)

end

mutual

/-- How many blocks and expressions are open at once in a statement. -/
def Stmt.nesting : Stmt → Nat
  | .block body => bodyNesting body + 1
  | .varDecl _ _ value => value.nesting 0 + 1
  | .ret none => 0
  | .ret (some value) => value.nesting 0 + 1
  | .exprStatement value => value.nesting 0 + 1

/-- How many blocks and expressions are open at once in some statements. -/
def bodyNesting : List Stmt → Nat
  | [] => 0
  | s :: rest => max s.nesting (bodyNesting rest)

end

/-- How many blocks and expressions are open at once in a declaration. -/
def Decl.nesting : Decl → Nat
  | .function _ _ body => bodyNesting body + 1
  | _ => 0

/-- No more than `room` blocks and expressions are open at once in a module. -/
def Module.Fits (m : Module) (room : Nat) : Prop := ∀ d ∈ m.decls, d.nesting ≤ room

instance (m : Module) (room : Nat) : Decidable (m.Fits room) :=
  inferInstanceAs (Decidable (∀ d ∈ m.decls, d.nesting ≤ room))

end FrontEnd.Phrase

namespace FrontEnd.Grammar

open Phrase Store

variable {room : Nat} {e : Expr} {ts : List Token}

/-! ## What is printed is written as the grammar says -/

theorem literalTokens_tokens (l : Lit) : LiteralTokens l.tokens l := by
  cases l with
  | int value =>
    cases value with
    | ofNat n => exact .int n
    | negSucc n => exact .negative (n + 1)
  | bool b => exact .bool b
  | char c => exact .char c

/-- Expressions with room each are written as the grammar says. -/
theorem separated_argumentsTokens {arguments : List Expr} (hne : arguments ≠ [])
    {Item : List Token → Expr → Prop} (h : ∀ e ∈ arguments, Item (e.tokens 0) e) :
    Separated Item (separated (argumentsTokens arguments)) arguments := by
  induction arguments with
  | nil => exact absurd rfl hne
  | cons e rest ih =>
    obtain ⟨hfirst, hrest⟩ := List.forall_mem_cons.mp h
    cases rest with
    | nil => exact .last hfirst
    | cons e' rest => exact .cons hfirst (ih (by simp) hrest)

theorem nesting_le_argumentsNesting {arguments : List Expr} (h : e ∈ arguments) :
    e.nesting 0 + 1 ≤ argumentsNesting arguments := by
  induction arguments with
  | nil => cases h
  | cons first rest ih =>
    rw [argumentsNesting]
    rcases List.mem_cons.mp h with rfl | hrest
    · exact Nat.le_max_left _ _
    · exact Nat.le_trans (ih hrest) (Nat.le_max_right _ _)

/-- An expression is printed as the grammar says, at every level. -/
theorem levelTokens_tokens (e : Expr) {level : Nat} (h : e.nesting level ≤ room) :
    LevelTokens (PrimaryTokens (ExpressionTokens room)) level (e.tokens level) e := by
  induction e generalizing level room with
  | literal value =>
    rw [Expr.tokens]
    exact .operand (.literal (literalTokens_tokens value))
  | reference name =>
    rw [Expr.tokens]
    exact .operand (.reference name)
  | call callee arguments ih =>
    rw [Expr.nesting] at h
    rw [Expr.tokens]
    refine .operand (.call callee ?_)
    by_cases hne : arguments = []
    · subst hne
      exact .none
    · refine .some (separated_argumentsTokens hne fun e he => ?_)
      have hroom := Nat.le_trans (nesting_le_argumentsNesting he) h
      obtain ⟨room, rfl⟩ : ∃ n, room = n + 1 := Nat.exists_eq_add_one.mpr (by omega)
      exact ih e he (Nat.le_of_succ_le_succ hroom)
  | binary op lhs rhs ihl ihr =>
    rw [Expr.nesting] at h
    rw [Expr.tokens]
    have hbinary : ∀ {room : Nat}, max (lhs.nesting op.leftPrecedence)
        (rhs.nesting op.operandPrecedence) ≤ room → ∀ {least : Nat}, least ≤ op.precedence →
        LevelTokens (PrimaryTokens (ExpressionTokens room)) least
          (lhs.tokens op.leftPrecedence ++ .symbol op.symbol :: rhs.tokens op.operandPrecedence)
          (.binary op lhs rhs) := by
      intro room hmax least hleast
      exact .binary hleast (ihl (Nat.le_trans (Nat.le_max_left _ _) hmax))
        (ihr (Nat.le_trans (Nat.le_max_right _ _) hmax))
    by_cases hlevel : op.precedence < level
    · rw [if_pos hlevel] at h ⊢
      obtain ⟨room, rfl⟩ : ∃ n, room = n + 1 := Nat.exists_eq_add_one.mpr (by omega)
      exact .operand (.paren (hbinary (Nat.le_of_succ_le_succ h) (Nat.zero_le _)))
    · rw [if_neg hlevel] at h ⊢
      exact hbinary h (Nat.le_of_not_lt hlevel)

theorem expressionTokens_tokens (h : e.nesting 0 + 1 ≤ room) :
    ExpressionTokens room (e.tokens 0) e := by
  obtain ⟨room, rfl⟩ : ∃ n, room = n + 1 := Nat.exists_eq_add_one.mpr (by omega)
  exact levelTokens_tokens e (Nat.le_of_succ_le_succ h)

/-- A block is printed as the grammar says. -/
theorem blockTokens_tokens {body : List Stmt} (hnesting : bodyNesting body + 1 ≤ room)
    (hnames : (Stmt.block body).WellNamed) :
    BlockTokens room (inBraces (bodyTokens body)) body := by
  induction room generalizing body with
  | zero => omega
  | succ room ih =>
    rw [Stmt.WellNamed] at hnames
    obtain ⟨hdistinct, hbody⟩ := hnames
    refine .mk ?_ hdistinct
    -- The statements one by one, each with one level less.
    clear hdistinct
    induction body with
    | nil => exact .nil
    | cons st rest ihs =>
      rw [bodyNesting] at hnesting
      rw [StmtsWellNamed] at hbody
      rw [bodyTokens]
      refine .cons ?_ (ihs (by omega) hbody.2)
      cases st with
      | block inner =>
        rw [Stmt.nesting] at hnesting
        rw [Stmt.tokens]
        exact .block (ih (by omega) hbody.1)
      | varDecl name type value =>
        rw [Stmt.nesting] at hnesting
        rw [Stmt.tokens]
        exact .varDecl name type (expressionTokens_tokens (by omega))
      | ret value =>
        cases value with
        | none => exact .retNone
        | some value =>
          rw [Stmt.nesting] at hnesting
          rw [Stmt.tokens]
          exact .ret (expressionTokens_tokens (by omega))
      | exprStatement value =>
        rw [Stmt.nesting] at hnesting
        rw [Stmt.tokens]
        exact .exprStatement (expressionTokens_tokens (by omega))

/-- Parameters with an ellipsis or without are printed as the grammar says. -/
theorem paramTokens_separated (params : List Param) (variadic : Bool)
    (hne : params ≠ [] ∨ variadic = true) :
    ParamTokens (separated (params.map Param.tokens ++
      if variadic then [[.symbol .ellipsis]] else [])) params variadic := by
  induction params with
  | nil =>
    obtain rfl : variadic = true := by simpa using hne
    exact .ellipsis
  | cons param rest ih =>
    by_cases hlast : rest = [] ∧ variadic = false
    · obtain ⟨rfl, rfl⟩ := hlast
      exact .last param
    · have hmore : rest ≠ [] ∨ variadic = true := by
        rw [not_and_or, Bool.not_eq_false] at hlast
        exact hlast
      have hcons : ∃ ts more, rest.map Param.tokens ++
          (if variadic then [[.symbol .ellipsis]] else []) = ts :: more :=
        List.exists_cons_of_ne_nil (by rcases hmore with h | h <;> simp [h])
      obtain ⟨ts, more, hcons⟩ := hcons
      have hrest := ih hmore
      rw [List.map_cons, List.cons_append, hcons, separated]
      · rw [hcons] at hrest
        exact .cons param hrest
      · simp

theorem prototypeTokens_tokens {proto : Proto}
    (h : DistinctNames (proto.params.map Param.name)) : PrototypeTokens proto.tokens proto := by
  obtain ⟨name, params, variadic, result⟩ := proto
  refine .mk name ?_ ?_
  · by_cases hnone : params = [] ∧ variadic = false
    · obtain ⟨rfl, rfl⟩ := hnone
      exact .none
    · refine .some (paramTokens_separated params variadic ?_) h
      rwa [not_and_or, Bool.not_eq_false] at hnone
  · dsimp only
    split
    next hvoid =>
      subst hvoid
      exact .void
    next => exact .written result

/-- A declaration is printed as the grammar says. -/
theorem declarationTokens_tokens {d : Decl} (hnesting : d.nesting ≤ room)
    (hnames : d.WellNamed) : DeclarationTokens room d.tokens d := by
  cases d with
  | struct name fields => exact .struct name fields hnames
  | global type name value =>
    refine .global type name ?_
    cases value with
    | none => exact .none
    | some l => exact .some (literalTokens_tokens l)
  | external attributes proto => exact .external attributes (prototypeTokens_tokens hnames)
  | function attributes proto body =>
    exact .function attributes (prototypeTokens_tokens hnames.1)
      (blockTokens_tokens hnesting hnames.2)

theorem moduleTokens_tokens {m : Module} (hnames : m.WellNamed) (hfits : m.Fits room) :
    ModuleTokens room m.tokens m := by
  obtain ⟨hdistinct, hdecls⟩ := hnames
  refine .mk ?_ hdistinct
  obtain ⟨name, decls⟩ := m
  dsimp only [Module.Fits] at hfits hdecls ⊢
  clear hdistinct
  induction decls with
  | nil => exact .nil
  | cons d rest ih =>
    obtain ⟨hfit, hfits⟩ := List.forall_mem_cons.mp hfits
    obtain ⟨hdecl, hdecls⟩ := List.forall_mem_cons.mp hdecls
    exact .cons (declarationTokens_tokens hfit hdecl) (ih hfits hdecls)

/-! ## Leaving out what the tree does not keep -/

/-- Tokens of which something may be left out, and what then stands in their place. -/
inductive Omission : List Token → List Token → Prop
  /-- Parentheses around an expression. -/
  | parens {room : Nat} {ts : List Token} {e : Expr} : ExpressionTokens room ts e →
      Omission (inParens ts) ts
  /-- A result type `void`. -/
  | void : Omission [.symbol .arrow, .keyword (.prim .void)] []

/-- The same, and the sign of a zero. -/
inductive ZeroOmission : List Token → List Token → Prop
  | of {ts us : List Token} : Omission ts us → ZeroOmission ts us
  | sign : ZeroOmission [.symbol .minus, .integer 0] [.integer 0]

variable {R : List Token → List Token → Prop}

/-- One list of tokens becomes another when a part of it is replaced. -/
def Replaces (R : List Token → List Token → Prop) (ts us : List Token) : Prop :=
  ∃ before old new after, R old new ∧ ts = before ++ (old ++ after) ∧ us = before ++ (new ++ after)

/-- One list of tokens becomes another by replacements, after each of which it is `Written` as
it should be. -/
def Reduces (R : List Token → List Token → Prop) (Written : List Token → Prop) :
    List Token → List Token → Prop :=
  Relation.ReflTransGen fun ts us => Replaces R ts us ∧ Written us

variable {us : List Token}

theorem Replaces.of (h : R ts us) : Replaces R ts us :=
  ⟨[], ts, us, [], h, by simp, by simp⟩

theorem Replaces.context (before after : List Token) (h : Replaces R ts us) :
    Replaces R (before ++ (ts ++ after)) (before ++ (us ++ after)) := by
  obtain ⟨first, old, new, last, hR, rfl, rfl⟩ := h
  exact ⟨before ++ first, old, new, last ++ after, hR, by simp, by simp⟩

namespace Reduces

variable {W V W' : List Token → Prop} {ts' us' : List Token}

theorem refl (ts : List Token) : Reduces R W ts ts := Relation.ReflTransGen.refl

theorem trans (h : Reduces R W ts us) (h' : Reduces R W us us') : Reduces R W ts us' :=
  Relation.ReflTransGen.trans h h'

theorem step (h : R ts us) (hus : W us) : Reduces R W ts us := .single ⟨.of h, hus⟩

theorem written (h : Reduces R W ts us) (hts : W ts) : W us := by
  cases h with
  | refl => exact hts
  | tail _ hstep => exact hstep.2

/-- A part of a list is reduced where it stands. -/
theorem context (before after : List Token) (h : Reduces R W ts us)
    (hctx : ∀ x, W x → W' (before ++ (x ++ after))) :
    Reduces R W' (before ++ (ts ++ after)) (before ++ (us ++ after)) := by
  induction h with
  | refl => exact refl _
  | tail _ hstep ih =>
    exact Relation.ReflTransGen.tail ih ⟨hstep.1.context before after, hctx _ hstep.2⟩

theorem mono (h : Reduces R W ts us) (hW : ∀ x, W x → W' x) : Reduces R W' ts us := by
  induction h with
  | refl => exact refl _
  | tail _ hstep ih => exact Relation.ReflTransGen.tail ih ⟨hstep.1, hW _ hstep.2⟩

/-- Two parts of a list are reduced one after the other. -/
theorem both (mid : List Token) (h : Reduces R W ts ts') (h' : Reduces R V us us') (hts : W ts)
    (hus : V us) (hctx : ∀ x y, W x → V y → W' (x ++ (mid ++ y))) :
    Reduces R W' (ts ++ (mid ++ us)) (ts' ++ (mid ++ us')) := by
  have hfirst : Reduces R W' (ts ++ (mid ++ us)) (ts' ++ (mid ++ us)) :=
    h.context [] (mid ++ us) fun x hx => hctx x us hx hus
  have hctx' : ∀ y, V y → W' (ts' ++ mid ++ (y ++ [])) := by
    intro y hy
    simpa using hctx ts' y (h.written hts) hy
  have hsecond := h'.context (ts' ++ mid) [] hctx'
  simp only [List.append_nil, List.append_assoc] at hsecond
  exact hfirst.trans hsecond

/-- Nothing grows by what is left out. -/
theorem length_le (h : Reduces ZeroOmission W ts us) : us.length ≤ ts.length := by
  induction h with
  | refl => exact Nat.le_refl _
  | tail _ hstep ih =>
    obtain ⟨⟨before, old, new, after, homission, rfl, rfl⟩, -⟩ := hstep
    have hless : new.length ≤ old.length := by
      cases homission with
      | of h =>
        cases h with
        | parens _ =>
          simp only [inParens, List.length_cons, List.length_append]
          omega
        | void => exact Nat.zero_le _
      | sign => exact Nat.le_succ 1
    simp only [List.length_append] at ih ⊢
    omega

end Reduces

theorem LiteralTokens.reduces {l : Lit} (h : LiteralTokens ts l) :
    Reduces ZeroOmission (LiteralTokens · l) ts l.tokens := by
  cases h with
  | int n => exact .refl _
  | negative n =>
    cases n with
    | zero => exact .step .sign (.int 0)
    | succ n => exact .refl _
  | bool b => exact .refl _
  | char c => exact .refl _

theorem Separated.reduces {Item : List Token → Expr → Prop} {es : List Expr}
    (h : Separated Item ts es)
    (hitem : ∀ {ts e}, Item ts e → Reduces ZeroOmission (Item · e) ts (e.tokens 0)) :
    Reduces ZeroOmission (Separated Item · es) ts (separated (argumentsTokens es)) := by
  induction h with
  | last ha => exact (hitem ha).mono fun _ => .last
  | @cons ts us e es ha hs ih =>
    obtain ⟨e', es', rfl⟩ : ∃ e' es', es = e' :: es' := by cases hs <;> exact ⟨_, _, rfl⟩
    exact (hitem ha).both [.symbol .comma] ih ha hs fun _ _ => .cons

/-- An expression needs one pair of parentheses at a level, or it reads the same there and may be
written as at any other level. -/
theorem tokens_eq_or (e : Expr) (level : Nat) :
    e.tokens level = inParens (e.tokens 0) ∨ e.tokens level = e.tokens 0 ∧
      ∀ {Operand : List Token → Expr → Prop} {least : Nat} {ts : List Token},
        LevelTokens Operand least ts e → LevelTokens Operand level ts e := by
  cases e with
  | binary op lhs rhs =>
    rw [Expr.tokens, Expr.tokens, if_neg (Nat.not_lt_zero _)]
    by_cases hlevel : op.precedence < level
    · exact .inl (if_pos hlevel)
    · refine .inr ⟨if_neg hlevel, fun h => ?_⟩
      cases h with
      | operand hop => exact .operand hop
      | binary _ hl hr => exact .binary (Nat.le_of_not_lt hlevel) hl hr
  | _ =>
    refine .inr ⟨by simp [Expr.tokens], fun h => ?_⟩
    cases h with
    | operand hop => exact .operand hop

/-- What is written at a level reduces to what is printed there, if that holds of the inner
expressions. -/
theorem LevelTokens.reduces {level : Nat}
    (h : LevelTokens (PrimaryTokens (ExpressionTokens room)) level ts e)
    (hnested : ∀ {ts e}, ExpressionTokens room ts e →
      Reduces ZeroOmission (ExpressionTokens room · e) ts (e.tokens 0)) :
    Reduces ZeroOmission (LevelTokens (PrimaryTokens (ExpressionTokens room)) level · e) ts
      (e.tokens level) := by
  induction h with
  | @operand level ts e hoperand =>
    cases hoperand with
    | literal hl =>
      rw [Expr.tokens]
      exact hl.reduces.mono fun _ hx => .operand (.literal hx)
    | reference name =>
      rw [Expr.tokens]
      exact .refl _
    | call callee harguments =>
      rw [Expr.tokens]
      cases harguments with
      | none => exact .refl _
      | some hs =>
        exact (hs.reduces hnested).context [.ident callee, .symbol .openParen]
          [.symbol .closeParen] fun _ hx => .operand (.call callee (.some hx))
    | @paren us _ hinner =>
      -- First what stands inside, then the parentheses, unless the level calls for them.
      have hinside : Reduces ZeroOmission
          (LevelTokens (PrimaryTokens (ExpressionTokens room)) level · e)
          (inParens us) (inParens (e.tokens 0)) :=
        (hnested hinner).context [.symbol .openParen] [.symbol .closeParen]
          fun _ hx => .operand (.paren hx)
      rcases tokens_eq_or e level with htokens | ⟨htokens, hraise⟩
      · rw [htokens]
        exact hinside
      · have hexpression := (hnested hinner).written hinner
        have hmore : ExpressionTokens (room + 1) (e.tokens 0) e :=
          hexpression.mono (Nat.le_succ room)
        rw [htokens]
        exact hinside.trans (.step (.of (.parens hexpression)) (hraise hmore))
  | @binary level ts us op l r hleast hl hr ihl ihr =>
    rw [Expr.tokens, if_neg (Nat.not_lt_of_le hleast)]
    exact ihl.both [.symbol op.symbol] ihr hl hr fun _ _ => .binary hleast

/-- Every way to write an expression reduces to the printed one. -/
theorem ExpressionTokens.reduces (h : ExpressionTokens room ts e) :
    Reduces ZeroOmission (ExpressionTokens room · e) ts (e.tokens 0) := by
  induction room generalizing ts e with
  | zero => exact h.elim
  | succ room ih => exact LevelTokens.reduces h ih

/-- Items reduce one after the other. -/
theorem Sequence.reduces {α : Type} {Item : List Token → α → Prop} {print : α → List Token}
    {as : List α} (h : Sequence Item ts as)
    (hitem : ∀ {ts a}, Item ts a → Reduces ZeroOmission (Item · a) ts (print a)) :
    Reduces ZeroOmission (Sequence Item · as) ts (as.flatMap print) := by
  induction h with
  | nil => exact .refl _
  | cons ha hs ih => exact (hitem ha).both [] ih ha hs fun _ _ => .cons

theorem bodyTokens_eq_flatMap (body : List Stmt) : bodyTokens body = body.flatMap Stmt.tokens := by
  induction body with
  | nil => rfl
  | cons st rest ih => rw [bodyTokens, List.flatMap_cons, ih]

theorem StatementTokens.reduces {Block : List Token → List Stmt → Prop} {st : Stmt}
    (h : StatementTokens Block (ExpressionTokens room) ts st)
    (hblock : ∀ {ts body}, Block ts body →
      Reduces ZeroOmission (Block · body) ts (inBraces (bodyTokens body))) :
    Reduces ZeroOmission (StatementTokens Block (ExpressionTokens room) · st) ts st.tokens := by
  cases h with
  | block hbody =>
    rw [Stmt.tokens]
    exact (hblock hbody).mono fun _ => .block
  | varDecl name type hvalue =>
    rw [Stmt.tokens]
    exact hvalue.reduces.context [declarator type, .ident name, .symbol .assign]
      [.symbol .semicolon] fun _ => .varDecl name type
  | retNone =>
    rw [Stmt.tokens]
    exact .refl _
  | ret hvalue =>
    rw [Stmt.tokens]
    exact hvalue.reduces.context [.keyword .ret] [.symbol .semicolon] fun _ => .ret
  | exprStatement hvalue =>
    rw [Stmt.tokens]
    exact hvalue.reduces.context [] [.symbol .semicolon] fun _ => .exprStatement

/-- Every way to write a block reduces to the printed one. -/
theorem BlockTokens.reduces {body : List Stmt} (h : BlockTokens room ts body) :
    Reduces ZeroOmission (BlockTokens room · body) ts (inBraces (bodyTokens body)) := by
  induction room generalizing ts body with
  | zero => exact h.elim
  | succ room ih =>
    obtain ⟨hitems, hdistinct⟩ := h
    rw [bodyTokens_eq_flatMap]
    exact (hitems.reduces fun hitem => hitem.reduces ih).context [.symbol .openCurly]
      [.symbol .closeCurly] fun _ hx => .mk hx hdistinct

theorem ResultTokens.reduces {result : TypeName} (h : ResultTokens ts result) :
    Reduces ZeroOmission (ResultTokens · result) ts
      (if result = .prim .void then [] else [.symbol .arrow, result.token]) := by
  cases h with
  | void => exact .refl _
  | written =>
    by_cases hvoid : result = .prim .void
    · subst hvoid
      exact .step (.of .void) .void
    · rw [if_neg hvoid]
      exact .refl _

/-- There is one way to write parameters. -/
theorem ParamTokens.eq_separated {params : List Param} {variadic : Bool}
    (h : ParamTokens ts params variadic) : ts = separated (params.map Param.tokens ++
      if variadic then [[.symbol .ellipsis]] else []) := by
  induction h with
  | ellipsis => rfl
  | last param => rfl
  | @cons ts params variadic param hrest ih =>
    obtain ⟨us, more, hcons⟩ : ∃ us more, params.map Param.tokens ++
        (if variadic then [[.symbol .ellipsis]] else []) = us :: more :=
      List.exists_cons_of_ne_nil (by cases hrest <;> simp)
    rw [hcons] at ih
    rw [List.map_cons, List.cons_append, hcons, separated, ih]
    simp

theorem ArgumentTokens.eq_inParens {params : List Param} {variadic : Bool}
    (h : ArgumentTokens ts (params, variadic)) :
    ts = inParens (separated (params.map Param.tokens ++
      if variadic then [[.symbol .ellipsis]] else [])) := by
  cases h with
  | none => rfl
  | some hparams _ => rw [inParens, ← hparams.eq_separated]

theorem PrototypeTokens.reduces {proto : Proto} (h : PrototypeTokens ts proto) :
    Reduces ZeroOmission (PrototypeTokens · proto) ts proto.tokens := by
  obtain @⟨arguments, us, params, variadic, result, name, harguments, hresult⟩ := h
  rw [Proto.tokens, ← harguments.eq_inParens]
  have hreduced : Reduces ZeroOmission (PrototypeTokens · ⟨name, params, variadic, result⟩) _ _ :=
    hresult.reduces.context (.ident name :: arguments) [] fun x hx => by
      simpa using PrototypeTokens.mk name harguments hx
  simpa using hreduced

theorem DeclarationTokens.reduces {d : Decl} (h : DeclarationTokens room ts d) :
    Reduces ZeroOmission (DeclarationTokens room · d) ts d.tokens := by
  cases h with
  | struct name fields hdistinct => exact .refl _
  | global type name hvalue =>
    cases hvalue with
    | none => exact .refl _
    | some hl =>
      exact hl.reduces.context [.keyword .global, type.token, .ident name, .symbol .assign]
        [.symbol .semicolon] fun _ hx => .global type name (.some hx)
  | @external ts proto attributes hproto =>
    have hreduced :
        Reduces ZeroOmission (DeclarationTokens room · (.external attributes proto)) _ _ :=
      hproto.reduces.context (attributeTokens attributes ++ [.keyword .external, .keyword .fn])
        [.symbol .semicolon] fun x hx => by simpa using DeclarationTokens.external attributes hx
    simpa [Decl.tokens] using hreduced
  | @function ts us proto body attributes hproto hbody =>
    have hboth : Reduces ZeroOmission (fun x => DeclarationTokens room
        (attributeTokens attributes ++ .keyword .fn :: x) (.function attributes proto body))
        (ts ++ us) (proto.tokens ++ inBraces (bodyTokens body)) :=
      hproto.reduces.both [] hbody.reduces hproto hbody fun _ _ => .function attributes
    have hreduced :
        Reduces ZeroOmission (DeclarationTokens room · (.function attributes proto body)) _ _ :=
      hboth.context (attributeTokens attributes ++ [.keyword .fn]) [] fun x hx => by simpa using hx
    simpa [Decl.tokens] using hreduced

/-- Every way to write a module reduces to the printed one. -/
theorem ModuleTokens.reduces {m : Module} (h : ModuleTokens room ts m) :
    Reduces ZeroOmission (ModuleTokens room · m) ts m.tokens := by
  obtain ⟨hdecls, hdistinct⟩ := h
  exact (hdecls.reduces DeclarationTokens.reduces).context
    [.keyword .module, .ident m.name, .symbol .openCurly] [.symbol .closeCurly]
    fun _ hx => .mk hx hdistinct

/-! ## Parsing undoes printing -/

/-- A module that is printed and then parsed is the same module, without an error, and no
way to write it is shorter. -/
theorem parseModule_tokens (m : Module) (hnames : m.WellNamed) (hfits : m.Fits maxNesting)
    (tokens : List (Located Token)) (htokens : tokens.map Located.value = m.tokens ++ [.eof])
    (store : Store) (notices : Notices) :
    (∃ parsed root ids, parseModule tokens store notices = .ok parsed ∧ parsed.result = .ok root ∧
      ModuleAt parsed.store m root ids ∧
      ∃ new : List Notice, parsed.notices.toList = notices.toList ++ new ∧
        (∀ notice ∈ new, notice.isError = false) ∧ (m.decls ≠ [] → new = [])) ∧
    ∀ room ts, ModuleTokens room ts m → m.tokens.length ≤ ts.length :=
  ⟨parseModule_of_tokens store notices (moduleTokens_tokens hnames hfits) htokens,
    fun _ _ h => h.reduces.length_le⟩

/-- A function whose body has a difference of differences and a negative literal. -/
def differences : Module where
  name := ⟨"m"⟩
  decls := [.function [⟨"inline"⟩] ⟨⟨"f"⟩, [⟨.prim (.int .w32), ⟨"a"⟩⟩], false, .prim (.int .w32)⟩
    [.varDecl ⟨"b"⟩ none (.binary .sub (.reference ⟨"a"⟩)
      (.binary .sub (.literal (.int (-1))) (.call ⟨"f"⟩ [.reference ⟨"a"⟩]))),
    .ret (some (.reference ⟨"b"⟩))]]

theorem parseModule_tokens_differences :
    let tokens : List (Located Token) :=
      (differences.tokens ++ [Token.eof]).map fun t => ⟨t, default⟩
    differences.WellNamed ∧ differences.Fits maxNesting ∧
      ∃ parsed root ids, parseModule tokens ⟨#[]⟩ #[] = .ok parsed ∧ parsed.result = .ok root ∧
        ModuleAt parsed.store differences root ids ∧ parsed.notices.toList = [] := by
  intro tokens
  have hnames : differences.WellNamed := by decide
  have hfits : differences.Fits maxNesting := by decide
  obtain ⟨⟨parsed, root, ids, hparsed, hresult, hplaced, new, hnotices, -, hnone⟩, -⟩ :=
    parseModule_tokens differences hnames hfits tokens (by simp [tokens, Function.comp_def])
      ⟨#[]⟩ #[]
  have hempty : new = [] := hnone (by simp [differences])
  exact ⟨hnames, hfits, parsed, root, ids, hparsed, hresult, hplaced, by rw [hnotices, hempty]; rfl⟩

end FrontEnd.Grammar
