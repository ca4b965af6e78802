import FrontEnd.Grammar.Declaration
import FrontEnd.Proofs.Phrase.Basic

/-!
# The tokens of a phrase

The grammar, said without a parser: which lists of tokens a phrase may be written with.
`ExpressionTokens room ts e` says that `ts` is a way to write `e` in which at most `room`
expressions are open at once; parentheses may stand anywhere.  Blocks and declarations
have such a relation each.

Where a phrase contains itself, the relation for the inner one is a parameter, so that no
two of the relations are mutual.

## Main definitions

* `LevelTokens`: operands joined by operators of at least a precedence.
* `ExpressionTokens`, `BlockTokens`, `DeclarationTokens`.
-/

namespace FrontEnd

/-! ## Operators -/

namespace Operator

/-- The symbol of an operator. -/
def symbol : Operator → Symbol
  | .add => .plus
  | .sub => .minus
  | .mul => .times
  | .div => .slash
  | .mod => .percent
  | .pow => .caret
  | .less => .less
  | .greater => .greater

/-- The least precedence that the left operand's own operators must have. -/
def leftPrecedence (op : Operator) : Nat :=
  if op.isRightAssociative then op.precedence + 1 else op.precedence

theorem precedence_le_operandPrecedence (op : Operator) :
    op.precedence ≤ op.operandPrecedence := by
  cases op <;> decide

theorem precedence_le_leftPrecedence (op : Operator) : op.precedence ≤ op.leftPrecedence := by
  cases op <;> decide

/-- An operator may stand in the left operand of another exactly if its right operand
does not take the other in. -/
theorem leftPrecedence_le_iff (op inner : Operator) :
    op.leftPrecedence ≤ inner.precedence ↔ op.precedence < inner.operandPrecedence := by
  cases op <;> cases inner <;> decide

end Operator

/-- The token that a type is. -/
def Phrase.TypeName.token : Phrase.TypeName → Token
  | .named name => .ident name
  | .prim type => .keyword (.prim type)

theorem Phrase.TypeName.token_ne_symbol (type : Phrase.TypeName) (sign : Symbol) :
    type.token ≠ .symbol sign := by
  cases type <;> simp [TypeName.token]

/-- The tokens of a parameter. -/
def Phrase.Param.tokens (param : Phrase.Param) : List Token :=
  [param.type.token, .ident param.name]

namespace Grammar

open Phrase

/-- A token kind is an operator exactly if it is the symbol of one. -/
theorem operatorOf?_eq_some_iff {kind : TokenKind} {op : Operator} :
    operatorOf? kind = some op ↔ kind = .symbol op.symbol := by
  refine ⟨fun h => ?_, fun h => by subst h; cases op <;> rfl⟩
  unfold operatorOf? at h
  split at h <;> first | (injection h with h; subst h; rfl) | cases h

/-- A token names a type exactly if it is the token of one. -/
theorem typeOf?_eq_some_iff {token : Token} {ref : TypeRef} :
    typeOf? token = some ref ↔ ∃ type : TypeName, token = type.token ∧ ref = type.ref := by
  constructor
  · intro h
    unfold typeOf? at h
    split at h
    · injection h with h; exact ⟨.named _, rfl, h.symm⟩
    · injection h with h; exact ⟨.prim _, rfl, h.symm⟩
    · cases h
  · rintro ⟨type, rfl, rfl⟩
    cases type <;> rfl

/-! ## Lists -/

/-- Items one after the other. -/
inductive Sequence {α : Type} (Item : List Token → α → Prop) : List Token → List α → Prop
  | nil : Sequence Item [] []
  | cons {ts us a as} : Item ts a → Sequence Item us as → Sequence Item (ts ++ us) (a :: as)

/-- Items parted by commas, at least one. -/
inductive Separated {α : Type} (Item : List Token → α → Prop) : List Token → List α → Prop
  | last {ts a} : Item ts a → Separated Item ts [a]
  | cons {ts us a as} : Item ts a → Separated Item us as →
      Separated Item (ts ++ .symbol .comma :: us) (a :: as)

theorem Sequence.length_le {α : Type} {Item : List Token → α → Prop} {ts : List Token}
    {as : List α} (h : Sequence Item ts as) (hitem : ∀ {ts a}, Item ts a → ts ≠ []) :
    as.length ≤ ts.length := by
  induction h with
  | nil => simp
  | cons ha _ ih =>
    have hpos := List.length_pos_iff.mpr (hitem ha)
    simp only [List.length_append, List.length_cons]
    omega

theorem Sequence.append {α : Type} {Item : List Token → α → Prop} {ts us : List Token}
    {as bs : List α} (h : Sequence Item ts as) (h' : Sequence Item us bs) :
    Sequence Item (ts ++ us) (as ++ bs) := by
  induction h with
  | nil => exact h'
  | cons ha _ ih =>
    rw [List.append_assoc]
    exact .cons ha ih

theorem Separated.imp {α : Type} {Item Item' : List Token → α → Prop} {ts : List Token}
    {as : List α} (h : Separated Item ts as) (himp : ∀ {ts a}, Item ts a → Item' ts a) :
    Separated Item' ts as := by
  induction h with
  | last ha => exact .last (himp ha)
  | cons ha _ ih => exact .cons (himp ha) ih

/-! ## Expressions -/

/-- A literal; the sign of a negative number is a token of its own. -/
inductive LiteralTokens : List Token → Lit → Prop
  | int (n : Nat) : LiteralTokens [.integer n] (.int n)
  | negative (n : Nat) : LiteralTokens [.symbol .minus, .integer n] (.int (-n))
  | bool (b : Bool) : LiteralTokens [.keyword (.truth b)] (.bool b)
  | char (c : Char) : LiteralTokens [.character c] (.char c)

/-- The arguments of a call between its parentheses. -/
inductive CallTokens (Nested : List Token → Expr → Prop) : List Token → List Expr → Prop
  | none : CallTokens Nested [] []
  | some {ts es} : Separated Nested ts es → CallTokens Nested ts es

/-- An operand; `Nested` is the relation of the expressions one level deeper. -/
inductive PrimaryTokens (Nested : List Token → Expr → Prop) : List Token → Expr → Prop
  | literal {ts l} : LiteralTokens ts l → PrimaryTokens Nested ts (.literal l)
  | reference (name : Ident) : PrimaryTokens Nested [.ident name] (.reference name)
  | call {ts es} (callee : Ident) : CallTokens Nested ts es →
      PrimaryTokens Nested (.ident callee :: .symbol .openParen :: (ts ++ [.symbol .closeParen]))
        (.call callee es)
  | paren {ts e} : Nested ts e →
      PrimaryTokens Nested (.symbol .openParen :: (ts ++ [.symbol .closeParen])) e

/-- Operands joined by operators that bind at least as tightly as `least`. -/
inductive LevelTokens (Operand : List Token → Expr → Prop) : Nat → List Token → Expr → Prop
  | operand {least ts e} : Operand ts e → LevelTokens Operand least ts e
  | binary {least ts us op l r} : least ≤ op.precedence →
      LevelTokens Operand op.leftPrecedence ts l → LevelTokens Operand op.operandPrecedence us r →
      LevelTokens Operand least (ts ++ .symbol op.symbol :: us) (.binary op l r)

section Expressions

variable {room room' least least' : Nat} {ts : List Token} {e : Expr}

theorem PrimaryTokens.imp {Nested Nested' : List Token → Expr → Prop}
    (h : PrimaryTokens Nested ts e) (himp : ∀ {ts e}, Nested ts e → Nested' ts e) :
    PrimaryTokens Nested' ts e := by
  cases h with
  | literal hl => exact .literal hl
  | reference name => exact .reference name
  | call callee harguments =>
    cases harguments with
    | none => exact .call callee .none
    | some hs => exact .call callee (.some (hs.imp himp))
  | paren hinner => exact .paren (himp hinner)

theorem LevelTokens.imp {Operand Operand' : List Token → Expr → Prop}
    (h : LevelTokens Operand least ts e) (himp : ∀ {ts e}, Operand ts e → Operand' ts e) :
    LevelTokens Operand' least ts e := by
  induction h with
  | operand hop => exact .operand (himp hop)
  | binary hop _ _ ihl ihr => exact .binary hop ihl ihr

/-- What binds tightly enough also does so for a smaller bound. -/
theorem LevelTokens.mono {Operand : List Token → Expr → Prop}
    (h : LevelTokens Operand least ts e) (hle : least' ≤ least) :
    LevelTokens Operand least' ts e := by
  cases h with
  | operand hop => exact .operand hop
  | binary hop hl hr => exact .binary (Nat.le_trans hle hop) hl hr

/-- An expression with room for `room` levels. -/
def ExpressionTokens : Nat → List Token → Expr → Prop
  | 0 => fun _ _ => False
  | room + 1 => LevelTokens (PrimaryTokens (ExpressionTokens room)) 0

theorem ExpressionTokens.mono (h : ExpressionTokens room ts e) (hle : room ≤ room') :
    ExpressionTokens room' ts e := by
  induction room generalizing room' ts e with
  | zero => exact h.elim
  | succ room ih =>
    obtain ⟨room', rfl⟩ : ∃ n, room' = n + 1 := Nat.exists_eq_add_one.mpr (by omega)
    exact LevelTokens.imp h fun hop => hop.imp fun hinner => ih hinner (Nat.le_of_succ_le_succ hle)

end Expressions

/-- Whether a token may start an expression. -/
def startsExpression : TokenKind → Bool
  | .ident | .integer | .character | .symbol .minus | .symbol .openParen => true
  | .keyword (.truth _) => true
  | _ => false

/-- How the tokens of an expression begin: with one that may start an expression, and
not with two names. -/
inductive Opening : List Token → Prop
  | name {name : Ident} {ts : List Token} :
      (∀ other, ts.head? ≠ some (.ident other)) → Opening (.ident name :: ts)
  | other {t : Token} {ts : List Token} : startsExpression t.kind = true → t.kind ≠ .ident →
      Opening (t :: ts)

/-- Tokens that begin as an expression still do when others follow them, if not a name. -/
theorem Opening.append {ts us : List Token} (h : Opening ts)
    (hus : ∀ other, us.head? ≠ some (.ident other)) : Opening (ts ++ us) := by
  cases h with
  | name hts =>
    refine .name fun other hother => ?_
    rcases Option.or_eq_some_iff.mp (List.head?_append ▸ hother) with hleft | ⟨-, hright⟩
    · exact hts other hleft
    · exact hus other hright
  | other hstart hident => exact .other hstart hident

section Opening

variable {room : Nat} {ts : List Token} {e : Expr}

theorem LiteralTokens.opening {l : Lit} (h : LiteralTokens ts l) : Opening ts := by
  cases h <;> exact .other rfl (by simp [Token.kind])

theorem PrimaryTokens.opening {Nested : List Token → Expr → Prop} (h : PrimaryTokens Nested ts e) :
    Opening ts := by
  cases h with
  | literal hl => exact hl.opening
  | reference _ => exact .name (by simp)
  | call _ _ => exact .name (by simp)
  | paren _ => exact .other rfl (by simp [Token.kind])

theorem LevelTokens.opening {Operand : List Token → Expr → Prop} {least : Nat}
    (h : LevelTokens Operand least ts e)
    (hoperand : ∀ {ts e}, Operand ts e → Opening ts) : Opening ts := by
  induction h with
  | operand hop => exact hoperand hop
  | binary _ _ _ ihl _ => exact ihl.append (by simp)

theorem ExpressionTokens.opening (h : ExpressionTokens room ts e) : Opening ts := by
  cases room with
  | zero => exact h.elim
  | succ room => exact LevelTokens.opening h PrimaryTokens.opening

theorem Separated.opening {Item : List Token → Expr → Prop} {as : List Expr}
    (hitem : ∀ {ts e}, Item ts e → Opening ts) (h : Separated Item ts as) : Opening ts := by
  cases h with
  | last ha => exact hitem ha
  | cons ha _ => exact (hitem ha).append (by simp)

/-- What begins an expression does not close anything. -/
theorem Opening.head_ne_symbol {t : Token} {sign : Symbol} (h : Opening (t :: ts))
    (hsign : startsExpression (.symbol sign) = false) : t ≠ .symbol sign := by
  rintro rfl
  cases h with
  | other hstart _ => simp [Token.kind, hsign] at hstart

theorem Opening.exists_cons (h : Opening ts) : ∃ t us, ts = t :: us := by
  cases h <;> exact ⟨_, _, rfl⟩

end Opening

/-! ## Statements -/

/-- The token that starts a variable declaration: its type, or `let`. -/
def declarator : Option TypeName → Token
  | none => .keyword .binding
  | some type => type.token

/-- A statement; the relations for blocks and expressions are those one level deeper. -/
inductive StatementTokens (Block : List Token → List Stmt → Prop)
    (Expression : List Token → Expr → Prop) : List Token → Stmt → Prop
  | block {ts body} : Block ts body → StatementTokens Block Expression ts (.block body)
  | varDecl {ts value} (name : Ident) (type : Option TypeName) : Expression ts value →
      StatementTokens Block Expression
        (declarator type :: .ident name :: .symbol .assign :: (ts ++ [.symbol .semicolon]))
        (.varDecl name type value)
  | retNone : StatementTokens Block Expression [.keyword .ret, .symbol .semicolon] (.ret none)
  | ret {ts value} : Expression ts value →
      StatementTokens Block Expression (.keyword .ret :: (ts ++ [.symbol .semicolon]))
        (.ret (some value))
  | exprStatement {ts value} : Expression ts value →
      StatementTokens Block Expression (ts ++ [.symbol .semicolon]) (.exprStatement value)

/-- Statements in braces, no two of which declare one variable. -/
inductive BraceTokens (Item : List Token → Stmt → Prop) : List Token → List Stmt → Prop
  | mk {ts body} : Sequence Item ts body → DistinctNames (declaredNames body) →
      BraceTokens Item (.symbol .openCurly :: (ts ++ [.symbol .closeCurly])) body

/-- A block with room for `room` levels. -/
def BlockTokens : Nat → List Token → List Stmt → Prop
  | 0 => fun _ _ => False
  | room + 1 => BraceTokens (StatementTokens (BlockTokens room) (ExpressionTokens room))

/-- The tokens of a block begin with a brace. -/
theorem BlockTokens.exists_cons {room : Nat} {ts : List Token} {body : List Stmt}
    (h : BlockTokens room ts body) : ∃ us, ts = .symbol .openCurly :: us := by
  cases room with
  | zero => exact h.elim
  | succ room =>
    cases h with
    | mk _ _ => exact ⟨_, rfl⟩

/-- The tokens of a statement begin with one that does not close a block. -/
theorem StatementTokens.exists_cons {room : Nat} {ts : List Token} {st : Stmt}
    (h : StatementTokens (BlockTokens room) (ExpressionTokens room) ts st) :
    ∃ t us, ts = t :: us ∧ t ≠ .symbol .closeCurly := by
  cases h with
  | block hbody =>
    obtain ⟨us, rfl⟩ := hbody.exists_cons
    exact ⟨_, us, rfl, by simp⟩
  | varDecl name type _ =>
    refine ⟨_, _, rfl, ?_⟩
    cases type with
    | none => simp [declarator]
    | some type => cases type <;> simp [declarator, TypeName.token]
  | retNone => exact ⟨_, _, rfl, by simp⟩
  | ret _ => exact ⟨_, _, rfl, by simp⟩
  | exprStatement hvalue =>
    obtain ⟨t, us, rfl⟩ := hvalue.opening.exists_cons
    exact ⟨t, _, rfl, hvalue.opening.head_ne_symbol rfl⟩

/-! ## Declarations -/

/-- One parameter or more, or an ellipsis, between parentheses. -/
inductive ParamTokens : List Token → List Param → Bool → Prop
  | ellipsis : ParamTokens [.symbol .ellipsis] [] true
  | last (param : Param) : ParamTokens param.tokens [param] false
  | cons {ts params variadic} (param : Param) : ParamTokens ts params variadic →
      ParamTokens (param.tokens ++ .symbol .comma :: ts) (param :: params) variadic

section Params

variable {ts : List Token} {params : List Param} {variadic : Bool}

theorem ParamTokens.length_le (h : ParamTokens ts params variadic) : params.length ≤ ts.length := by
  induction h with
  | ellipsis => simp
  | last param => simp [Param.tokens]
  | cons param _ ih =>
    simp only [List.length_cons, List.length_append]
    omega

theorem ParamTokens.exists_cons (h : ParamTokens ts params variadic) :
    ∃ t us, ts = t :: us ∧ t ≠ .symbol .closeParen := by
  cases h with
  | ellipsis => exact ⟨_, _, rfl, by simp⟩
  | last param => exact ⟨_, _, rfl, param.type.token_ne_symbol _⟩
  | cons param _ => exact ⟨_, _, rfl, param.type.token_ne_symbol _⟩

end Params

/-- The parameters of a function in parentheses. -/
inductive ArgumentTokens : List Token → List Param × Bool → Prop
  | none : ArgumentTokens [.symbol .openParen, .symbol .closeParen] ([], false)
  | some {ts params variadic} : ParamTokens ts params variadic →
      DistinctNames (params.map Param.name) →
      ArgumentTokens (.symbol .openParen :: (ts ++ [.symbol .closeParen])) (params, variadic)

/-- The result of a function; `void` may be left out. -/
inductive ResultTokens : List Token → TypeName → Prop
  | void : ResultTokens [] (.prim .void)
  | written (type : TypeName) : ResultTokens [.symbol .arrow, type.token] type

/-- The name, parameters and result of a function. -/
inductive PrototypeTokens : List Token → Proto → Prop
  | mk {ts us params variadic result} (name : Ident) : ArgumentTokens ts (params, variadic) →
      ResultTokens us result →
      PrototypeTokens (.ident name :: (ts ++ us)) ⟨name, params, variadic, result⟩

/-- The tokens of attributes. -/
def attributeTokens (attributes : List Ident) : List Token :=
  attributes.flatMap fun name => [.symbol .atSign, .ident name]

/-- The tokens of the fields of a struct. -/
def fieldTokens (fields : List Param) : List Token :=
  fields.flatMap fun field => field.tokens ++ [.symbol .semicolon]

/-- The value of a global, if it has one. -/
inductive InitialTokens : List Token → Option Lit → Prop
  | none : InitialTokens [] none
  | some {ts l} : LiteralTokens ts l → InitialTokens (.symbol .assign :: ts) (some l)

/-- A declaration whose blocks have room for `room` levels. -/
inductive DeclarationTokens (room : Nat) : List Token → Decl → Prop
  | struct (name : Ident) (fields : List Param) : DistinctNames (fields.map Param.name) →
      DeclarationTokens room
        (.keyword .struct :: .ident name :: .symbol .openCurly ::
          (fieldTokens fields ++ [.symbol .closeCurly]))
        (.struct name fields)
  | global {ts value} (type : TypeName) (name : Ident) : InitialTokens ts value →
      DeclarationTokens room
        (.keyword .global :: type.token :: .ident name :: (ts ++ [.symbol .semicolon]))
        (.global type name value)
  | external {ts proto} (attributes : List Ident) : PrototypeTokens ts proto →
      DeclarationTokens room
        (attributeTokens attributes ++
          .keyword .external :: .keyword .fn :: (ts ++ [.symbol .semicolon]))
        (.external attributes proto)
  | function {ts us proto body} (attributes : List Ident) : PrototypeTokens ts proto →
      BlockTokens room us body →
      DeclarationTokens room (attributeTokens attributes ++ .keyword .fn :: (ts ++ us))
        (.function attributes proto body)

/-- A module without what follows it. -/
inductive ModuleTokens (room : Nat) : List Token → Module → Prop
  | mk {ts m} : Sequence (DeclarationTokens room) ts m.decls →
      DistinctNames (m.decls.map Decl.name) →
      ModuleTokens room
        (.keyword .module :: .ident m.name :: .symbol .openCurly ::
          (ts ++ [.symbol .closeCurly])) m

end Grammar

end FrontEnd
