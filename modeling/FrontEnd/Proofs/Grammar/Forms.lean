import FrontEnd.Proofs.Grammar.Printing

/-!
# Expressions as they are written

A form is an expression with its parentheses and its signs: all that the tokens show and the tree
does not keep.  It has one list of tokens and one expression, so that a form is a derivation in the
grammar of expressions.  Parentheses may stand anywhere in a form; that those which are called for
are there is what `Form.Grouped` says.

## Main definitions

* `LitForm`, `Form`: literals and expressions as they are written.
* `Form.tokens`, `Form.expr`: the tokens, and the expression without parentheses.
* `Form.Grouped`: operands bind tightly enough, or are in parentheses.
* `Form.depth`: how many expressions are open at once inside of a form.

## Main statements

* `expressionTokens_iff`: the ways to write an expression are its forms.
-/

namespace FrontEnd

namespace Operator

/-- An operator may stand without parentheses in the left operand of another: it binds tighter, or
equally tightly and from the left. -/
def StandsLeft (op inner : Operator) : Prop :=
  op.precedence < inner.precedence ∨
    op.precedence = inner.precedence ∧ op.isRightAssociative = false

/-- An operator may stand without parentheses in the right operand of another: it binds tighter, or
equally tightly and from the right. -/
def StandsRight (op inner : Operator) : Prop :=
  op.precedence < inner.precedence ∨
    op.precedence = inner.precedence ∧ op.isRightAssociative = true

instance (op inner : Operator) : Decidable (op.StandsLeft inner) :=
  inferInstanceAs (Decidable (_ ∨ _))

instance (op inner : Operator) : Decidable (op.StandsRight inner) :=
  inferInstanceAs (Decidable (_ ∨ _))

theorem standsLeft_iff {op inner : Operator} :
    op.StandsLeft inner ↔ op.leftPrecedence ≤ inner.precedence := by
  cases op <;> cases inner <;> decide

theorem standsRight_iff {op inner : Operator} :
    op.StandsRight inner ↔ op.operandPrecedence ≤ inner.precedence := by
  cases op <;> cases inner <;> decide

end Operator

namespace Grammar

open Phrase

/-! ## Literals -/

/-- A literal as it is written. -/
inductive LitForm
  | int (n : Nat)
  | negative (n : Nat)
  | bool (b : Bool)
  | char (c : Char)

namespace LitForm

/-- The tokens of a literal. -/
def tokens : LitForm → List Token
  | .int n => [.integer n]
  | .negative n => [.symbol .minus, .integer n]
  | .bool b => [.keyword (.truth b)]
  | .char c => [.character c]

/-- The literal that is written. -/
def lit : LitForm → Lit
  | .int n => .int n
  | .negative n => .int (-n)
  | .bool b => .bool b
  | .char c => .char c

end LitForm

theorem literalTokens_iff {ts : List Token} {l : Lit} :
    LiteralTokens ts l ↔ ∃ f : LitForm, f.tokens = ts ∧ f.lit = l := by
  constructor
  · intro h
    cases h with
    | int n => exact ⟨.int n, rfl, rfl⟩
    | negative n => exact ⟨.negative n, rfl, rfl⟩
    | bool b => exact ⟨.bool b, rfl, rfl⟩
    | char c => exact ⟨.char c, rfl, rfl⟩
  · rintro ⟨f, rfl, rfl⟩
    cases f with
    | int n => exact .int n
    | negative n => exact .negative n
    | bool b => exact .bool b
    | char c => exact .char c

/-! ## Forms -/

/-- An expression as it is written. -/
inductive Form
  | literal (value : LitForm)
  | reference (name : Ident)
  | call (callee : Ident) (arguments : List Form)
  | paren (inner : Form)
  | binary (op : Operator) (lhs rhs : Form)

/-- Induction on forms, with the hypothesis for each argument of a call. -/
@[induction_eliminator]
theorem Form.induct {motive : Form → Prop}
    (literal : ∀ value, motive (.literal value))
    (reference : ∀ name, motive (.reference name))
    (call : ∀ callee arguments, (∀ a ∈ arguments, motive a) → motive (.call callee arguments))
    (paren : ∀ inner, motive inner → motive (.paren inner))
    (binary : ∀ op lhs rhs, motive lhs → motive rhs → motive (.binary op lhs rhs)) :
    ∀ f, motive f :=
  @Form.rec motive (fun arguments => ∀ a ∈ arguments, motive a)
    literal reference call paren binary
    (by simp) (fun _ _ head tail => List.forall_mem_cons.mpr ⟨head, tail⟩)

mutual

/-- The tokens of a form. -/
def Form.tokens : Form → List Token
  | .literal value => value.tokens
  | .reference name => [.ident name]
  | .call callee arguments => .ident callee :: inParens (separated (tokenLists arguments))
  | .paren inner => inParens inner.tokens
  | .binary op lhs rhs => lhs.tokens ++ .symbol op.symbol :: rhs.tokens

/-- The tokens of some forms, each for itself. -/
def tokenLists : List Form → List (List Token)
  | [] => []
  | f :: rest => f.tokens :: tokenLists rest

end

mutual

/-- The expression that is written. -/
def Form.expr : Form → Expr
  | .literal value => .literal value.lit
  | .reference name => .reference name
  | .call callee arguments => .call callee (exprs arguments)
  | .paren inner => inner.expr
  | .binary op lhs rhs => .binary op lhs.expr rhs.expr

/-- The expressions that some forms are. -/
def exprs : List Form → List Expr
  | [] => []
  | f :: rest => f.expr :: exprs rest

end

/-- The operator of a form that is not in parentheses. -/
def Form.operator? : Form → Option Operator
  | .binary op _ _ => some op
  | _ => none

mutual

/-- No operand that is not in parentheses has an operator that binds less tightly than the one it is
an operand of, nor one that binds equally tightly on the side that its associativity leaves. -/
def Form.Grouped : Form → Prop
  | .literal _ => True
  | .reference _ => True
  | .call _ arguments => AllGrouped arguments
  | .paren inner => inner.Grouped
  | .binary op lhs rhs => (lhs.Grouped ∧ rhs.Grouped) ∧
      (∀ inner ∈ lhs.operator?, op.StandsLeft inner) ∧
      ∀ inner ∈ rhs.operator?, op.StandsRight inner

/-- Every one of some forms is grouped. -/
def AllGrouped : List Form → Prop
  | [] => True
  | f :: rest => f.Grouped ∧ AllGrouped rest

end

mutual

def Form.decideGrouped : (f : Form) → Decidable f.Grouped
  | .literal _ => isTrue trivial
  | .reference _ => isTrue trivial
  | .call _ arguments => decideAllGrouped arguments
  | .paren inner => inner.decideGrouped
  | .binary op lhs rhs =>
    have := lhs.decideGrouped
    have := rhs.decideGrouped
    inferInstanceAs (Decidable ((lhs.Grouped ∧ rhs.Grouped) ∧
      (∀ inner ∈ lhs.operator?, op.StandsLeft inner) ∧
      ∀ inner ∈ rhs.operator?, op.StandsRight inner))

def decideAllGrouped : (fs : List Form) → Decidable (AllGrouped fs)
  | [] => isTrue trivial
  | f :: rest =>
    have := f.decideGrouped
    have := decideAllGrouped rest
    inferInstanceAs (Decidable (f.Grouped ∧ AllGrouped rest))

end

instance (f : Form) : Decidable f.Grouped := f.decideGrouped

mutual

/-- How many further expressions are open at once in a form: those in parentheses, and the arguments
of calls. -/
def Form.depth : Form → Nat
  | .literal _ => 0
  | .reference _ => 0
  | .call _ arguments => greatestDepth arguments
  | .paren inner => inner.depth + 1
  | .binary _ lhs rhs => max lhs.depth rhs.depth

/-- How many expressions are open at once in some forms. -/
def greatestDepth : List Form → Nat
  | [] => 0
  | f :: rest => max (f.depth + 1) (greatestDepth rest)

end

variable {fs : List Form} {Item : List Token → Expr → Prop} {e : Expr}

theorem allGrouped_iff : AllGrouped fs ↔ ∀ f ∈ fs, f.Grouped := by
  induction fs with
  | nil => simp [AllGrouped]
  | cons f rest ih => rw [AllGrouped, ih, List.forall_mem_cons]

theorem greatestDepth_le_iff {n : Nat} : greatestDepth fs ≤ n ↔ ∀ f ∈ fs, f.depth < n := by
  induction fs with
  | nil => simp [greatestDepth]
  | cons f rest ih => rw [greatestDepth, Nat.max_le, ih, List.forall_mem_cons, Nat.succ_le_iff]

/-! ## Forms and the grammar -/

variable {room least : Nat} {ts : List Token}

/-- Forms with commas between them are written as the grammar says if each of them is. -/
theorem separated_tokenLists (hne : fs ≠ []) (h : ∀ f ∈ fs, Item f.tokens f.expr) :
    Separated Item (separated (tokenLists fs)) (exprs fs) := by
  induction fs with
  | nil => exact absurd rfl hne
  | cons f rest ih =>
    obtain ⟨hfirst, hrest⟩ := List.forall_mem_cons.mp h
    cases rest with
    | nil => exact .last hfirst
    | cons f' rest => exact .cons hfirst (ih (by simp) hrest)

theorem callTokens_tokenLists (h : ∀ f ∈ fs, Item f.tokens f.expr) :
    CallTokens Item (separated (tokenLists fs)) (exprs fs) := by
  cases fs with
  | nil => exact .none
  | cons f rest => exact .some (separated_tokenLists (by simp) h)

/-- A form whose operator binds tightly enough is written as the grammar says at that level. -/
theorem Form.levelTokens {f : Form} (hgrouped : f.Grouped) (hdepth : f.depth ≤ room)
    (hleast : ∀ op ∈ f.operator?, least ≤ op.precedence) :
    LevelTokens (PrimaryTokens (ExpressionTokens room)) least f.tokens f.expr := by
  induction f generalizing room least with
  | literal value => exact .operand (.literal (literalTokens_iff.mpr ⟨value, rfl, rfl⟩))
  | reference name => exact .operand (.reference name)
  | call callee arguments ih =>
    rw [Form.Grouped, allGrouped_iff] at hgrouped
    rw [Form.depth, greatestDepth_le_iff] at hdepth
    refine .operand (.call callee (callTokens_tokenLists fun f hf => ?_))
    have hroom := hdepth f hf
    obtain ⟨room, rfl⟩ : ∃ n, room = n + 1 := Nat.exists_eq_add_one.mpr (by omega)
    exact ih f hf (hgrouped f hf) (Nat.le_of_lt_succ hroom) fun _ _ => Nat.zero_le _
  | paren inner ih =>
    rw [Form.depth] at hdepth
    obtain ⟨room, rfl⟩ : ∃ n, room = n + 1 := Nat.exists_eq_add_one.mpr (by omega)
    exact .operand (.paren (ih hgrouped (Nat.le_of_succ_le_succ hdepth) fun _ _ => Nat.zero_le _))
  | binary op lhs rhs ihl ihr =>
    rw [Form.depth, Nat.max_le] at hdepth
    obtain ⟨⟨hl, hr⟩, hleft, hright⟩ := hgrouped
    refine .binary (hleast op rfl) (ihl hl hdepth.1 fun inner hinner => ?_)
      (ihr hr hdepth.2 fun inner hinner => ?_)
    · exact Operator.standsLeft_iff.mp (hleft inner hinner)
    · exact Operator.standsRight_iff.mp (hright inner hinner)

/-- Expressions that are forms, with commas between them, are forms with commas between them. -/
theorem Separated.exists_forms {es : List Expr} (h : Separated Item ts es) {Good : Form → Prop}
    (hitem : ∀ {ts e}, Item ts e → ∃ f : Form, Good f ∧ f.tokens = ts ∧ f.expr = e) :
    ∃ fs : List Form, fs ≠ [] ∧ (∀ f ∈ fs, Good f) ∧ separated (tokenLists fs) = ts ∧
      exprs fs = es := by
  induction h with
  | last ha =>
    obtain ⟨f, hgood, rfl, rfl⟩ := hitem ha
    exact ⟨[f], by simp, by simpa using hgood, rfl, rfl⟩
  | cons ha _ ih =>
    obtain ⟨f, hgood, rfl, rfl⟩ := hitem ha
    obtain ⟨fs, hne, hfs, rfl, rfl⟩ := ih
    cases fs with
    | nil => exact absurd rfl hne
    | cons f' fs =>
      exact ⟨f :: f' :: fs, by simp, List.forall_mem_cons.mpr ⟨hgood, hfs⟩, rfl, rfl⟩

/-- What is written as an operand is a form without an operator outside of parentheses. -/
theorem PrimaryTokens.exists_form {Nested : List Token → Expr → Prop}
    (h : PrimaryTokens Nested ts e) (hnested : ∀ {ts e}, Nested ts e →
      ∃ f : Form, (f.Grouped ∧ f.depth < room) ∧ f.tokens = ts ∧ f.expr = e) :
    ∃ f : Form, (f.Grouped ∧ f.depth ≤ room) ∧ f.operator? = none ∧ f.tokens = ts ∧ f.expr = e := by
  cases h with
  | literal hl =>
    obtain ⟨value, rfl, rfl⟩ := literalTokens_iff.mp hl
    exact ⟨.literal value, ⟨trivial, Nat.zero_le _⟩, rfl, rfl, rfl⟩
  | reference name => exact ⟨.reference name, ⟨trivial, Nat.zero_le _⟩, rfl, rfl, rfl⟩
  | @call us es callee harguments =>
    obtain ⟨fs, hfs, rfl, rfl⟩ : ∃ fs : List Form, (∀ f ∈ fs, f.Grouped ∧ f.depth < room) ∧
        separated (tokenLists fs) = us ∧ exprs fs = es := by
      cases harguments with
      | none => exact ⟨[], by simp, rfl, rfl⟩
      | some hs =>
        obtain ⟨fs, -, hfs⟩ := hs.exists_forms hnested
        exact ⟨fs, hfs⟩
    refine ⟨.call callee fs, ⟨?_, ?_⟩, rfl, rfl, rfl⟩
    · exact allGrouped_iff.mpr fun f hf => (hfs f hf).1
    · exact greatestDepth_le_iff.mpr fun f hf => (hfs f hf).2
  | paren hinner =>
    obtain ⟨f, ⟨hgrouped, hdepth⟩, rfl, rfl⟩ := hnested hinner
    exact ⟨.paren f, ⟨hgrouped, hdepth⟩, rfl, rfl, rfl⟩

/-- What is written at a level is a form whose operator binds tightly enough. -/
theorem LevelTokens.exists_form {Nested : List Token → Expr → Prop}
    (h : LevelTokens (PrimaryTokens Nested) least ts e) (hnested : ∀ {ts e}, Nested ts e →
      ∃ f : Form, (f.Grouped ∧ f.depth < room) ∧ f.tokens = ts ∧ f.expr = e) :
    ∃ f : Form, (f.Grouped ∧ f.depth ≤ room) ∧ (∀ op ∈ f.operator?, least ≤ op.precedence) ∧
      f.tokens = ts ∧ f.expr = e := by
  induction h with
  | operand hoperand =>
    obtain ⟨f, hf, hnone, rfl, rfl⟩ := hoperand.exists_form hnested
    exact ⟨f, hf, by simp [hnone], rfl, rfl⟩
  | @binary least ts us op l r hleast _ _ ihl ihr =>
    obtain ⟨lhs, ⟨hl, hdl⟩, hleft, rfl, rfl⟩ := ihl
    obtain ⟨rhs, ⟨hr, hdr⟩, hright, rfl, rfl⟩ := ihr
    refine ⟨.binary op lhs rhs, ⟨⟨⟨hl, hr⟩, ?_, ?_⟩, Nat.max_le.mpr ⟨hdl, hdr⟩⟩, ?_, rfl, rfl⟩
    · exact fun inner hinner => Operator.standsLeft_iff.mpr (hleft inner hinner)
    · exact fun inner hinner => Operator.standsRight_iff.mpr (hright inner hinner)
    · rintro _ ⟨⟩
      exact hleast

/-- The ways to write an expression with some room are its forms that are not too deep. -/
theorem expressionTokens_iff : ExpressionTokens room ts e ↔
    ∃ f : Form, (f.Grouped ∧ f.depth < room) ∧ f.tokens = ts ∧ f.expr = e := by
  constructor
  · intro h
    induction room generalizing ts e with
    | zero => exact h.elim
    | succ room ih =>
      obtain ⟨f, ⟨hgrouped, hdepth⟩, -, htokens, hexpr⟩ := LevelTokens.exists_form h ih
      exact ⟨f, ⟨hgrouped, Nat.lt_succ_of_le hdepth⟩, htokens, hexpr⟩
  · rintro ⟨f, ⟨hgrouped, hdepth⟩, rfl, rfl⟩
    obtain ⟨room, rfl⟩ : ∃ n, room = n + 1 := Nat.exists_eq_add_one.mpr (by omega)
    exact f.levelTokens hgrouped (Nat.le_of_lt_succ hdepth) fun _ _ => Nat.zero_le _

end Grammar

end FrontEnd
