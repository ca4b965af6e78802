import FrontEnd.Lowering.Visit
import FrontEnd.Proofs.Phrase.Basic

/-!
# Code for phrases

Which instructions stand for a phrase, said without the visits that emit them.
`ExprCode m P locals n e code op n'` says of an expression `e`: where the locals are in
their slots and the slots from `n` on are free, `code` computes the operand `op` and
leaves the slots from `n'` on free.  A call names its function by its place in the
program `P`, where functions are only ever added, so that code stays what it was.

## Main definitions

* `ExprCode`, `StmtCode`, `FunctionCode`: code for expressions, statements and functions.
* `Grows`: a program with the functions of another at the same places.
-/

namespace FrontEnd.Lowering

open Code Phrase

/-- Local names with their slots. -/
abbrev Locals := List (Ident × Nat)

/-! ## Places of functions -/

/-- The function at a place of a program has a name. -/
def Calls (P : Program) (target : Nat) (name : Ident) : Prop :=
  ∃ F, P.functions[target]? = some F ∧ F.name = name

/-- Every function of a program has the same name at the same place of another. -/
def Grows (P P' : Program) : Prop := ∀ target name, Calls P target name → Calls P' target name

/-! ## Expressions -/

/-- Code for phrases one after the other. -/
inductive Chained {α β : Type} (Item : Nat → α → List Instr → β → Nat → Prop) :
    Nat → List α → List Instr → List β → Nat → Prop
  | nil (n : Nat) : Chained Item n [] [] [] n
  | cons {n n₁ n₂ a as code codes b bs} : Item n a code b n₁ → Chained Item n₁ as codes bs n₂ →
      Chained Item n (a :: as) (code ++ codes) (b :: bs) n₂

/-- Code for an expression. -/
inductive ExprCode (m : Phrase.Module) (P : Program) (locals : Locals) :
    Nat → Expr → List Instr → Operand → Nat → Prop
  | literal {n} (l : Lit) :
      ExprCode m P locals n (.literal l) [] (.const (constantOf l.sized)) n
  | inSlot {n name slot} : assoc? locals name = some slot →
      ExprCode m P locals n (.reference name) [] (.slot slot) n
  | global {n name type own value} : assoc? locals name = none →
      m.item? name = some (.global type own value) →
      ExprCode m P locals n (.reference name) [.load own n] (.slot n) (n + 1)
  | call {n n' callee d proto target arguments code operands} : m.item? callee = some d →
      d.proto? = some proto → proto.result ≠ .prim .void → Calls P target proto.name →
      Chained (ExprCode m P locals) n arguments code operands n' →
      ExprCode m P locals n (.call callee arguments)
        (code ++ [.call target operands (some n')]) (.slot n') (n' + 1)
  | callVoid {n n' callee d proto target arguments code operands} : m.item? callee = some d →
      d.proto? = some proto → proto.result = .prim .void → Calls P target proto.name →
      Chained (ExprCode m P locals) n arguments code operands n' →
      ExprCode m P locals n (.call callee arguments)
        (code ++ [.call target operands none]) .void n'
  | binary {n n₁ n₂ op lhs rhs left right a b} : ExprCode m P locals n lhs left a n₁ →
      ExprCode m P locals n₁ rhs right b n₂ →
      ExprCode m P locals n (.binary op lhs rhs) (left ++ right ++ [.binary op a b n₂]) (.slot n₂)
        (n₂ + 1)

/-! ## Statements -/

/-- Code for statements one after the other; what one declares is a local of the next. -/
inductive Threaded {α : Type} (Item : Locals → Nat → α → List Instr → Locals → Nat → Prop) :
    Locals → Nat → List α → List Instr → Locals → Nat → Prop
  | nil (locals : Locals) (n : Nat) : Threaded Item locals n [] [] locals n
  | cons {locals locals₁ locals₂ n n₁ n₂ a as code codes} : Item locals n a code locals₁ n₁ →
      Threaded Item locals₁ n₁ as codes locals₂ n₂ →
      Threaded Item locals n (a :: as) (code ++ codes) locals₂ n₂

/-- Code for a statement.  The locals of a block end with it. -/
inductive StmtCode (m : Phrase.Module) (P : Program) :
    Locals → Nat → Stmt → List Instr → Locals → Nat → Prop
  | block {locals locals' n n' body code} :
      Threaded (StmtCode m P) locals n body code locals' n' →
      StmtCode m P locals n (.block body) code locals n'
  | varDecl {locals n n' name type value code op} : ExprCode m P locals n value code op n' →
      StmtCode m P locals n (.varDecl name type value) (code ++ [.move op n'])
        ((name, n') :: locals) (n' + 1)
  | retNone {locals n} : StmtCode m P locals n (.ret none) [.ret none] locals n
  | ret {locals n n' value code op} : ExprCode m P locals n value code op n' →
      StmtCode m P locals n (.ret (some value)) (code ++ [.ret (some op)]) locals n'
  | exprStatement {locals n n' value code op} : ExprCode m P locals n value code op n' →
      StmtCode m P locals n (.exprStatement value) code locals n'

/-! ## Functions -/

/-- The last of some statements is a return. -/
def endsInReturn (body : List Stmt) : Bool :=
  match body.getLast? with
  | some (.ret _) => true
  | _ => false

/-- The parameters of a function are in the first slots. -/
def parameterSlots (proto : Proto) : Locals := (proto.params.map Param.name).zipIdx

/-- Code for a function: that of its body, with a return at the end if there is none. -/
def FunctionCode (m : Phrase.Module) (P : Program) (proto : Proto) (body : List Stmt)
    (code : List Instr) : Prop :=
  ∃ main locals n, Threaded (StmtCode m P) (parameterSlots proto) proto.params.length body main
      locals n ∧ code = if endsInReturn body then main else main ++ [.ret none]

/-! ## Growing programs -/

section Mono

variable {m : Phrase.Module} {P P' : Program} {n n' : Nat} {code : List Instr}

theorem Chained.imp {α β : Type} {Item Item' : Nat → α → List Instr → β → Nat → Prop}
    {as : List α} {bs : List β} (h : Chained Item n as code bs n')
    (himp : ∀ a ∈ as, ∀ {n code b n'}, Item n a code b n' → Item' n a code b n') :
    Chained Item' n as code bs n' := by
  induction h with
  | nil n => exact .nil n
  | cons hhead _ ih =>
    exact .cons (himp _ (by simp) hhead) (ih fun a ha => himp a (by simp [ha]))

variable {locals : Locals}

theorem Threaded.imp {α : Type} {Item Item' : Locals → Nat → α → List Instr → Locals → Nat → Prop}
    {as : List α} {locals' : Locals} (h : Threaded Item locals n as code locals' n')
    (himp : ∀ a ∈ as, ∀ {locals n code locals' n'}, Item locals n a code locals' n' →
      Item' locals n a code locals' n') :
    Threaded Item' locals n as code locals' n' := by
  induction h with
  | nil locals n => exact .nil locals n
  | cons hhead _ ih =>
    exact .cons (himp _ (by simp) hhead) (ih fun a ha => himp a (by simp [ha]))

variable (hgrows : Grows P P')
include hgrows

theorem ExprCode.grow {e : Expr} {op : Operand} (h : ExprCode m P locals n e code op n') :
    ExprCode m P' locals n e code op n' := by
  induction e generalizing n code op n' with
  | literal l =>
    cases h
    exact .literal l
  | reference name =>
    cases h with
    | inSlot hslot => exact .inSlot hslot
    | global hnone hitem => exact .global hnone hitem
  | call callee arguments ih =>
    cases h with
    | call hitem hproto hresult hcalls harguments =>
      exact .call hitem hproto hresult (hgrows _ _ hcalls) (harguments.imp fun a ha => ih a ha)
    | callVoid hitem hproto hresult hcalls harguments =>
      exact .callVoid hitem hproto hresult (hgrows _ _ hcalls) (harguments.imp fun a ha => ih a ha)
  | binary op lhs rhs ihl ihr =>
    cases h with
    | binary hl hr => exact .binary (ihl hl) (ihr hr)

theorem StmtCode.grow {locals' : Locals} {st : Stmt}
    (h : StmtCode m P locals n st code locals' n') : StmtCode m P' locals n st code locals' n' := by
  induction st generalizing locals n code locals' n' with
  | block body ih =>
    cases h with
    | block hbody => exact .block (hbody.imp fun st hst => ih st hst)
  | varDecl name type value =>
    cases h with
    | varDecl hvalue => exact .varDecl (hvalue.grow hgrows)
  | ret value =>
    cases h with
    | retNone => exact .retNone
    | ret hvalue => exact .ret (hvalue.grow hgrows)
  | exprStatement value =>
    cases h with
    | exprStatement hvalue => exact .exprStatement (hvalue.grow hgrows)

theorem FunctionCode.grow {proto : Proto} {body : List Stmt}
    (h : FunctionCode m P proto body code) : FunctionCode m P' proto body code := by
  obtain ⟨main, locals, n, hmain, hcode⟩ := h
  exact ⟨main, locals, n, hmain.imp fun _ _ => StmtCode.grow hgrows, hcode⟩

end Mono

end FrontEnd.Lowering
