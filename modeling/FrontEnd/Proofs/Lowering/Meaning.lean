import FrontEnd.Proofs.Lowering.Translation
import Mathlib.Logic.Function.Basic

/-!
# What programs mean

The meaning of a function, twice: of its body as it is written, and of its code.  Both
are relative to an interpretation, which says what constants and operators are, what
reading a global gives in a state of the world, and what calling a function gives and
does to the world.  A trace keeps the calls that were made.

Written statements run in order, operands and arguments from left to right.  A
declaration binds a name for the rest of its block, and a return ends the function from
within any block.  Code runs from its first instruction up to the first return.

A name without a value, or an operand without one, has no meaning, and neither has what
contains it.

## Main definitions

* `Interpretation`, `Trace`.
* `evalExpr`, `runStmt`, `callWritten`: functions as they are written.
* `execute`, `callCode`: functions as code.
* `Holds`, `Computes`: what code keeps in slots, and what running it changes.
-/

namespace FrontEnd.Lowering

open Code Phrase

/-- What the parts of a program mean that the program does not say itself. -/
structure Interpretation (Value World : Type) where
  /-- An integer of a number of bits. -/
  int : Int → Nat → Value
  bool : Bool → Value
  char : Char → Value
  /-- What a call of a void function gives. -/
  unit : Value
  binary : Operator → Value → Value → Value
  /-- What a global holds. -/
  global : Ident → World → Value
  /-- What a call gives, and the world after it. -/
  call : Ident → List Value → World → Value × World

/-- The world, and the calls made so far. -/
structure Trace (Value World : Type) where
  world : World
  calls : List (Ident × List Value)

variable {Value World : Type}

/-- Make a call. -/
def Trace.call (I : Interpretation Value World) (t : Trace Value World) (name : Ident)
    (arguments : List Value) : Value × Trace Value World :=
  let (value, world) := I.call name arguments t.world
  (value, ⟨world, t.calls ++ [(name, arguments)]⟩)

/-! ## Functions as they are written -/

/-- The value of a literal. -/
def Interpretation.literal (I : Interpretation Value World) : Lit → Value
  | .int value => I.int value (Width.fitting value).bits
  | .bool value => I.bool value
  | .char value => I.char value

section Written

variable (I : Interpretation Value World) (m : Phrase.Module)

mutual

/-- The value of an expression where names are bound to values. -/
def evalExpr (env : List (Ident × Value)) :
    Expr → Trace Value World → Option (Value × Trace Value World)
  | .literal l, t => some (I.literal l, t)
  | .reference name, t =>
    match assoc? env name with
    | some value => some (value, t)
    | none =>
      match m.item? name with
      | some (.global _ own _) => some (I.global own t.world, t)
      | _ => none
  | .call callee arguments, t =>
    match (m.item? callee).bind Decl.proto? with
    | none => none
    | some proto => do
      let (values, t) ← evalAll env arguments t
      let (value, t) := t.call I proto.name values
      return (if proto.result = .prim .void then I.unit else value, t)
  | .binary op lhs rhs, t => do
    let (a, t) ← evalExpr env lhs t
    let (b, t) ← evalExpr env rhs t
    return (I.binary op a b, t)

/-- The values of expressions in order. -/
def evalAll (env : List (Ident × Value)) :
    List Expr → Trace Value World → Option (List Value × Trace Value World)
  | [], t => some ([], t)
  | e :: rest, t => do
    let (value, t) ← evalExpr env e t
    let (values, t) ← evalAll env rest t
    return (value :: values, t)

end

/-- How a statement ends. -/
inductive Flow (Value : Type)
  /-- The next statement follows, with these names bound. -/
  | next (env : List (Ident × Value))
  /-- The function has returned. -/
  | returned (value : Option Value)

mutual

/-- Run a statement where names are bound to values. -/
def runStmt : Stmt → List (Ident × Value) → Trace Value World →
    Option (Flow Value × Trace Value World)
  | .block body, env, t => do
    match ← runAll body env t with
    | (.next _, t) => return (.next env, t)
    | (.returned value, t) => return (.returned value, t)
  | .varDecl name _ value, env, t => do
    let (value, t) ← evalExpr I m env value t
    return (.next ((name, value) :: env), t)
  | .ret none, _, t => return (.returned none, t)
  | .ret (some value), env, t => do
    let (value, t) ← evalExpr I m env value t
    return (.returned (some value), t)
  | .exprStatement value, env, t => do
    let (_, t) ← evalExpr I m env value t
    return (.next env, t)

/-- Run statements in order, up to the first that returns. -/
def runAll : List Stmt → List (Ident × Value) → Trace Value World →
    Option (Flow Value × Trace Value World)
  | [], env, t => return (.next env, t)
  | st :: rest, env, t => do
    match ← runStmt st env t with
    | (.next env, t) => runAll rest env t
    | (.returned value, t) => return (.returned value, t)

end

/-- Call a function as it is written: what it returns, and the trace. -/
def callWritten (proto : Proto) (body : List Stmt) (arguments : List Value) (world : World) :
    Option (Option Value × Trace Value World) := do
  match ← runAll I m body ((proto.params.map Param.name).zip arguments) ⟨world, []⟩ with
  | (.next _, t) => return (none, t)
  | (.returned value, t) => return (value, t)

end Written

/-! ## Functions as code -/

/-- The value of a constant. -/
def Interpretation.constant (I : Interpretation Value World) : Constant → Value
  | .int value bits => I.int value bits
  | .bool value => I.bool value
  | .char value => I.char value

section Code

variable (I : Interpretation Value World) (P : Program)

/-- The value of an operand where slots hold values. -/
def operandValue (slots : Nat → Option Value) : Operand → Option Value
  | .slot index => slots index
  | .const value => some (I.constant value)
  | .function _ => none
  | .void => some I.unit

/-- Put a value into a slot. -/
def store (slots : Nat → Option Value) (index : Nat) (value : Value) : Nat → Option Value :=
  Function.update slots index (some value)

/-- Run instructions up to the first return. -/
def execute : List Instr → (Nat → Option Value) → Trace Value World →
    Option (Option Value × Trace Value World)
  | [], _, _ => none
  | .move value output :: rest, slots, t => do
    let value ← operandValue I slots value
    execute rest (store slots output value) t
  | .load source output :: rest, slots, t =>
    execute rest (store slots output (I.global source t.world)) t
  | .binary op lhs rhs output :: rest, slots, t => do
    let a ← operandValue I slots lhs
    let b ← operandValue I slots rhs
    execute rest (store slots output (I.binary op a b)) t
  | .call target arguments output :: rest, slots, t => do
    let F ← P.functions[target]?
    let values ← arguments.mapM (operandValue I slots)
    let (value, t) := t.call I F.name values
    match output with
    | some output => execute rest (store slots output value) t
    | none => execute rest slots t
  | .ret none :: _, _, t => return (none, t)
  | .ret (some value) :: _, slots, t => do
    let value ← operandValue I slots value
    return (some value, t)

/-- Call a function as code, with its arguments in the first slots. -/
def callCode (code : List Instr) (arguments : List Value) (world : World) :
    Option (Option Value × Trace Value World) :=
  execute I P code (fun index => arguments[index]?) ⟨world, []⟩

end Code

/-! ## Code for expressions -/

section Simulation

variable {I : Interpretation Value World} {m : Phrase.Module} {P : Program} {n n' : Nat}
  {locals : Locals} {env : List (Ident × Value)} {slots slots' : Nat → Option Value}
  {code : List Instr} {t : Trace Value World} {op : Operand} {operands : List Operand}
  {body : List Stmt}

/-- The slots below `n` hold the values of the locals. -/
def Holds (n : Nat) (slots : Nat → Option Value) (locals : Locals) (env : List (Ident × Value)) :
    Prop :=
  List.Forall₂ (fun l e => l.1 = e.1 ∧ l.2 < n ∧ slots l.2 = some e.2) locals env

/-- The slots below `n` are as they were. -/
def Keeps (n : Nat) (slots slots' : Nat → Option Value) : Prop := ∀ i < n, slots' i = slots i

/-- The operand is in a slot below `n`, if in any. -/
def operandBelow (n : Nat) (op : Operand) : Prop := ∀ i, op = .slot i → i < n

theorem Keeps.refl (n : Nat) (slots : Nat → Option Value) : Keeps n slots slots := fun _ _ => rfl

theorem Keeps.trans {slots'' : Nat → Option Value} (h : Keeps n slots slots')
    (h' : Keeps n' slots' slots'') (hle : n ≤ n') : Keeps n slots slots'' :=
  fun i hi => (h' i (by omega)).trans (h i hi)

theorem keeps_store (slots : Nat → Option Value) (value : Value) (hle : n ≤ n') :
    Keeps n slots (store slots n' value) := by
  intro i hi
  rw [store, Function.update_of_ne (by omega)]

theorem store_self (slots : Nat → Option Value) (value : Value) :
    store slots n value n = some value := Function.update_self ..

theorem Holds.keep (h : Holds n slots locals env) (hkeeps : Keeps n slots slots') (hle : n ≤ n') :
    Holds n' slots' locals env :=
  h.imp fun l e ⟨hname, hlt, hvalue⟩ => ⟨hname, by omega, (hkeeps l.2 hlt).trans hvalue⟩

/-- Locals and the values bound to names agree on which names they have. -/
theorem Holds.assoc?_cases (h : Holds n slots locals env) (name : Ident) :
    (assoc? locals name = none ∧ assoc? env name = none) ∨
      ∃ slot value, assoc? locals name = some slot ∧ assoc? env name = some value ∧
        slot < n ∧ slots slot = some value :=
  FrontEnd.assoc?_cases (R := fun slot value => slot < n ∧ slots slot = some value) h name

theorem operandValue_keep (hop : operandBelow n op) (hkeeps : Keeps n slots slots') :
    operandValue I slots' op = operandValue I slots op := by
  cases op with
  | slot index => exact hkeeps index (hop index rfl)
  | _ => rfl

variable (I P n slots t) in
/-- Code runs through, leaves the slots that are taken alone, and goes on. -/
structure Computes (code : List Instr) (n' : Nat) (slots' : Nat → Option Value)
    (t' : Trace Value World) : Prop where
  le : n ≤ n'
  keeps : Keeps n slots slots'
  execute_eq : ∀ rest, execute I P (code ++ rest) slots t = execute I P rest slots' t'

variable (I P n slots t) in
theorem Computes.nil : Computes I P n slots t [] n slots t :=
  ⟨Nat.le_refl n, .refl n slots, fun _ => rfl⟩

theorem Computes.append {n'' : Nat} {slots'' : Nat → Option Value} {code' : List Instr}
    {t' t'' : Trace Value World} (h : Computes I P n slots t code n' slots' t')
    (h' : Computes I P n' slots' t' code' n'' slots'' t'') :
    Computes I P n slots t (code ++ code') n'' slots'' t'' := by
  refine ⟨Nat.le_trans h.le h'.le, h.keeps.trans h'.keeps h.le, fun rest => ?_⟩
  rw [List.append_assoc, h.execute_eq, h'.execute_eq]

/-- An instruction that puts a value into the next slot. -/
theorem Computes.instr {i : Instr} {value : Value} {t' : Trace Value World}
    (h : ∀ rest, execute I P (i :: rest) slots t = execute I P rest (store slots n value) t') :
    Computes I P n slots t [i] (n + 1) (store slots n value) t' :=
  ⟨by omega, keeps_store slots value (Nat.le_refl n), h⟩

variable (I P n slots t) in
/-- Code gives a phrase's value: it makes the calls that the phrase makes, and leaves
the value in an operand. -/
def Yields (code : List Instr) (op : Operand) (n' : Nat) :
    Option (Value × Trace Value World) → Prop
  | some (value, t') => ∃ slots', Computes I P n slots t code n' slots' t' ∧
      operandValue I slots' op = some value ∧ operandBelow n' op
  | none => False

variable (I P n slots t) in
/-- Code gives the values of phrases, each in its operand. -/
def YieldsAll (code : List Instr) (operands : List Operand) (n' : Nat) :
    Option (List Value × Trace Value World) → Prop
  | some (values, t') => ∃ slots', Computes I P n slots t code n' slots' t' ∧
      operands.mapM (operandValue I slots') = some values
  | none => False

theorem Yields.exists {r : Option (Value × Trace Value World)}
    (h : Yields I P n slots t code op n' r) : ∃ value t' slots', r = some (value, t') ∧
      Computes I P n slots t code n' slots' t' ∧ operandValue I slots' op = some value ∧
      operandBelow n' op := by
  match r, h with
  | some (value, t'), ⟨slots', hcode, hvalue, hop⟩ =>
    exact ⟨value, t', slots', rfl, hcode, hvalue, hop⟩

theorem YieldsAll.exists {r : Option (List Value × Trace Value World)}
    (h : YieldsAll I P n slots t code operands n' r) : ∃ values t' slots', r = some (values, t') ∧
      Computes I P n slots t code n' slots' t' ∧
      operands.mapM (operandValue I slots') = some values := by
  match r, h with
  | some (values, t'), ⟨slots', hcode, hvalues⟩ =>
    exact ⟨values, t', slots', rfl, hcode, hvalues⟩

theorem constant_constantOf (I : Interpretation Value World) (l : Lit) :
    I.constant (constantOf l.sized) = I.literal l := by
  cases l <;> rfl

/-- Code for arguments gives their values, if code for each does.  The slots of earlier
operands are not touched by the code of later arguments. -/
theorem Chained.yieldsAll {arguments : List Expr}
    (h : Chained (ExprCode m P locals) n arguments code operands n')
    (hitem : ∀ a ∈ arguments, ∀ {n n' code op slots t}, ExprCode m P locals n a code op n' →
      Holds n slots locals env → Yields I P n slots t code op n' (evalExpr I m env a t))
    (hholds : Holds n slots locals env) :
    YieldsAll I P n slots t code operands n' (evalAll I m env arguments t) := by
  induction h generalizing slots t with
  | nil n => exact ⟨slots, .nil I P n slots t, rfl⟩
  | @cons n n₁ n₂ a as code codes op ops hhead _ ih =>
    obtain ⟨value, t₁, slots₁, hvalue, hcode, hop, hbelow⟩ :=
      (hitem a (by simp) (t := t) hhead hholds).exists
    obtain ⟨values, t₂, slots₂, hvalues, hcodes, hops⟩ :=
      (ih (fun b hb => hitem b (by simp [hb])) (hholds.keep hcode.keeps hcode.le)
        (t := t₁)).exists
    have hop₂ : operandValue I slots₂ op = some value :=
      (operandValue_keep hbelow hcodes.keeps).trans hop
    rw [evalAll, hvalue]
    simp only [Option.bind_eq_bind, Option.bind_some, hvalues]
    refine ⟨slots₂, hcode.append hcodes, ?_⟩
    rw [List.mapM_cons, hop₂, hops]
    rfl

/-- A call by its place is a call by the name of the function there. -/
theorem execute_call {target : Nat} {name : Ident} {values : List Value} (output : Option Nat)
    (hcalls : Calls P target name) (hoperands : operands.mapM (operandValue I slots) = some values)
    (rest : List Instr) : execute I P (.call target operands output :: rest) slots t =
      match output with
      | some output => execute I P rest (store slots output (t.call I name values).1)
          (t.call I name values).2
      | none => execute I P rest slots (t.call I name values).2 := by
  obtain ⟨F, hF, rfl⟩ := hcalls
  rw [execute, hF, hoperands]
  rfl

/-- The code of an expression gives its value. -/
theorem ExprCode.yields {e : Expr} (h : ExprCode m P locals n e code op n')
    (hholds : Holds n slots locals env) :
    Yields I P n slots t code op n' (evalExpr I m env e t) := by
  induction e generalizing n code op n' slots t with
  | literal l =>
    cases h
    refine ⟨slots, .nil I P n slots t, ?_, fun i hi => by cases hi⟩
    rw [operandValue, constant_constantOf]
  | reference name =>
    cases h with
    | @inSlot _ _ slot hslot =>
      -- A local has a value bound to it.
      rcases hholds.assoc?_cases name with hnone | hsome
      · exact absurd (hslot.symm.trans hnone.1) (by simp)
      · obtain ⟨slot', value, hslot', hvalue, hlt, hholds⟩ := hsome
        obtain rfl : slot' = slot := Option.some.inj (hslot'.symm.trans hslot)
        rw [evalExpr, hvalue]
        refine ⟨slots, .nil I P n slots t, hholds, fun i hi => ?_⟩
        cases hi
        exact hlt
    | @global _ _ type own value hnone hitem =>
      have henv : assoc? env name = none := by
        rcases hholds.assoc?_cases name with hnone' | hsome
        · exact hnone'.2
        · obtain ⟨slot, value, hslot, -⟩ := hsome
          exact absurd (hslot.symm.trans hnone) (by simp)
      rw [evalExpr, henv]
      simp only [hitem]
      refine ⟨_, .instr fun rest => rfl, store_self .., fun i hi => ?_⟩
      cases hi
      omega
  | call callee arguments ih =>
    cases h with
    | @call _ n₁ _ d proto target _ code₁ operands hitem hproto hresult hcalls harguments =>
      obtain ⟨values, t₁, slots₁, hvalues, hcode, hoperands⟩ :=
        (harguments.yieldsAll (fun a ha => ih a ha) hholds).exists (t := t)
      rw [evalExpr, hitem]
      simp only [Option.bind_some, hproto, hvalues, Option.bind_eq_bind, if_neg hresult]
      refine ⟨_, hcode.append (.instr fun rest => execute_call (some n₁) hcalls hoperands rest),
        store_self .., fun i hi => ?_⟩
      cases hi
      omega
    | @callVoid _ n₁ _ d proto target _ code₁ operands hitem hproto hresult hcalls harguments =>
      obtain ⟨values, t₁, slots₁, hvalues, hcode, hoperands⟩ :=
        (harguments.yieldsAll (fun a ha => ih a ha) hholds).exists (t := t)
      rw [evalExpr, hitem]
      simp only [Option.bind_some, hproto, hvalues, Option.bind_eq_bind, if_pos hresult]
      refine ⟨slots₁, hcode.append ⟨Nat.le_refl _, .refl _ _, fun rest => ?_⟩, rfl, fun i hi => ?_⟩
      · exact execute_call none hcalls hoperands rest
      · cases hi
  | binary op lhs rhs ihl ihr =>
    cases h with
    | @binary _ n₁ n₂ _ _ _ left right a b hl hr =>
      obtain ⟨x, t₁, slots₁, hx, hleft, ha, hbelow⟩ := (ihl hl hholds).exists (t := t)
      obtain ⟨y, t₂, slots₂, hy, hright, hb, -⟩ :=
        (ihr hr (hholds.keep hleft.keeps hleft.le)).exists (t := t₁)
      have ha₂ : operandValue I slots₂ a = some x :=
        (operandValue_keep hbelow hright.keeps).trans ha
      rw [evalExpr, hx]
      simp only [Option.bind_eq_bind, Option.bind_some, hy]
      refine ⟨_, (hleft.append hright).append (.instr fun rest => ?_), store_self ..,
        fun i hi => ?_⟩
      · rw [execute, ha₂, hb]
        rfl
      · cases hi
        omega

/-! ## Code for statements -/

variable (I P n slots t) in
/-- Code does what statements do: it goes on where they go on, with what they bind in
its slots, and it returns where they return. -/
def Follows (code : List Instr) (locals' : Locals) (n' : Nat) :
    Option (Flow Value × Trace Value World) → Prop
  | some (.next env', t') => ∃ slots', Computes I P n slots t code n' slots' t' ∧
      Holds n' slots' locals' env'
  | some (.returned value, t') => ∀ rest, execute I P (code ++ rest) slots t = some (value, t')
  | none => False

/-- Code for statements does what they do, if code for each does. -/
theorem Threaded.follows {locals' : Locals}
    (h : Threaded (StmtCode m P) locals n body code locals' n')
    (hitem : ∀ st ∈ body, ∀ {locals locals' n n' code slots env t},
      StmtCode m P locals n st code locals' n' → Holds n slots locals env →
      Follows I P n slots t code locals' n' (runStmt I m st env t))
    (hholds : Holds n slots locals env) :
    Follows I P n slots t code locals' n' (runAll I m body env t) := by
  induction h generalizing slots env t with
  | nil locals n => exact ⟨slots, .nil I P n slots t, hholds⟩
  | @cons locals locals₁ locals₂ n n₁ n₂ st rest code codes hhead _ ih =>
    have hst := hitem st (by simp) (t := t) hhead hholds
    rw [runAll]
    rcases hr : runStmt I m st env t with _ | ⟨env₁ | value, t₁⟩ <;> rw [hr] at hst
    · exact hst.elim
    · obtain ⟨slots₁, hcode, hholds₁⟩ := hst
      have hrest := ih (fun st hst => hitem st (by simp [hst])) hholds₁ (t := t₁)
      simp only [Option.bind_eq_bind, Option.bind_some]
      rcases hr' : runAll I m rest env₁ t₁ with _ | ⟨env₂ | value, t₂⟩ <;> rw [hr'] at hrest
      · exact hrest.elim
      · obtain ⟨slots₂, hcodes, hholds₂⟩ := hrest
        exact ⟨slots₂, hcode.append hcodes, hholds₂⟩
      · intro more
        rw [List.append_assoc, hcode.execute_eq, hrest]
    · intro more
      rw [List.append_assoc, hst]

/-- The code of a statement does what the statement does. -/
theorem StmtCode.follows {st : Stmt} {locals' : Locals}
    (h : StmtCode m P locals n st code locals' n') (hholds : Holds n slots locals env) :
    Follows I P n slots t code locals' n' (runStmt I m st env t) := by
  induction st generalizing locals n code locals' n' slots env t with
  | block body ih =>
    cases h with
    | block hbody =>
      have hall := hbody.follows (fun st hst => ih st hst) hholds (t := t)
      rw [runStmt]
      rcases hr : runAll I m body env t with _ | ⟨env₁ | value, t₁⟩ <;> rw [hr] at hall
      · exact hall.elim
      · obtain ⟨slots₁, hcode, -⟩ := hall
        exact ⟨slots₁, hcode, hholds.keep hcode.keeps hcode.le⟩
      · exact hall
  | varDecl name type value =>
    cases h with
    | @varDecl _ _ n₁ _ _ _ code op hvalue =>
      obtain ⟨v, t₁, slots₁, hv, hcode, hop, -⟩ := (hvalue.yields hholds).exists (t := t)
      rw [runStmt, hv]
      have hmove : Computes I P n₁ slots₁ t₁ [.move op n₁] (n₁ + 1) (store slots₁ n₁ v) t₁ :=
        .instr fun rest => by rw [execute, hop]; rfl
      have hall := hcode.append hmove
      exact ⟨_, hall, .cons ⟨rfl, by simp, store_self ..⟩ (hholds.keep hall.keeps hall.le)⟩
  | ret value =>
    cases h with
    | retNone => exact fun rest => rfl
    | @ret _ _ n₁ value code op hvalue =>
      obtain ⟨v, t₁, slots₁, hv, hcode, hop, -⟩ := (hvalue.yields hholds).exists (t := t)
      rw [runStmt, hv]
      intro rest
      rw [List.append_assoc, hcode.execute_eq, List.singleton_append, execute, hop]
      rfl
  | exprStatement value =>
    cases h with
    | @exprStatement _ _ n₁ value code op hvalue =>
      obtain ⟨v, t₁, slots₁, hv, hcode, -, -⟩ := (hvalue.yields hholds).exists (t := t)
      rw [runStmt, hv]
      exact ⟨slots₁, hcode, hholds.keep hcode.keeps hcode.le⟩

/-! ## Code for functions -/

/-- Statements that end in a return do return. -/
theorem runAll_ne_next (h : endsInReturn body = true) (env env' : List (Ident × Value))
    (t t' : Trace Value World) : runAll I m body env t ≠ some (.next env', t') := by
  induction body generalizing env t with
  | nil => cases h
  | cons st rest ih =>
    rw [runAll]
    intro hnext
    obtain ⟨⟨flow, t₁⟩, hst, hrest⟩ := Option.bind_eq_some_iff.mp hnext
    cases flow with
    | returned value => cases hrest
    | next env₁ =>
      cases rest with
      | nil =>
        -- The one statement is the return, after which nothing goes on.
        cases st with
        | ret value =>
          cases value with
          | none => cases hst
          | some value =>
            obtain ⟨_, _, hreturned⟩ := Option.bind_eq_some_iff.mp hst
            cases hreturned
        | _ => cases h
      | cons st' rest =>
        refine ih ?_ env₁ t₁ hrest
        rwa [endsInReturn, List.getLast?_cons_cons] at h

/-- Arguments are in the slots of the parameters. -/
theorem holds_parameters (proto : Proto) {arguments : List Value}
    (h : arguments.length = proto.params.length) :
    Holds proto.params.length (fun index => arguments[index]?) (parameterSlots proto)
      ((proto.params.map Param.name).zip arguments) := by
  rw [Holds, List.forall₂_iff_get]
  constructor
  · simp [parameterSlots, h]
  · intro i hi hi'
    simp only [parameterSlots, List.length_zipIdx, List.length_map] at hi
    simp [parameterSlots, hi, h]

/-- The code of a function does what the function does: both return, with the same
value, after the same calls, in the same world. -/
theorem FunctionCode.call_eq {proto : Proto} (I : Interpretation Value World)
    (h : FunctionCode m P proto body code) {arguments : List Value}
    (hlen : arguments.length = proto.params.length) (world : World) :
    ∃ r, callWritten I m proto body arguments world = some r ∧
      callCode I P code arguments world = some r := by
  obtain ⟨main, locals, n, hmain, rfl⟩ := h
  have hall := hmain.follows (I := I) (fun st _ => StmtCode.follows) (holds_parameters proto hlen)
    (t := ⟨world, []⟩)
  rw [callWritten, callCode]
  rcases hr : runAll I m body ((proto.params.map Param.name).zip arguments) ⟨world, []⟩ with
    _ | ⟨env | value, t⟩ <;> rw [hr] at hall
  · exact hall.elim
  · obtain ⟨slots, hcode, -⟩ := hall
    refine ⟨(none, t), rfl, ?_⟩
    split
    case isTrue hreturn => exact (runAll_ne_next hreturn _ _ _ _ hr).elim
    case isFalse => rw [hcode.execute_eq, execute]; rfl
  · refine ⟨(value, t), rfl, ?_⟩
    split
    case isTrue => simpa using hall []
    case isFalse => exact hall _

end Simulation

end FrontEnd.Lowering
