import FrontEnd.Lowering.Basic

/-!
# Lowering: visiting nodes

Visiting a node yields an operand, a type, or nothing, depending on its kind.  What it
yields is pushed, and the step that needs it pops it, after it has made sure that
nothing else was pushed.  Statements yield nothing and append instructions to the body
in progress.  Operands and call arguments are lowered from left to right.

The visit of one kind of node takes the visit of other nodes as an argument; `visit`
ties the knot, a bounded number of levels deep.

## Main definitions

* `operand`, `type`, `statement`: visit a node that has to yield one of these.
* `visit`: visit any node.
* `lowerModule`: lower the tree under a module, unless it holds error markers.
-/

namespace FrontEnd.Lowering

open Code (Constant Instr Operand Signature)

/-- What visiting a node yields. -/
inductive Yield
  | nothing
  | operand (value : Operand)
  | type (ty : Code.Ty)

/-! ## Types and constants -/

/-- A type in code. -/
def codeType : Ty → Code.Ty
  | .prim (.int width) => .int width.bits
  | .prim .bool => .bool
  | .prim .char => .char
  | .prim .void => .void
  | .struct name _ => .struct name

/-- A literal in code. -/
def constantOf : Literal → Constant
  | .int value width => .int value width.bits
  | .bool value => .bool value
  | .char value => .char value

/-- Whether an integer fits a declared width.  Any width but 8, 16 and 32 takes all. -/
def fitsWidth (bits : Nat) (value : Int) : Bool :=
  if bits = 8 ∨ bits = 16 ∨ bits = 32 then fitsSigned bits value else true

/-- Adapt a constant to a declared type.  Integers change their width if the value
fits; otherwise the types have to agree, and the answer is the type found. -/
def coerce (constant : Constant) (ty : Code.Ty) : Except Code.Ty Constant :=
  match constant, ty with
  | .int value _, .int bits =>
    if fitsWidth bits value then .ok (.int value bits) else .error constant.ty
  | _, _ => if constant.ty = ty then .ok constant else .error constant.ty

/-! ## Stacks -/

/-- Push what a visit yields. -/
def State.push (s : State) : Yield → State
  | .nothing => s
  | .operand value => { s with values := value :: s.values }
  | .type ty => { s with types := ty :: s.types }

/-- Pop the operand that the visit of a node has pushed, and nothing else. -/
def popOperand (id : NodeId) (before : State) : Lower Operand := do
  let after ← get
  match after.values with
  | value :: values =>
    if values.length ≠ before.values.length then fault (.noOperand (← ask (·.kind id)))
    if after.types.length ≠ before.types.length then fault (.touchedTypes (← ask (·.kind id)))
    set { after with values }
    return value
  | [] => fault (.noOperand (← ask (·.kind id)))

/-- Pop the type that the visit of a node has pushed, and nothing else. -/
def popType (id : NodeId) (before : State) : Lower Code.Ty := do
  let after ← get
  match after.types with
  | ty :: types =>
    if types.length ≠ before.types.length then fault (.noType (← ask (·.kind id)))
    if after.values.length ≠ before.values.length then fault (.touchedOperands (← ask (·.kind id)))
    set { after with types }
    return ty
  | [] => fault (.noType (← ask (·.kind id)))

/-- Make sure that the visit of a node has pushed nothing. -/
def popNothing (id : NodeId) (before : State) : Lower Unit := do
  let after ← get
  if after.values.length ≠ before.values.length then fault (.strayOperand (← ask (·.kind id)))
  if after.types.length ≠ before.types.length then fault (.strayType (← ask (·.kind id)))

/-! ## Visits that have to yield something -/

section

variable (visit : NodeId → Lower Yield)

/-- Visit a node, and push what it yields. -/
def accept (id : NodeId) : Lower Unit := do
  let yielded ← visit id
  modify (·.push yielded)

/-- Visit a node that has to yield an operand. -/
def operand (id : NodeId) : Lower Operand := do
  let before ← get
  accept visit id
  popOperand id before

/-- Visit a node that has to yield a type. -/
def type (id : NodeId) : Lower Code.Ty := do
  let before ← get
  accept visit id
  popType id before

/-- Visit a node that has to yield nothing. -/
def statement (id : NodeId) : Lower Unit := do
  let before ← get
  accept visit id
  popNothing id before

/-- Visit a prototype; the place of its function. -/
def functionOf (prototype : NodeId) : Lower Nat := do
  match ← operand visit prototype with
  | .function index => return index
  | other => fault (.notFunction other)

/-! ## One visit for each kind -/

/-- Items in order. -/
def visitModule (m : ModuleNode) : Lower Yield := do
  modifyProgram (·.claimName m.name.text)
  m.items.forM (statement visit)
  return .nothing

/-- A struct type, unless the program has one of that name. -/
def visitStruct (s : StructNode) : Lower Yield := do
  let fields ← s.fields.entries.mapM fun (name, id) => return (name, ← type visit id)
  modifyProgram (·.addStruct ⟨s.name, fields⟩)
  return .nothing

/-- The initial value of a global of a type. -/
def initializer (g : GlobalNode) (ty : Code.Ty) : Lower (Option Constant) := do
  match g.value with
  | none => return none
  | some value =>
    match coerce (constantOf (← ask (·.read .literal value))) ty with
    | .ok init => return some init
    | .error found => refuse value (.initializerMismatch g.name ty found)

/-- A global, whose name has to be new. -/
def visitGlobal (id : NodeId) (g : GlobalNode) : Lower Yield := do
  let ty ← type visit g.type
  let init ← initializer g ty
  if (← get).program.hasGlobal g.name then refuse id (.redefinition g.name)
  modifyProgram (·.addGlobal ⟨g.name, ty, init⟩)
  return .nothing

/-- The place of a function that the program has under a name, if that function has
no body and takes as many arguments. -/
def reusePrototype (id : NodeId) (name : Ident) (count index : Nat) : Lower Nat := do
  let existing ← functionAt index
  if existing.hasBody then refuse id (.redefinition name)
  if existing.signature.parameters.length ≠ count then
    refuse id (.argumentCountMismatch name existing.signature.parameters.length count)
  note (.reusing name)
  return index

/-- Declare the function of a prototype in the program; its place. -/
def registerPrototype (p : PrototypeNode) (arguments : ArgumentsNode) : Lower Nat := do
  let parameters ← arguments.scope.nodes.mapM (type visit)
  let returnType ← type visit p.returnType
  note (.registering p.name)
  let s ← get
  let (index, program) := s.program.declare p.name ⟨parameters, arguments.variadic, returnType⟩
  set { s with program }
  return index

/-- The function of a prototype, found or declared. -/
def visitPrototype (id : NodeId) (p : PrototypeNode) : Lower Yield := do
  let arguments ← ask (·.read .arguments p.arguments)
  let count := arguments.scope.size
  let index ← match ← registered? p.name with
    | some index => reusePrototype id p.name count index
    | none => registerPrototype visit p arguments
  let parameters := (← functionAt index).signature.parameters.length
  if parameters ≠ count then refuse id (.argumentCountMismatch p.name parameters count)
  return .operand (.function index)

/-- Run a step with a new body in progress; that body afterwards. -/
def withBody (arguments : List NodeId) (step : Lower Unit) : Lower Frame := do
  if (← get).frame.isSome then fault .nestedBody
  setFrame (some (.ofArguments arguments))
  tryCatch step fun halt => do
    setFrame none
    throw halt
  let done ← frame
  setFrame none
  return done

/-- Close a body whose last statement does not: only a void function may end so. -/
def closeBody (id : NodeId) (name : Ident) (index : Nat) (terminated : Bool)
    (body : List Instr) : Lower (List Instr) := do
  if terminated then return body
  if (← functionAt index).signature.returnType ≠ .void then refuse id (.missingReturn name)
  return body ++ [.ret none]

/-- Whether the last statement of a block ends its flow. -/
def endsFlow (block : NodeId) : Lower Bool := do
  match ← ask (·.lastStatement block) with
  | some last => ask (·.isTerminal last)
  | none => return false

/-- A function and its body. -/
def visitFunction (id : NodeId) (f : FunctionNode) : Lower Yield := do
  let index ← functionOf visit f.prototype
  let p ← ask (·.read .prototype f.prototype)
  let arguments ← ask (·.read .arguments p.arguments)
  let frame ← withBody arguments.scope.nodes (statement visit f.body)
  let body ← closeBody id p.name index (← endsFlow f.body) frame.body
  note (.bodyLowered p.name body.length)
  modifyProgram (·.define index body)
  return .nothing

/-- Statements in order. -/
def visitBlock (b : BlockNode) : Lower Yield := do
  b.statements.forM (statement visit)
  return .nothing

/-- A variable: its value, moved to a slot of its own. -/
def visitVariable (id : NodeId) (v : VariableNode) : Lower Yield := do
  v.type.forM fun written => discard (type visit written)
  let value ← operand visit v.value
  let slot ← newSlot
  emit (.move value slot)
  bindTo id (.slot slot)
  return .nothing

/-- A return. -/
def visitReturn (value : Option NodeId) : Lower Yield := do
  let value ← value.mapM (operand visit)
  emit (.ret value)
  return .nothing

/-- A name used as a value: the slot of a variable or an argument, or a global read
into a new slot. -/
def visitReference (id : NodeId) (name : Ident) : Lower Yield := do
  match ← ask (·.lookup id name) with
  | none => refuse id (.unresolved name)
  | some target =>
    match ← ask (·.construct target) with
    | .varDecl _ | .typeRef _ =>
      match (← frame).binding? target with
      | some value => return .operand value
      | none => refuse id (.unresolved name)
    | .global g =>
      let slot ← newSlot
      emit (.load g.name slot)
      return .operand (.slot slot)
    | _ => refuse id (.notAValue name)

/-- Whether a signature takes a number of arguments. -/
def accepts (s : Signature) (count : Nat) : Bool :=
  s.parameters.length ≤ count && (count ≤ s.parameters.length || s.variadic)

/-- A call: the callee, then the arguments, then the call itself. -/
def visitCall (id : NodeId) (c : CallNode) : Lower Yield := do
  let prototype ← resolveOr id (·.calleePrototype id c.callee)
  let callee := (← ask (·.read .prototype prototype)).name
  let target ← match ← registered? callee with
    | some index => pure index
    | none => functionOf visit prototype
  let signature := (← functionAt target).signature
  unless accepts signature c.arguments.length do
    refuse id (.callArity callee signature.parameters.length c.arguments.length)
  let arguments ← c.arguments.mapM (operand visit)
  if signature.returnType = .void then
    emit (.call target arguments none)
    return .operand .void
  else
    let slot ← newSlot
    emit (.call target arguments (some slot))
    return .operand (.slot slot)

/-- An operator between two operands. -/
def visitBinary (b : BinaryNode) : Lower Yield := do
  let lhs ← operand visit b.lhs
  let rhs ← operand visit b.rhs
  let slot ← newSlot
  emit (.binary b.op lhs rhs slot)
  return .operand (.slot slot)

/-- A written type. -/
def visitTypeRef (id : NodeId) (ref : TypeRef) : Lower Yield := do
  return .type (codeType (← resolveOr id (·.resolve ref id)))

/-- A node, by its kind.  Argument lists and attributes yield nothing. -/
def visitConstruct (id : NodeId) : Construct → Lower Yield
  | .module m => visitModule visit m
  | .function f => visitFunction visit id f
  | .external e => do
    discard (functionOf visit e.prototype)
    return .nothing
  | .prototype p => visitPrototype visit id p
  | .arguments _ | .attr _ => return .nothing
  | .block b => visitBlock visit b
  | .struct s => visitStruct visit s
  | .global g => visitGlobal visit id g
  | .varDecl v => visitVariable visit id v
  | .ret value => visitReturn visit value
  | .exprStatement expression => do
    discard (operand visit expression)
    return .nothing
  | .literal l => return .operand (.const (constantOf l))
  | .reference name => visitReference id name
  | .call c => visitCall visit id c
  | .binary b => visitBinary visit b
  | .typeRef ref => visitTypeRef id ref
  | .errorMarker _ => fault (.markerReached id)

end

/-- Visit a node, at most `n` levels deep. -/
def visit : Nat → NodeId → Lower Yield
  | 0, _ => fault .endless
  | n + 1, id => do visitConstruct (visit n) id (← ask (·.construct id))

/-- Levels that suffice: a visit comes back to a node only after another function
was declared, so at most once for each node and name. -/
def levels (s : Store) : Nat := (s.size + 1) * (s.size + 1)

/-! ## Lowering from a root -/

/-- Visit a node of the store. -/
def visitRoot (id : NodeId) : Lower Yield := do visit (levels (← read).store) id

/-- Lower a node that has to yield an operand. -/
def lowerOperand (id : NodeId) : Lower Operand := operand visitRoot id

/-- Lower a node that has to yield a type. -/
def lowerType (id : NodeId) : Lower Code.Ty := type visitRoot id

/-- Lower a node that has to yield nothing. -/
def lowerStatement (id : NodeId) : Lower Unit := statement visitRoot id

/-- Note that the module at a node is complete. -/
def noteModule (id : NodeId) : Lower Unit := do
  match (← read).store.get? id with
  | some ⟨.module m, _, _⟩ =>
    let program := (← get).program
    note (.moduleLowered m.name program.functions.length program.globals.length)
  | _ => return

/-- Lower the tree under a module.  A tree with error markers is refused before
anything is added to the program. -/
def lowerModule (id : NodeId) : Lower Unit := do
  match ← ask (·.errorMarkers id) with
  | [] =>
    accept visitRoot id
    noteModule id
  | (marker, notice) :: rest => refuse marker (.erroneousTree ((marker, notice) :: rest).length)

/-! ## Running -/

/-- The state before lowering. -/
def State.start (program : Code.Program) : State := ⟨program, none, [], [], #[]⟩

/-- What lowering leaves behind. -/
structure Lowered (α : Type) where
  result : Except Halt α
  program : Code.Program
  events : Array Event

/-- Run a step of lowering from the start. -/
def Lower.runOn {α : Type} (step : Lower α) (scene : Scene) (program : Code.Program) :
    Lowered α :=
  match (ReaderT.run step scene).run (.start program) with
  | .ok a s => ⟨.ok a, s.program, s.events⟩
  | .error halt s => ⟨.error halt, s.program, s.events⟩

end FrontEnd.Lowering
