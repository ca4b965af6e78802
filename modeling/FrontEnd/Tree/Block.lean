import FrontEnd.Tree.Trail

/-!
# Blocks

The changes of shape that a tree admits once it is built: appending a statement,
splitting a block, and moving the tail of a block to the end of another.  The scope
of a block follows the variable declarations among its statements.
-/

namespace FrontEnd

/-- Why a block could not be split. -/
inductive SplitError
  | outOfBounds (index length : Nat)
deriving DecidableEq

/-- The wording of a split error. -/
def SplitError.message : SplitError → String
  | .outOfBounds index length =>
    "Statement index " ++ toString index ++ " is out of bounds for a block of " ++
      toString length ++ " statements"

/-- A block with a statement appended, and the variable that it declares in scope. -/
def BlockNode.snoc (b : BlockNode) (statement : NodeId) (declared : Option Ident) : BlockNode :=
  ⟨b.statements ++ [statement],
    match declared with
    | some name => b.scope.append name statement
    | none => b.scope⟩

namespace Store

/-! ## Appending -/

/-- The name of the variable that a statement declares. -/
def declared? (s : Store) (statement : NodeId) : Option Ident :=
  match s.get? statement with
  | some ⟨.varDecl v, _, _⟩ => some v.name
  | _ => none

/-- The declaration that a statement would repeat in a block, with its name. -/
def redeclared? (s : Store) (block statement : NodeId) : Option (Ident × NodeId) :=
  match s.declared? statement, s.get? block with
  | some name, some ⟨.block b, _, _⟩ => (b.scope.lookup name).map fun existing => (name, existing)
  | _, _ => none

/-- Append a statement to a block, linking it. -/
def extend (s : Store) (block statement : NodeId) : Store :=
  match s.get? block with
  | some ⟨.block b, _, _⟩ =>
    (s.put block (.block (b.snoc statement (s.declared? statement)))).setParent
      statement block
  | _ => s

/-- Append a statement to a block; for a variable that the block declares already,
that declaration. -/
def appendStatement (s : Store) (block statement : NodeId) :
    Except Fault (Except NodeId Store) := do
  let c ← s.construct statement
  let b ← s.read .block block
  let name := match c with
    | .varDecl v => some v.name
    | _ => none
  match name.bind b.scope.lookup with
  | some existing => return .error existing
  | none =>
    return .ok (← (s.put block (.block (b.snoc statement name))).attach statement block)

/-! ## Splitting and moving -/

/-- Move one statement's symbol and parent from a block to another. -/
def rehome (source target : NodeId) (s : Store) (statement : NodeId) : Except Fault Store := do
  match ← s.construct statement with
  | .varDecl v =>
    let b ← s.read .block source
    let s := if b.scope.lookup v.name = some statement
      then s.put source (.block { b with scope := b.scope.erase v.name }) else s
    let t ← s.read .block target
    let s := match t.scope.insert v.name statement with
      | .ok scope => s.put target (.block { t with scope })
      | .error _ => s
    return s.setParent statement target
  | _ => return s.setParent statement target

/-- Move the statements of a block from a place on to the end of another block; how
many there were. -/
def relocate (s : Store) (source target : NodeId) (start : Nat) : Except Fault (Nat × Store) := do
  let b ← s.read .block source
  if b.statements.length ≤ start then return (0, s)
  let moved := b.statements.drop start
  let s := s.put source (.block { b with statements := b.statements.take start })
  let s ← moved.foldlM (rehome source target) s
  let t ← s.read .block target
  return (moved.length, s.put target (.block { t with statements := t.statements ++ moved }))

/-- Split a block at a place: the statements from there on go to a new block beside
it.  An empty block is split anywhere. -/
def split (s : Store) (block : NodeId) (place : Nat) :
    Except Fault (Except SplitError (NodeId × Store)) := do
  let b ← s.read .block block
  if b.statements ≠ [] ∧ b.statements.length ≤ place then
    return .error (.outOfBounds place b.statements.length)
  let node ← s.node block
  let new := s.fresh
  let s := s.push .emptyBlock node.span
  let s ← match node.parent with
    | some parent => s.attach new parent
    | none => pure s
  let (_, s) ← s.relocate block new place
  return .ok (new, s)

/-! ## Reading blocks -/

/-- The place of a statement in a block. -/
def locate (s : Store) (block statement : NodeId) : Except Fault (Option Nat) :=
  return (← s.read .block block).statements.findIdx? (· == statement)

/-- Whether a statement comes before another in a block that holds both. -/
def precedes (s : Store) (block statement later : NodeId) : Except Fault Bool := do
  match ← s.locate block statement, ← s.locate block later with
  | some first, some second => return first < second
  | _, _ => return false

/-- Whether a statement ends the flow of its block. -/
def isTerminal (s : Store) (statement : NodeId) : Except Fault Bool :=
  return (← s.kind statement) = .ret

/-- The statements of a block that end its flow. -/
def terminals (s : Store) (block : NodeId) : Except Fault (List NodeId) := do
  (← s.read .block block).statements.filterM s.isTerminal

/-- The first statement of a block. -/
def firstStatement (s : Store) (block : NodeId) : Except Fault (Option NodeId) :=
  return (← s.read .block block).statements.head?

/-- The last statement of a block. -/
def lastStatement (s : Store) (block : NodeId) : Except Fault (Option NodeId) :=
  return (← s.read .block block).statements.getLast?

/-- Whether a block is the body of a function. -/
def isFunctionBody (s : Store) (block : NodeId) : Except Fault Bool := do
  match ← s.parent block with
  | none => throw (.parentlessBlock block)
  | some parent => return (← s.kind parent) = .function

/-- The function around a node, below the nearest module. -/
def enclosingFunction (s : Store) (id : NodeId) : Except Fault (Option NodeId) := do
  let t := s.ancestors id
  let above : Trail := ⟨t.steps.drop 1, t.cut⟩
  let found ← above.first? fun id node =>
    if node.kind = .function then some (some id)
    else if node.kind = .module then some none
    else none
  return found.join

end Store

end FrontEnd
