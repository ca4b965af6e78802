import FrontEnd.Code.Listing
import FrontEnd.Tree.Construct

/-!
# Faults

A fault is a promise that a caller did not keep: a node number out of range, a node
of another kind than the operation needs, a second parent, a tree that cannot be
lowered at all.  It says nothing about the text that is being compiled, and it ends
the operation that meets it.
-/

namespace FrontEnd

/-- A promise that was not kept. -/
inductive Fault
  /-- A place beyond the end of a sequence. -/
  | outOfBounds (length index : Nat)
  /-- A node was to become its own parent. -/
  | ownParent
  /-- A node has a parent already. -/
  | alreadyAttached (kind : Kind) (node parent : NodeId)
  /-- A node of another kind was needed. -/
  | wrongKind (needed : Kind) (node : NodeId) (found : Kind)
  /-- A type was asked of a node that is no expression. -/
  | notExpression (kind : Kind)
  /-- A block without a parent was asked whose body it is. -/
  | parentlessBlock (node : NodeId)
  /-- The links from a node lead back to it. -/
  | endless
  /-- Tokens do not end with the end of the input. -/
  | missingEof
  /-- A node that should yield an operand does not. -/
  | noOperand (kind : Kind)
  /-- A node that should yield a type does not. -/
  | noType (kind : Kind)
  /-- A node that should yield an operand leaves a type. -/
  | touchedTypes (kind : Kind)
  /-- A node that should yield a type leaves an operand. -/
  | touchedOperands (kind : Kind)
  /-- A statement yields an operand. -/
  | strayOperand (kind : Kind)
  /-- A statement yields a type. -/
  | strayType (kind : Kind)
  /-- A prototype yields something other than a function. -/
  | notFunction (value : Code.Operand)
  /-- An instruction was to be produced outside of a body. -/
  | outsideBody
  /-- A function stands inside the body of another. -/
  | nestedBody
  /-- An error marker was to be lowered. -/
  | markerReached (node : NodeId)
  /-- Neither a node nor any node above it has a span. -/
  | unlocated (kind : Kind) (node : NodeId)
deriving DecidableEq

/-- An operand with all of its constructors spelled out. -/
def Code.Operand.spelled : Code.Operand → String
  | .slot index => "Local(Local(" ++ toString index ++ "))"
  | .const (.int value bits) =>
    "Constant(Int \x7b value: " ++ toString value ++ ", bits: " ++ toString bits ++ " \x7d)"
  | .const (.bool value) => "Constant(Bool(" ++ Code.boolText value ++ "))"
  | .const (.char value) => "Constant(Char(" ++ Text.quoted value ++ "))"
  | .function index => "Function(FunctionRef(" ++ toString index ++ "))"
  | .void => "Void"

/-- The wording of a fault. -/
def Fault.message : Fault → String
  | .outOfBounds length index =>
    "index out of bounds: the len is " ++ toString length ++ " but the index is " ++
      toString index
  | .ownParent => "construct cannot be its own parent"
  | .alreadyAttached kind node parent =>
    kind.text ++ " " ++ node.text ++ " is already attached to " ++ parent.text
  | .wrongKind needed node found =>
    "expected " ++ needed.label ++ " construct at " ++ node.text ++ ", found " ++ found.text
  | .notExpression kind => kind.text ++ " is not an expression"
  | .parentlessBlock node => "block " ++ node.text ++ " has no parent construct"
  | .endless => "construct is its own ancestor"
  | .missingEof => "token stream must end with Eof"
  | .noOperand kind => kind.text ++ " left an unbalanced value stack"
  | .noType kind => kind.text ++ " left an unbalanced type stack"
  | .touchedTypes kind => kind.text ++ " touched the type stack"
  | .touchedOperands kind => kind.text ++ " touched the value stack"
  | .strayOperand kind => kind.text ++ " left a value behind"
  | .strayType kind => kind.text ++ " left a type behind"
  | .notFunction value => "prototype lowered to " ++ value.spelled
  | .outsideBody => "statement lowered outside of a function body"
  | .nestedBody => "nested function bodies"
  | .markerReached node => "error marker " ++ node.text ++ " reached lowering"
  | .unlocated kind node => kind.text ++ " " ++ node.text ++ " has no source location"

/-- The function at a place of a program. -/
def Code.Program.function (p : Code.Program) (index : Nat) : Except Fault Code.Func :=
  match p.functions[index]? with
  | some f => .ok f
  | none => .error (.outOfBounds p.functions.length index)

end FrontEnd
