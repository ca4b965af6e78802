import FrontEnd.Report.Event
import FrontEnd.Report.Excerpt
import FrontEnd.Tree.Lookup

/-!
# Lowering: errors, state and primitive steps

Lowering turns a tree into linear code.  It adds to a program that may hold earlier
code, and stops at the first error; what was added before stays.  While the body of
a function is lowered, a frame holds its slots and instructions so far.  What visits
of nodes yield goes through two stacks, one of operands and one of types.

## Main definitions

* `LoweringError`: what is wrong with a tree that parses.
* `Lower`: a step that reads a store and changes a program.
* `newSlot`, `emit`, `bindTo`: the steps that need a frame.
-/

namespace FrontEnd

/-- Why a tree is not lowered. -/
inductive LoweringError
  /-- The tree holds error markers. -/
  | erroneousTree (count : Nat)
  | redefinition (name : Ident)
  /-- A function was declared before with another number of arguments. -/
  | argumentCountMismatch (name : Ident) (expected found : Nat)
  | unresolved (name : Ident)
  | notAValue (name : Ident)
  | notAFunction (name : Ident)
  | unknownType (name : Ident)
  /-- A call passes another number of arguments than the function takes. -/
  | callArity (name : Ident) (expected found : Nat)
  | missingReturn (name : Ident)
  | initializerMismatch (name : Ident) (expected found : Code.Ty)
deriving DecidableEq

namespace LoweringError

/-- The wording of a lowering error. -/
def message : LoweringError → String
  | .erroneousTree count =>
    "Refusing to lower a tree with " ++ toString count ++ " unresolved syntax error(s)"
  | .redefinition name => "Function `" ++ name.text ++ "` already has a body"
  | .argumentCountMismatch name expected found =>
    "`" ++ name.text ++ "` was previously declared with " ++ toString expected ++
      " argument(s), found " ++ toString found
  | .unresolved name => "Symbol `" ++ name.text ++ "` is undefined"
  | .notAValue name => "`" ++ name.text ++ "` is not a value"
  | .notAFunction name => "`" ++ name.text ++ "` is not a function"
  | .unknownType name => "Unknown type `" ++ name.text ++ "`"
  | .callArity name expected found =>
    "`" ++ name.text ++ "` takes " ++ toString expected ++ " argument(s), but " ++
      toString found ++ " were supplied"
  | .missingReturn name =>
    "Function `" ++ name.text ++ "` does not return a value on every path"
  | .initializerMismatch name expected found =>
    "Global `" ++ name.text ++ "` is declared as " ++ expected.text ++ " but initialized with " ++
      found.text

/-- A name that does not resolve, as a lowering error. -/
def ofResolve : ResolveError → LoweringError
  | .undefinedType name | .notAType name => .unknownType name
  | .undefined name => .unresolved name
  | .notAValue name => .notAValue name
  | .notAFunction name => .notAFunction name

end LoweringError

/-- A lowering error as a finding. -/
def Finding.ofLowering (error : Located LoweringError) : Finding :=
  ⟨.error, error.value.message, error.span⟩

namespace Lowering

/-- The body in progress. -/
structure Frame where
  /-- Arguments and variables with their operands, the latest first. -/
  bindings : List (NodeId × Code.Operand)
  /-- The number of the next slot. -/
  next : Nat
  body : List Code.Instr

/-- What lowering changes. -/
structure State where
  program : Code.Program
  frame : Option Frame
  /-- The operands that visits left, the latest first. -/
  values : List Code.Operand
  /-- The types that visits left, the latest first. -/
  types : List Code.Ty
  events : Array Event

/-- What lowering reads. -/
structure Scene where
  store : Store
  /-- Whether a function that the program has is found by its name before its
  prototype is lowered. -/
  reuse : Bool

/-- Why lowering stopped. -/
inductive Halt
  | fault (fault : Fault)
  | refused (error : Located LoweringError)

/-- A step of lowering. -/
abbrev Lower := ReaderT Scene (EStateM Halt State)

/-- Stop with a fault. -/
def fault {α : Type} (f : Fault) : Lower α := throw (.fault f)

/-- Take an answer of the store, or its fault. -/
def check {α : Type} : Except Fault α → Lower α
  | .ok a => return a
  | .error f => fault f

/-- Ask the store. -/
def ask {α : Type} (question : Store → Except Fault α) : Lower α := do
  check (question (← read).store)

/-- Stop with an error at a node. -/
def refuse {α : Type} (id : NodeId) (error : LoweringError) : Lower α := do
  let span ← ask (·.nearestSpan id)
  throw (.refused ⟨error, span⟩)

/-- Ask the store about names or types; what does not resolve is an error at a
node. -/
def resolveOr {α : Type} (id : NodeId) (question : Store → Resolve α) : Lower α := do
  match question (← read).store with
  | .ok a => return a
  | .error (.fault f) => fault f
  | .error (.unresolved error) => refuse id (.ofResolve error)

/-- Note an event. -/
def note (event : Event) : Lower Unit := modify fun s => { s with events := s.events.push event }

/-- Change the program. -/
def modifyProgram (f : Code.Program → Code.Program) : Lower Unit :=
  modify fun s => { s with program := f s.program }

/-- The function at a place of the program. -/
def functionAt (index : Nat) : Lower Code.Func := do
  check ((← get).program.function index)

/-- The place of a function that the program has under a name. -/
def registered? (name : Ident) : Lower (Option Nat) := do
  if (← read).reuse then return (← get).program.function? name else return none

/-! ## Frames -/

/-- The body in progress. -/
def frame : Lower Frame := do
  match (← get).frame with
  | some frame => return frame
  | none => fault .outsideBody

/-- Replace the body in progress. -/
def setFrame (frame : Option Frame) : Lower Unit := modify fun s => { s with frame }

/-- Take the next slot. -/
def newSlot : Lower Nat := do
  let f ← frame
  setFrame (some { f with next := f.next + 1 })
  return f.next

/-- Append an instruction. -/
def emit (instr : Code.Instr) : Lower Unit := do
  let f ← frame
  setFrame (some { f with body := f.body ++ [instr] })

/-- Bind a node to an operand. -/
def bindTo (id : NodeId) (operand : Code.Operand) : Lower Unit := do
  let f ← frame
  setFrame (some { f with bindings := (id, operand) :: f.bindings })

/-- The operand that a node is bound to. -/
def Frame.binding? (f : Frame) (id : NodeId) : Option Code.Operand :=
  (f.bindings.find? fun b => b.1 = id).map Prod.snd

/-- The frame of a function before its body: each argument in its own slot. -/
def Frame.ofArguments (arguments : List NodeId) : Frame :=
  ⟨(arguments.zipIdx.map fun (id, index) => (id, .slot index)).reverse, arguments.length, []⟩

end Lowering

end FrontEnd
