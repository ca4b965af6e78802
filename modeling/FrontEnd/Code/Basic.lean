import FrontEnd.Ident
import FrontEnd.Operator

/-!
# Linear code

A program holds struct types, globals and functions.  A function is either external
or has a body: a list of instructions over numbered slots, the first of which are
its parameters.  Functions refer to each other by their place in the program.
-/

namespace FrontEnd.Code

/-- A type of the code. -/
inductive Ty
  | int (bits : Nat)
  | bool
  | char
  | void
  | struct (name : Ident)
deriving DecidableEq

/-- A constant. -/
inductive Constant
  | int (value : Int) (bits : Nat)
  | bool (value : Bool)
  | char (value : Char)
deriving DecidableEq

/-- The type of a constant. -/
def Constant.ty : Constant → Ty
  | .int _ bits => .int bits
  | .bool _ => .bool
  | .char _ => .char

/-- An operand of an instruction. -/
inductive Operand
  /-- A numbered slot of the function. -/
  | slot (index : Nat)
  | const (value : Constant)
  /-- A function of the program. -/
  | function (index : Nat)
  /-- What a call of a void function yields. -/
  | void
deriving DecidableEq

/-- An instruction. -/
inductive Instr
  /-- Copy an operand into a slot. -/
  | move (value : Operand) (output : Nat)
  /-- Read a global into a slot. -/
  | load (source : Ident) (output : Nat)
  | binary (op : Operator) (lhs rhs : Operand) (output : Nat)
  /-- Call a function, keeping what it returns if there is a slot for it. -/
  | call (target : Nat) (arguments : List Operand) (output : Option Nat)
  | ret (value : Option Operand)
deriving DecidableEq

/-- What a function takes and returns. -/
structure Signature where
  parameters : List Ty
  variadic : Bool
  returnType : Ty
deriving DecidableEq

/-- A function; without a body it is external. -/
structure Func where
  name : Ident
  signature : Signature
  body : Option (List Instr)
deriving DecidableEq

/-- Whether a function has a body. -/
def Func.hasBody (f : Func) : Bool := f.body.isSome

/-- A struct type with its fields in order. -/
structure StructType where
  name : Ident
  fields : List (Ident × Ty)
deriving DecidableEq

/-- A global; without an initial value it is zeroed. -/
structure GlobalVar where
  name : Ident
  ty : Ty
  init : Option Constant
deriving DecidableEq

/-- A program: everything that lowering has produced so far. -/
structure Program where
  name : String
  structs : List StructType
  globals : List GlobalVar
  functions : List Func
deriving DecidableEq

namespace Program

/-- A program that holds nothing. -/
def empty (name : String) : Program := ⟨name, [], [], []⟩

/-- The struct type of a name. -/
def struct? (p : Program) (name : Ident) : Option StructType :=
  p.structs.find? fun s => s.name.same name

/-- Whether some global has a name. -/
def hasGlobal (p : Program) (name : Ident) : Bool :=
  p.globals.any fun g => g.name.same name

/-- The place of the function of a name. -/
def function? (p : Program) (name : Ident) : Option Nat :=
  p.functions.findIdx? fun f => f.name.same name

/-- Declare a function as external, unless its name is taken; the place of the
function of that name. -/
def declare (p : Program) (name : Ident) (signature : Signature) : Nat × Program :=
  match p.function? name with
  | some index => (index, p)
  | none =>
    (p.functions.length, { p with functions := p.functions ++ [⟨name, signature, none⟩] })

/-- Give the function at a place a body. -/
def define (p : Program) (index : Nat) (body : List Instr) : Program :=
  { p with functions := p.functions.modify index fun f => { f with body := some body } }

/-- Add a struct type, unless its name is taken. -/
def addStruct (p : Program) (s : StructType) : Program :=
  match p.struct? s.name with
  | some _ => p
  | none => { p with structs := p.structs ++ [s] }

/-- Add a global. -/
def addGlobal (p : Program) (g : GlobalVar) : Program :=
  { p with globals := p.globals ++ [g] }

/-- Take a name, unless the program has one. -/
def claimName (p : Program) (name : String) : Program :=
  if p.name.isEmpty then { p with name } else p

end Program

end FrontEnd.Code
