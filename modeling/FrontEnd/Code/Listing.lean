import FrontEnd.Code.Basic
import FrontEnd.Text.Columns
import FrontEnd.Text.Quoted

/-!
# Listings

The text of a program: its name, then struct types, globals and functions, each in
the order in which the program holds them.  An external function is declared on
one line; any other is defined with its instructions numbered from zero.
-/

namespace FrontEnd.Code

/-- The text of a type. -/
def Ty.text : Ty → String
  | .int bits => "i" ++ toString bits
  | .bool => "bool"
  | .char => "char"
  | .void => "void"
  | .struct name => "%" ++ name.text

/-- The type of a text. -/
def Ty.ofText? (text : String) : Option Ty :=
  match text.toList with
  | '%' :: name => some (.struct ⟨String.ofList name⟩)
  | 'i' :: digits => ((String.ofList digits).toNat?).map .int
  | _ => [Ty.bool, .char, .void].find? fun ty => ty.text = text

/-- The text of a truth value. -/
def boolText (value : Bool) : String := if value then "true" else "false"

/-- The text of a constant, with its type. -/
def Constant.text : Constant → String
  | .int value bits => "i" ++ toString bits ++ " " ++ toString value
  | .bool value => "bool " ++ boolText value
  | .char value => "char " ++ Text.quoted value

/-- The text of a slot. -/
def slotText (index : Nat) : String := "%" ++ toString index

/-- The text of an operand.  A function is shown by its name, and by its number
where the program has no such function. -/
def Operand.text (p : Program) : Operand → String
  | .slot index => slotText index
  | .const value => value.text
  | .function index =>
    match p.functions[index]? with
    | some f => "@" ++ f.name.text
    | none => "@<fn " ++ toString index ++ ">"
  | .void => "void"

/-- The text of an instruction. -/
def Instr.text (p : Program) : Instr → String
  | .move value output => slotText output ++ " = move " ++ value.text p
  | .load source output => slotText output ++ " = load @" ++ source.text
  | .binary op lhs rhs output =>
    slotText output ++ " = " ++ op.text ++ " " ++ lhs.text p ++ ", " ++ rhs.text p
  | .call target arguments output =>
    (match output with
      | some slot => slotText slot ++ " = "
      | none => "") ++
    "call " ++ (Operand.function target).text p ++
    "(" ++ String.intercalate ", " (arguments.map (Operand.text p)) ++ ")"
  | .ret (some value) => "ret " ++ value.text p
  | .ret none => "ret void"

/-- The lines of a body. -/
def bodyText (p : Program) (body : List Instr) : String :=
  String.join (body.zipIdx.map fun (instr, index) =>
    "\t" ++ Text.rightAligned 3 index ++ ": " ++ instr.text p ++ "\n")

/-- The parameters of a signature, numbered as slots. -/
def Signature.parametersText (s : Signature) : String :=
  String.intercalate ", "
    ((s.parameters.zipIdx.map fun (ty, index) => ty.text ++ " " ++ slotText index) ++
      if s.variadic then ["..."] else [])

/-- Return type, name and parameters of a function. -/
def Func.head (f : Func) : String :=
  f.signature.returnType.text ++ " @" ++ f.name.text ++ "(" ++ f.signature.parametersText ++ ")"

/-- The text of a function. -/
def Func.text (p : Program) (f : Func) : String :=
  match f.body with
  | none => "declare " ++ f.head ++ "\n"
  | some body => "define " ++ f.head ++ " \x7b\n" ++ bodyText p body ++ "\x7d\n"

/-- The line of a struct type. -/
def StructType.text (s : StructType) : String :=
  "%" ++ s.name.text ++ " = type \x7b " ++
    String.intercalate ", " (s.fields.map fun (name, ty) => ty.text ++ " " ++ name.text) ++
    " \x7d\n"

/-- The line of a global. -/
def GlobalVar.text (g : GlobalVar) : String :=
  "@" ++ g.name.text ++ " = global " ++
    (match g.init with
      | some value => value.text
      | none => g.ty.text ++ " zeroed") ++ "\n"

/-- The listing of a program. -/
def Program.listing (p : Program) : String :=
  "; module " ++ p.name ++ "\n" ++
    String.join (p.structs.map StructType.text) ++
    String.join (p.globals.map GlobalVar.text) ++
    String.join (p.functions.map (Func.text p))

end FrontEnd.Code
