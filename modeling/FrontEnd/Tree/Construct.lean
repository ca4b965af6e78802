import FrontEnd.Operator
import FrontEnd.Token.Basic
import FrontEnd.Tree.Scope

/-!
# Constructs

Every node of a tree is a construct of one of eighteen kinds.  Constructs refer to
their children by number and list them in a fixed order.
-/

namespace FrontEnd

/-! ## Types -/

/-- A type of the language. -/
inductive Ty
  | prim (type : Prim)
  /-- A struct, with the node that declares it. -/
  | struct (name : Ident) (node : NodeId)
deriving DecidableEq

/-- The text of a type. -/
def Ty.text : Ty → String
  | .prim type => type.text
  | .struct name _ => name.text

/-- A type as written: a name that is still to be resolved, or a type. -/
inductive TypeRef
  | named (name : Ident)
  | known (ty : Ty)
deriving DecidableEq

/-- The name as written, or else the name of the type. -/
def TypeRef.text : TypeRef → String
  | .named name => name.text
  | .known ty => ty.text

/-! ## Constructs -/

/-- The root of a unit: its items in order, and the scope that names them. -/
structure ModuleNode where
  name : Ident
  items : List NodeId
  scope : Scope
deriving DecidableEq

/-- A function with a body. -/
structure FunctionNode where
  attributes : List NodeId
  prototype : NodeId
  body : NodeId
deriving DecidableEq

/-- A function that is defined elsewhere. -/
structure ExternNode where
  attributes : List NodeId
  prototype : NodeId
deriving DecidableEq

/-- The name, arguments and return type of a function. -/
structure PrototypeNode where
  name : Ident
  arguments : NodeId
  returnType : NodeId
deriving DecidableEq

/-- The arguments of a prototype: each name with the node of its type. -/
structure ArgumentsNode where
  scope : Scope
  variadic : Bool
deriving DecidableEq

/-- Statements in order, and the scope of the variables declared directly among
them. -/
structure BlockNode where
  statements : List NodeId
  scope : Scope
deriving DecidableEq

/-- A struct: each field with the node of its type. -/
structure StructNode where
  name : Ident
  fields : Scope
deriving DecidableEq

/-- A global variable. -/
structure GlobalNode where
  name : Ident
  type : NodeId
  value : Option NodeId
deriving DecidableEq

/-- A variable declaration; without a type the variable has its value's type. -/
structure VariableNode where
  name : Ident
  type : Option NodeId
  value : NodeId
deriving DecidableEq

/-- A literal value. -/
inductive Literal
  | int (value : Int) (width : Width)
  | bool (value : Bool)
  | char (value : Char)
deriving DecidableEq

/-- The type of a literal. -/
def Literal.ty : Literal → Ty
  | .int _ width => .prim (.int width)
  | .bool _ => .prim .bool
  | .char _ => .prim .char

/-- A call of a function by name. -/
structure CallNode where
  callee : Ident
  arguments : List NodeId
deriving DecidableEq

/-- An operator between two expressions. -/
structure BinaryNode where
  op : Operator
  lhs : NodeId
  rhs : NodeId
deriving DecidableEq

/-- What a node is. -/
inductive Construct
  | module (node : ModuleNode)
  | function (node : FunctionNode)
  | external (node : ExternNode)
  | prototype (node : PrototypeNode)
  | arguments (node : ArgumentsNode)
  | block (node : BlockNode)
  | struct (node : StructNode)
  | global (node : GlobalNode)
  | attr (name : Ident)
  | varDecl (node : VariableNode)
  | ret (value : Option NodeId)
  | exprStatement (expression : NodeId)
  | literal (value : Literal)
  | reference (name : Ident)
  | call (node : CallNode)
  | binary (node : BinaryNode)
  | typeRef (ref : TypeRef)
  /-- The place of a failed production; `notice` numbers the notice about it. -/
  | errorMarker (notice : Nat)
deriving DecidableEq

/-- The kind of a construct. -/
inductive Kind
  | module
  | function
  | external
  | prototype
  | arguments
  | block
  | struct
  | global
  | attr
  | varDecl
  | ret
  | exprStatement
  | literal
  | reference
  | call
  | binary
  | typeRef
  | errorMarker
deriving DecidableEq

namespace Kind

/-- The wording of a kind. -/
def text : Kind → String
  | .module => "module"
  | .function => "function"
  | .external => "extern"
  | .prototype => "prototype"
  | .arguments => "argument list"
  | .block => "block"
  | .struct => "struct"
  | .global => "global"
  | .attr => "attribute"
  | .varDecl => "variable declaration"
  | .ret => "return"
  | .exprStatement => "expression statement"
  | .literal => "literal"
  | .reference => "reference"
  | .call => "call"
  | .binary => "binary operation"
  | .typeRef => "type reference"
  | .errorMarker => "error marker"

/-- The name under which a kind is demanded of a node. -/
def label : Kind → String
  | .module => "Module"
  | .function => "Function"
  | .external => "Extern"
  | .prototype => "Prototype"
  | .arguments => "ArgumentList"
  | .block => "Block"
  | .struct => "Struct"
  | .global => "Global"
  | .attr => "Attribute"
  | .varDecl => "VariableDecl"
  | .ret => "Return"
  | .exprStatement => "ExprStatement"
  | .literal => "Literal"
  | .reference => "Reference"
  | .call => "Call"
  | .binary => "Binary"
  | .typeRef => "Resolvable"
  | .errorMarker => "ErrorMarker"

end Kind

namespace Construct

/-- The kind of a construct. -/
def kind : Construct → Kind
  | .module _ => .module
  | .function _ => .function
  | .external _ => .external
  | .prototype _ => .prototype
  | .arguments _ => .arguments
  | .block _ => .block
  | .struct _ => .struct
  | .global _ => .global
  | .attr _ => .attr
  | .varDecl _ => .varDecl
  | .ret _ => .ret
  | .exprStatement _ => .exprStatement
  | .literal _ => .literal
  | .reference _ => .reference
  | .call _ => .call
  | .binary _ => .binary
  | .typeRef _ => .typeRef
  | .errorMarker _ => .errorMarker

/-- The children of a construct, in the order of its kind. -/
def children : Construct → List NodeId
  | .module node => node.items
  | .function node => node.attributes ++ [node.prototype, node.body]
  | .external node => node.attributes ++ [node.prototype]
  | .prototype node => [node.arguments, node.returnType]
  | .arguments node => node.scope.nodes
  | .block node => node.statements
  | .struct node => node.fields.nodes
  | .global node => node.type :: node.value.toList
  | .varDecl node => node.type.toList ++ [node.value]
  | .ret value => value.toList
  | .exprStatement expression => [expression]
  | .call node => node.arguments
  | .binary node => [node.lhs, node.rhs]
  | .attr _ | .literal _ | .reference _ | .typeRef _ | .errorMarker _ => []

/-- The name that a construct carries itself. -/
def name? : Construct → Option Ident
  | .module node => some node.name
  | .prototype node => some node.name
  | .struct node => some node.name
  | .global node => some node.name
  | .attr name => some name
  | .varDecl node => some node.name
  | _ => none

/-- A block without statements. -/
def emptyBlock : Construct := .block ⟨[], .empty⟩

/-- A module without items. -/
def emptyModule (name : Ident) : Construct := .module ⟨name, [], .empty⟩

end Construct

/-! ## Shapes

A shape is a kind together with the view of its constructs.  Reading a node by
shape is how an operation states which kind of node it needs. -/

/-- A kind of construct and what it holds. -/
structure Shape (α : Type) where
  kind : Kind
  view? : Construct → Option α

namespace Shape

/-- Modules. -/
def module : Shape ModuleNode := ⟨.module, fun | .module n => some n | _ => none⟩

/-- Functions with a body. -/
def function : Shape FunctionNode := ⟨.function, fun | .function n => some n | _ => none⟩

/-- Functions defined elsewhere. -/
def external : Shape ExternNode := ⟨.external, fun | .external n => some n | _ => none⟩

/-- Prototypes. -/
def prototype : Shape PrototypeNode := ⟨.prototype, fun | .prototype n => some n | _ => none⟩

/-- Argument lists. -/
def arguments : Shape ArgumentsNode := ⟨.arguments, fun | .arguments n => some n | _ => none⟩

/-- Blocks. -/
def block : Shape BlockNode := ⟨.block, fun | .block n => some n | _ => none⟩

/-- Structs. -/
def struct : Shape StructNode := ⟨.struct, fun | .struct n => some n | _ => none⟩

/-- Globals. -/
def global : Shape GlobalNode := ⟨.global, fun | .global n => some n | _ => none⟩

/-- Attributes. -/
def attr : Shape Ident := ⟨.attr, fun | .attr n => some n | _ => none⟩

/-- Variable declarations. -/
def varDecl : Shape VariableNode := ⟨.varDecl, fun | .varDecl n => some n | _ => none⟩

/-- Returns. -/
def ret : Shape (Option NodeId) := ⟨.ret, fun | .ret v => some v | _ => none⟩

/-- Expression statements. -/
def exprStatement : Shape NodeId :=
  ⟨.exprStatement, fun | .exprStatement e => some e | _ => none⟩

/-- Literals. -/
def literal : Shape Literal := ⟨.literal, fun | .literal l => some l | _ => none⟩

/-- References. -/
def reference : Shape Ident := ⟨.reference, fun | .reference n => some n | _ => none⟩

/-- Calls. -/
def call : Shape CallNode := ⟨.call, fun | .call n => some n | _ => none⟩

/-- Binary operations. -/
def binary : Shape BinaryNode := ⟨.binary, fun | .binary n => some n | _ => none⟩

/-- Type references. -/
def typeRef : Shape TypeRef := ⟨.typeRef, fun | .typeRef r => some r | _ => none⟩

end Shape

end FrontEnd
