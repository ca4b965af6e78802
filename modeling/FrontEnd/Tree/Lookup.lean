import FrontEnd.Tree.Block

/-!
# Names and types

A name is looked up outward: through the enclosing blocks, the arguments of the
enclosing function, and the module.  In a block, only declarations before the
statement that holds the use are visible, so a declaration sees neither itself nor
those after it.  In a module, order does not matter.

A type name is always the name of a struct of the module.
-/

namespace FrontEnd

/-- Why a name could not be resolved. -/
inductive ResolveError
  | undefinedType (name : Ident)
  | notAType (name : Ident)
  | undefined (name : Ident)
  | notAValue (name : Ident)
  | notAFunction (name : Ident)
deriving DecidableEq

/-- The wording of a resolution error. -/
def ResolveError.message : ResolveError → String
  | .undefinedType name => "Type `" ++ name.text ++ "` is undefined"
  | .notAType name => "`" ++ name.text ++ "` does not name a type"
  | .undefined name => "Symbol `" ++ name.text ++ "` is undefined"
  | .notAValue name => "`" ++ name.text ++ "` does not name a value"
  | .notAFunction name => "`" ++ name.text ++ "` does not name a function"

/-- Why a question about names or types has no answer. -/
inductive Setback
  | fault (fault : Fault)
  | unresolved (error : ResolveError)
deriving DecidableEq

/-- An answer that may fault and may fail to resolve. -/
abbrev Resolve := Except Setback

/-- A fault of the store is a fault of the question. -/
instance : MonadLift (Except Fault) Resolve := ⟨Except.mapError .fault⟩

/-- Fail to resolve. -/
def unresolved {α : Type} (error : ResolveError) : Resolve α := .error (.unresolved error)

namespace Store

/-! ## Names -/

/-- What a name means in one construct on the way out.  `inner` is the node from
which the way entered it, and `start` the node where the way began. -/
def visible (s : Store) (start inner : NodeId) (name : Ident) (id : NodeId) :
    Construct → Except Fault (Option NodeId)
  | .block b =>
    match b.scope.lookup name with
    | none => return none
    | some decl => do
      if id = start then return some decl
      return if ← s.precedes id decl inner then some decl else none
  | .function f => do
    let prototype ← s.read .prototype f.prototype
    return (← s.read .arguments prototype.arguments).scope.lookup name
  | .module m => return m.scope.lookup name
  | _ => return none

/-- Follow a way out until a name is found. -/
def lookupAlong (s : Store) (start : NodeId) (name : Ident) (cut : Option Fault) :
    NodeId → List (NodeId × Node) → Except Fault (Option NodeId)
  | _, [] =>
    match cut with
    | some fault => .error fault
    | none => .ok none
  | inner, (id, node) :: rest => do
    match ← s.visible start inner name id node.construct with
    | some decl => return some decl
    | none => s.lookupAlong start name cut id rest

/-- The node that a name means at a node. -/
def lookup (s : Store) (start : NodeId) (name : Ident) : Except Fault (Option NodeId) :=
  let t := s.ancestors start
  s.lookupAlong start name t.cut start t.steps

/-- The prototype of the function that a name calls at a node. -/
def calleePrototype (s : Store) (start : NodeId) (callee : Ident) : Resolve NodeId := do
  let target ← match ← s.moduleOf start with
    | some module => pure ((← s.read .module module).scope.lookup callee)
    | none => pure none
  match target with
  | none => unresolved (.undefined callee)
  | some target =>
    match ← s.construct target with
    | .function f => return f.prototype
    | .external e => return e.prototype
    | _ => unresolved (.notAFunction callee)

/-! ## Types -/

/-- Resolve a written type in the module of a node. -/
def resolve (s : Store) (ref : TypeRef) (start : NodeId) : Resolve Ty :=
  match ref with
  | .known ty => return ty
  | .named name => do
    let found ← match ← s.moduleOf start with
      | some module => pure ((← s.read .module module).scope.lookup name)
      | none => pure none
    match found with
    | none => unresolved (.undefinedType name)
    | some node =>
      match ← s.construct node with
      | .struct st => return .struct st.name node
      | _ => unresolved (.notAType name)

/-- Resolve the type written at a node, in the module of another. -/
def resolveAt (s : Store) (type start : NodeId) : Resolve Ty := do
  s.resolve (← s.read .typeRef type) start

/-- The type of an expression, following at most `n` links. -/
def typeWithin (s : Store) : Nat → NodeId → Resolve Ty
  | 0, _ => .error (.fault .endless)
  | n + 1, id => do
    match ← s.construct id with
    | .literal l => return l.ty
    | .binary b => if b.op.isComparison then return .prim .bool else s.typeWithin n b.lhs
    | .reference name =>
      match ← s.lookup id name with
      | none => unresolved (.undefined name)
      | some target =>
        match ← s.construct target with
        | .varDecl v =>
          match v.type with
          | some type => s.resolveAt type target
          | none => s.typeWithin n v.value
        | .global g => s.resolveAt g.type target
        | .typeRef ref => s.resolve ref target
        | _ => unresolved (.notAValue name)
    | .call c =>
      let prototype ← s.calleePrototype id c.callee
      s.resolveAt (← s.read .prototype prototype).returnType prototype
    | c => .error (.fault (.notExpression c.kind))

/-- The type of an expression.  A way longer than the store would come back to an
expression, and never end. -/
def typeOf (s : Store) (id : NodeId) : Resolve Ty := s.typeWithin (s.size + 1) id

/-- The type of a declared variable: the written one, or else its value's. -/
def declaredType (s : Store) (id : NodeId) : Resolve Ty := do
  let v ← s.read .varDecl id
  match v.type with
  | some type => s.resolveAt type id
  | none => s.typeOf v.value

/-! ## Mangled names -/

/-- The external name of a prototype: module, return type and name, then type and
name of each argument, joined by underscores.  Only the prototype of a function
that stands in a module has one. -/
def mangledName (s : Store) (prototype : NodeId) : Except Fault (Option String) := do
  match ← s.parent prototype with
  | none => return none
  | some owner =>
    let kind ← s.kind owner
    if kind ≠ .function ∧ kind ≠ .external then return none
    match ← s.moduleOf owner with
    | none => return none
    | some module =>
      let p ← s.read .prototype prototype
      let returnType ← s.read .typeRef p.returnType
      let m ← s.read .module module
      let arguments ← s.read .arguments p.arguments
      let parts ← arguments.scope.entries.mapM fun (name, node) => do
        match ← s.construct node with
        | .typeRef type => return "_" ++ type.text ++ "_" ++ name.text
        | _ => return ""
      return some (m.name.text ++ "_" ++ returnType.text ++ "_" ++ p.name.text ++
        String.join parts)

end Store

end FrontEnd
