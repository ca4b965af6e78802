import FrontEnd.Proofs.Phrase.Planting
import FrontEnd.Proofs.Token.Casing
import FrontEnd.Tree.Lookup

/-!
# Trees in small letters

A store is put in small letters by putting there every name that its nodes hold.  Nothing that is
asked about a store depends on the case of names: the answer is the same, up to the names in it.

## Main definitions

* `Construct.folded`, `Node.folded`, `Store.folded`: trees in small letters.

## Main statements

* `Store.lookup_folded`, `Store.calleePrototype_folded`, `Store.resolve_folded`: what names mean
  does not depend on their case.
-/

namespace FrontEnd

/-! ## Nodes -/

/-- A scope in small letters. -/
def Scope.folded (s : Scope) : Scope := ⟨s.entries.map fun e => (e.1.folded, e.2)⟩

/-- A type in small letters. -/
def Ty.folded : Ty → Ty
  | .prim type => .prim type
  | .struct name node => .struct name.folded node

/-- A type reference in small letters. -/
def TypeRef.folded : TypeRef → TypeRef
  | .named name => .named name.folded
  | .known ty => .known ty.folded

/-- A module in small letters. -/
def ModuleNode.folded (m : ModuleNode) : ModuleNode := ⟨m.name.folded, m.items, m.scope.folded⟩

/-- A prototype in small letters. -/
def PrototypeNode.folded (p : PrototypeNode) : PrototypeNode := { p with name := p.name.folded }

/-- An argument list in small letters. -/
def ArgumentsNode.folded (a : ArgumentsNode) : ArgumentsNode := { a with scope := a.scope.folded }

/-- A block in small letters. -/
def BlockNode.folded (b : BlockNode) : BlockNode := { b with scope := b.scope.folded }

/-- A struct in small letters. -/
def StructNode.folded (s : StructNode) : StructNode := ⟨s.name.folded, s.fields.folded⟩

/-- A global in small letters. -/
def GlobalNode.folded (g : GlobalNode) : GlobalNode := { g with name := g.name.folded }

/-- A variable in small letters. -/
def VariableNode.folded (v : VariableNode) : VariableNode := { v with name := v.name.folded }

/-- A call in small letters. -/
def CallNode.folded (c : CallNode) : CallNode := { c with callee := c.callee.folded }

/-- A construct in small letters. -/
def Construct.folded : Construct → Construct
  | .module m => .module m.folded
  | .prototype p => .prototype p.folded
  | .arguments a => .arguments a.folded
  | .block b => .block b.folded
  | .struct s => .struct s.folded
  | .global g => .global g.folded
  | .attr name => .attr name.folded
  | .varDecl v => .varDecl v.folded
  | .reference name => .reference name.folded
  | .call c => .call c.folded
  | .typeRef ref => .typeRef ref.folded
  | c => c

/-- A node in small letters. -/
def Node.folded (n : Node) : Node := { n with construct := n.construct.folded }

/-- Small letters are other names, and no other numbers. -/
def Relabelling.folding : Relabelling := ⟨id, Ident.folded, id, Ident.same_folded⟩

@[simp] theorem Relabelling.node_folding : folding.node = id := rfl

@[simp] theorem Relabelling.name_folding : folding.name = Ident.folded := rfl

theorem Scope.relabel_folding (s : Scope) : s.relabel .folding = s.folded := rfl

theorem Construct.relabel_folding (c : Construct) : c.relabel .folding = c.folded := by
  cases c with
  | typeRef ref =>
    cases ref with
    | named name => rfl
    | known ty => cases ty <;> rfl
  | errorMarker notice => rfl
  | _ =>
    simp [relabel, folded, Scope.relabel_folding, ModuleNode.folded, PrototypeNode.folded,
      ArgumentsNode.folded, BlockNode.folded, StructNode.folded, GlobalNode.folded,
      VariableNode.folded, CallNode.folded]

theorem Node.relabel_folding : Node.relabel .folding = Node.folded := by
  funext n
  simp [relabel, folded, Construct.relabel_folding]

theorem Scope.lookup_folded (s : Scope) (name : Ident) :
    s.folded.lookup name.folded = s.lookup name := by
  have hlookup := s.lookup_relabel .folding name
  simpa [relabel_folding] using hlookup

@[simp] theorem Scope.nodes_folded (s : Scope) : s.folded.nodes = s.nodes := by
  simp [nodes, folded]

@[simp] theorem Scope.size_folded (s : Scope) : s.folded.size = s.size := by
  simp [size, folded]

@[simp] theorem Construct.children_folded (c : Construct) : c.folded.children = c.children := by
  cases c with
  | arguments a => exact a.scope.nodes_folded
  | struct s => exact s.fields.nodes_folded
  | _ => rfl

@[simp] theorem Construct.kind_folded (c : Construct) : c.folded.kind = c.kind := by
  cases c <;> rfl

@[simp] theorem Node.kind_folded (n : Node) : n.folded.kind = n.kind := n.construct.kind_folded

/-- A trail in small letters. -/
def Trail.folded (t : Trail) : Trail := ⟨t.steps.map fun step => (step.1, step.2.folded), t.cut⟩

theorem Trail.append_folded (t u : Trail) : (t.append u).folded = t.folded.append u.folded := by
  obtain ⟨steps, cut⟩ := t
  cases cut <;> simp [append, folded]

/-- A search along a trail that does not depend on the case of names. -/
theorem Trail.first?_folded {α : Type} (t : Trail) {f : NodeId → Node → Option α}
    (h : ∀ id node, f id node.folded = f id node) : t.folded.first? f = t.first? f := by
  simp [first?, folded, List.findSome?_map, Function.comp_def, h]

/-- Why a name could not be resolved, in small letters. -/
def ResolveError.folded : ResolveError → ResolveError
  | .undefinedType name => .undefinedType name.folded
  | .notAType name => .notAType name.folded
  | .undefined name => .undefined name.folded
  | .notAValue name => .notAValue name.folded
  | .notAFunction name => .notAFunction name.folded

/-- An answer about names or types in small letters, where `f` is what becomes of its value. -/
def Resolve.folded {α : Type} (f : α → α) : Resolve α → Resolve α
  | .ok a => .ok (f a)
  | .error (.fault fault) => .error (.fault fault)
  | .error (.unresolved error) => .error (.unresolved error.folded)

/-! ## Stores -/

namespace Store

/-- A store in small letters. -/
def folded (s : Store) : Store := ⟨s.nodes.map Node.folded⟩

variable (s : Store)

@[simp] theorem size_folded : s.folded.size = s.size := by simp [folded, size]

theorem get?_folded (id : NodeId) : s.folded.get? id = (s.get? id).map Node.folded := by
  simp [folded, get?]

theorem node_folded (id : NodeId) : s.folded.node id = (s.node id).map Node.folded := by
  rw [node, node, get?_folded, size_folded]
  cases s.get? id <;> rfl

theorem construct_folded (id : NodeId) :
    s.folded.construct id = (s.construct id).map Construct.folded := by
  rw [construct, construct, node_folded]
  cases s.node id <;> rfl

theorem kind_folded (id : NodeId) : s.folded.kind id = s.kind id := by
  rw [kind, kind, node_folded]
  cases s.node id with
  | ok n => exact congrArg Except.ok n.kind_folded
  | error f => rfl

/-- What a node of a shape holds, by what becomes of it in small letters. -/
theorem read_folded {α : Type} {shape : Shape α} {f : α → α}
    (h : ∀ c, shape.view? c.folded = (shape.view? c).map f) (id : NodeId) :
    s.folded.read shape id = (s.read shape id).map f := by
  rw [read, read, construct_folded]
  cases s.construct id with
  | error fault => rfl
  | ok c =>
    simp only [Except.map, bind, Except.bind, h, Construct.kind_folded]
    cases shape.view? c <;> rfl

theorem read_module_folded (id : NodeId) :
    s.folded.read .module id = (s.read .module id).map ModuleNode.folded :=
  s.read_folded (fun c => by cases c <;> rfl) id

theorem read_prototype_folded (id : NodeId) :
    s.folded.read .prototype id = (s.read .prototype id).map PrototypeNode.folded :=
  s.read_folded (fun c => by cases c <;> rfl) id

theorem read_arguments_folded (id : NodeId) :
    s.folded.read .arguments id = (s.read .arguments id).map ArgumentsNode.folded :=
  s.read_folded (fun c => by cases c <;> rfl) id

theorem read_block_folded (id : NodeId) :
    s.folded.read .block id = (s.read .block id).map BlockNode.folded :=
  s.read_folded (fun c => by cases c <;> rfl) id

theorem read_literal_folded (literal : NodeId) :
    s.folded.read .literal literal = s.read .literal literal := by
  rw [s.read_folded (f := id) (fun c => by cases c <;> rfl) literal]
  cases s.read .literal literal <;> rfl

/-! ### Ways through a store -/

theorem ancestorsWithin_folded (n : Nat) (id : NodeId) :
    s.folded.ancestorsWithin n id = (s.ancestorsWithin n id).folded := by
  induction n generalizing id with
  | zero => rfl
  | succ n ih =>
    rw [ancestorsWithin, ancestorsWithin, get?_folded, size_folded]
    cases s.get? id with
    | none => rfl
    | some node =>
      obtain ⟨c, parent, span⟩ := node
      cases parent with
      | none => rfl
      | some parent => exact congrArg (Trail.cons _) (ih parent)

theorem ancestors_folded (id : NodeId) : s.folded.ancestors id = (s.ancestors id).folded := by
  rw [ancestors, size_folded, ancestorsWithin_folded, ancestors]

theorem descendantsWithin_folded (n : Nat) (id : NodeId) :
    s.folded.descendantsWithin n id = (s.descendantsWithin n id).folded := by
  induction n generalizing id with
  | zero => rfl
  | succ n ih =>
    rw [descendantsWithin, descendantsWithin, get?_folded, size_folded]
    cases s.get? id with
    | none => rfl
    | some node =>
      have hfold : ∀ (children : List NodeId) (t : Trail),
          children.foldl (fun t child => t.append (s.folded.descendantsWithin n child)) t.folded =
            (children.foldl (fun t child => t.append (s.descendantsWithin n child)) t).folded := by
        intro children
        induction children with
        | nil => exact fun _ => rfl
        | cons child children ihc =>
          intro t
          rw [List.foldl_cons, List.foldl_cons, ih child, ← Trail.append_folded]
          exact ihc _
      dsimp only [Option.map_some]
      rw [Node.folded, Construct.children_folded]
      exact hfold node.construct.children ⟨[(id, node)], none⟩

theorem errorMarkers_folded (root : NodeId) : s.folded.errorMarkers root = s.errorMarkers root := by
  rw [errorMarkers, errorMarkers, descendants, descendants, size_folded, descendantsWithin_folded]
  obtain ⟨steps, cut⟩ := s.descendantsWithin (s.size + 1) root
  cases cut with
  | some fault => rfl
  | none =>
    refine congrArg Except.ok ?_
    rw [Trail.folded, List.filterMap_map]
    congr 1
    funext step
    obtain ⟨id, c, parent, span⟩ := step
    cases c <;> rfl

theorem moduleOf_folded (id : NodeId) : s.folded.moduleOf id = s.moduleOf id := by
  rw [moduleOf, moduleOf, ancestors_folded, Trail.first?_folded]
  intro id node
  rw [Node.kind_folded]

theorem nearestSpan_folded (id : NodeId) : s.folded.nearestSpan id = s.nearestSpan id := by
  rw [nearestSpan, nearestSpan, ancestors_folded, Trail.first?_folded _ fun _ _ => rfl, kind_folded]

/-! ### Blocks -/

theorem locate_folded (block statement : NodeId) :
    s.folded.locate block statement = s.locate block statement := by
  rw [locate, locate, read_block_folded]
  cases s.read .block block <;> rfl

theorem precedes_folded (block statement later : NodeId) :
    s.folded.precedes block statement later = s.precedes block statement later := by
  rw [precedes, precedes, locate_folded, locate_folded]

theorem lastStatement_folded (block : NodeId) :
    s.folded.lastStatement block = s.lastStatement block := by
  rw [lastStatement, lastStatement, read_block_folded]
  cases s.read .block block <;> rfl

theorem isTerminal_folded (statement : NodeId) :
    s.folded.isTerminal statement = s.isTerminal statement := by
  rw [isTerminal, isTerminal, kind_folded]

/-! ### Names -/

theorem visible_folded (start inner id : NodeId) (name : Ident) (c : Construct) :
    s.folded.visible start inner name.folded id c.folded = s.visible start inner name id c := by
  cases c with
  | block b =>
    simp only [Construct.folded, visible, BlockNode.folded, Scope.lookup_folded, precedes_folded]
  | function f =>
    simp only [Construct.folded, visible, read_prototype_folded]
    cases s.read .prototype f.prototype with
    | error fault => rfl
    | ok p =>
      simp only [Except.map, bind, Except.bind, PrototypeNode.folded, read_arguments_folded]
      cases s.read .arguments p.arguments with
      | error fault => rfl
      | ok a => exact congrArg Except.ok (a.scope.lookup_folded name)
  | module m => exact congrArg Except.ok (m.scope.lookup_folded name)
  | _ => rfl

theorem lookupAlong_folded (start inner : NodeId) (name : Ident) (cut : Option Fault)
    (steps : List (NodeId × Node)) :
    s.folded.lookupAlong start name.folded cut inner
        (steps.map fun step => (step.1, step.2.folded)) =
      s.lookupAlong start name cut inner steps := by
  induction steps generalizing inner with
  | nil => rfl
  | cons step rest ih =>
    have hvisible := s.visible_folded start inner step.1 name step.2.construct
    simp only [List.map_cons, lookupAlong, ih, ← hvisible]
    rfl

/-- A name means the same node whatever the case of its letters. -/
theorem lookup_folded (start : NodeId) (name : Ident) :
    s.folded.lookup start name.folded = s.lookup start name := by
  rw [lookup, lookup, ancestors_folded]
  exact s.lookupAlong_folded start start name _ _

/-- A name calls the same function whatever the case of its letters. -/
theorem calleePrototype_folded (start : NodeId) (callee : Ident) :
    s.folded.calleePrototype start callee.folded =
      Resolve.folded id (s.calleePrototype start callee) := by
  rw [calleePrototype, calleePrototype, moduleOf_folded]
  cases s.moduleOf start with
  | error fault => rfl
  | ok found =>
    cases found with
    | none => rfl
    | some module =>
      simp only [bind, Except.bind, liftM, monadLift, MonadLift.monadLift, Except.mapError,
        read_module_folded]
      cases s.read .module module with
      | error fault => rfl
      | ok m =>
        simp only [Except.map, ModuleNode.folded, Scope.lookup_folded, pure, Except.pure,
          construct_folded]
        cases m.scope.lookup callee with
        | none => rfl
        | some target =>
          dsimp only
          cases s.construct target with
          | error fault => rfl
          | ok c => cases c <;> rfl

/-- A type name names the same struct whatever the case of its letters. -/
theorem resolve_folded (ref : TypeRef) (start : NodeId) :
    s.folded.resolve ref.folded start = Resolve.folded Ty.folded (s.resolve ref start) := by
  cases ref with
  | known ty => rfl
  | named name =>
    simp only [resolve, TypeRef.folded, moduleOf_folded]
    cases s.moduleOf start with
    | error fault => rfl
    | ok found =>
      cases found with
      | none => rfl
      | some module =>
        simp only [bind, Except.bind, liftM, monadLift, MonadLift.monadLift, Except.mapError,
          read_module_folded]
        cases s.read .module module with
        | error fault => rfl
        | ok m =>
          simp only [Except.map, ModuleNode.folded, Scope.lookup_folded, pure, Except.pure,
            construct_folded]
          cases m.scope.lookup name with
          | none => rfl
          | some node =>
            dsimp only
            cases s.construct node with
            | error fault => rfl
            | ok c => cases c <;> rfl

end Store

/-! ## Small letters as a rendering -/

/-- Putting stores and notices in small letters renders them. -/
def Rendering.folding : Rendering where
  toRelabelling := .folding
  store := Store.folded
  notices := Array.map (Notice.rename Ident.folded)
  get?_store s id := by
    rw [Node.relabel_folding]
    exact s.get?_folded id
  modify_store s place f g h := by
    rw [Node.relabel_folding] at h
    change s.folded.modify place g = (s.modify place f).folded
    refine Store.ext_get? fun other => ?_
    simp only [Store.get?_modify, Store.get?_folded]
    split
    · rw [Option.map_map, Option.map_map]
      exact congrArg (Option.map · (s.get? other)) (funext h)
    · rfl
  fresh_store s := congrArg NodeId.mk s.size_folded
  push_store s c span := by
    rw [Construct.relabel_folding]
    simp [Store.push, Store.folded, Node.folded]
  size_notices all := Array.size_map
  push_notices all n := Array.map_push.symm

end FrontEnd
