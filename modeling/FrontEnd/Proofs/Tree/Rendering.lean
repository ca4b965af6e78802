import FrontEnd.Report.Notice
import FrontEnd.Tree.Block

/-!
# Trees under other names and numbers

A relabelling says what becomes of the numbers of nodes, of names, and of the numbers of notices.
It keeps apart names that are apart, and no others.  A rendering of a store relabels its nodes and
may put them among others, and does likewise to notices.

What is done to a store is then done to its rendering.  A rendering says so of the four operations
that read, change and add one node, and it follows for all others: each does to the rendering what
it does to the store, up to the labels.

## Main definitions

* `Relabelling`, `Construct.relabel`, `Node.relabel`: nodes with other names and numbers.
* `Rendering`: stores and notices with other names and numbers.
-/

namespace FrontEnd

/-! ## Relabelling -/

/-- What becomes of the numbers of nodes, of names, and of the numbers of notices. -/
structure Relabelling where
  node : NodeId → NodeId
  name : Ident → Ident
  notice : Nat → Nat
  same_name : ∀ i j, (name i).same (name j) = i.same j

section Relabel

variable (l : Relabelling)

/-- A scope whose names and nodes are relabelled. -/
def Scope.relabel (s : Scope) : Scope := ⟨s.entries.map fun e => (l.name e.1, l.node e.2)⟩

/-- A type whose struct is relabelled. -/
def Ty.relabel : Ty → Ty
  | .prim type => .prim type
  | .struct name node => .struct (l.name name) (l.node node)

/-- A type reference whose name or struct is relabelled. -/
def TypeRef.relabel : TypeRef → TypeRef
  | .named name => .named (l.name name)
  | .known ty => .known (ty.relabel l)

/-- A construct whose names, nodes and notices are relabelled. -/
def Construct.relabel : Construct → Construct
  | .module m => .module ⟨l.name m.name, m.items.map l.node, m.scope.relabel l⟩
  | .function f => .function ⟨f.attributes.map l.node, l.node f.prototype, l.node f.body⟩
  | .external e => .external ⟨e.attributes.map l.node, l.node e.prototype⟩
  | .prototype p => .prototype ⟨l.name p.name, l.node p.arguments, l.node p.returnType⟩
  | .arguments a => .arguments ⟨a.scope.relabel l, a.variadic⟩
  | .block b => .block ⟨b.statements.map l.node, b.scope.relabel l⟩
  | .struct s => .struct ⟨l.name s.name, s.fields.relabel l⟩
  | .global g => .global ⟨l.name g.name, l.node g.type, g.value.map l.node⟩
  | .attr name => .attr (l.name name)
  | .varDecl v => .varDecl ⟨l.name v.name, v.type.map l.node, l.node v.value⟩
  | .ret value => .ret (value.map l.node)
  | .exprStatement expression => .exprStatement (l.node expression)
  | .literal value => .literal value
  | .reference name => .reference (l.name name)
  | .call c => .call ⟨l.name c.callee, c.arguments.map l.node⟩
  | .binary b => .binary ⟨b.op, l.node b.lhs, l.node b.rhs⟩
  | .typeRef ref => .typeRef (ref.relabel l)
  | .errorMarker notice => .errorMarker (l.notice notice)

/-- A node whose construct and parent are relabelled. -/
def Node.relabel (node : Node) : Node :=
  ⟨node.construct.relabel l, node.parent.map l.node, node.span⟩

theorem Scope.lookup_relabel (s : Scope) (name : Ident) :
    (s.relabel l).lookup (l.name name) = (s.lookup name).map l.node := by
  simp only [lookup, relabel, List.find?_map, Option.map_map, Function.comp_def, l.same_name]

theorem Scope.append_relabel (s : Scope) (name : Ident) (node : NodeId) :
    (s.relabel l).append (l.name name) (l.node node) = (s.append name node).relabel l := by
  simp [append, relabel]

theorem Scope.nodes_relabel (s : Scope) : (s.relabel l).nodes = s.nodes.map l.node := by
  simp [nodes, relabel]

/-- A name is new in a relabelled scope exactly if it is new in the scope. -/
theorem Scope.insert_relabel (s : Scope) (name : Ident) (node : NodeId) :
    (s.relabel l).insert (l.name name) (l.node node) =
      match s.insert name node with
      | .ok longer => .ok (longer.relabel l)
      | .error existing => .error (l.node existing) := by
  rw [insert, insert, lookup_relabel]
  cases s.lookup name with
  | some existing => rfl
  | none => exact congrArg Except.ok (append_relabel l s name node)

theorem Construct.children_relabel (c : Construct) :
    (c.relabel l).children = c.children.map l.node := by
  cases c <;> simp [relabel, children, Scope.nodes_relabel, Option.toList_map]

theorem Construct.kind_relabel (c : Construct) : (c.relabel l).kind = c.kind := by
  cases c <;> rfl

end Relabel

/-! ## Tokens and notices -/

/-- A value that is changed where it was read. -/
def Located.map {α β : Type} (f : α → β) (a : Located α) : Located β := ⟨f a.value, a.span⟩

/-- A token whose name is changed. -/
def Token.rename (f : Ident → Ident) : Token → Token
  | .ident name => .ident (f name)
  | t => t

theorem Token.kind_rename (f : Ident → Ident) (t : Token) : (t.rename f).kind = t.kind := by
  cases t <;> rfl

/-- A diagnostic whose names are changed. -/
def Diagnostic.rename (f : Ident → Ident) : Diagnostic → Diagnostic
  | .duplicateField field owner => .duplicateField (f field) (f owner)
  | .duplicateDefinition name => .duplicateDefinition (f name)
  | .duplicateArgument argument function => .duplicateArgument (f argument) (f function)
  | .duplicateVariable name => .duplicateVariable (f name)
  | .emptyModule name => .emptyModule (f name)
  | d => d

/-- A notice whose names are changed. -/
def Notice.rename (f : Ident → Ident) (n : Notice) : Notice :=
  { n with diagnostic := n.diagnostic.rename f }

theorem Notice.rename_of (f : Ident → Ident) (d : Diagnostic) (span : Span) :
    (Notice.of d span).rename f = .of (d.rename f) span := by
  cases d <;> rfl

/-! ## Renderings -/

/-- What becomes of stores and of notices.  A node and a notice go where their numbers go. -/
structure Rendering extends Relabelling where
  store : Store → Store
  notices : Notices → Notices
  get?_store : ∀ s id, (store s).get? (node id) = (s.get? id).map (Node.relabel toRelabelling)
  modify_store : ∀ s id (f g : Node → Node),
    (∀ n, g (n.relabel toRelabelling) = (f n).relabel toRelabelling) →
      (store s).modify (node id) g = store (s.modify id f)
  fresh_store : ∀ s, (store s).fresh = node s.fresh
  push_store : ∀ s c span, (store s).push (c.relabel toRelabelling) span = store (s.push c span)
  size_notices : ∀ all, (notices all).size = notice all.size
  push_notices : ∀ all n, (notices all).push (n.rename name) = notices (all.push n)

namespace Rendering

variable (r : Rendering) (s : Store)

/-- A construct in a rendering. -/
def construct : Construct → Construct := Construct.relabel r.toRelabelling

/-- A scope in a rendering. -/
def scope : Scope → Scope := Scope.relabel r.toRelabelling

theorem setParent_store (id parent : NodeId) :
    (r.store s).setParent (r.node id) (r.node parent) = r.store (s.setParent id parent) :=
  r.modify_store s id _ _ fun _ => rfl

theorem setSpan_store (id : NodeId) (span : Span) :
    (r.store s).setSpan (r.node id) span = r.store (s.setSpan id span) :=
  r.modify_store s id _ _ fun _ => rfl

theorem put_store (id : NodeId) (c : Construct) :
    (r.store s).put (r.node id) (r.construct c) = r.store (s.put id c) :=
  r.modify_store s id _ _ fun _ => rfl

theorem link_store (parent : NodeId) (children : List NodeId) :
    (r.store s).link (r.node parent) (children.map r.node) = r.store (s.link parent children) := by
  induction children generalizing s with
  | nil => rfl
  | cons child children ih =>
    rw [List.map_cons, Store.link, List.foldl_cons, r.setParent_store]
    exact ih (s.setParent child parent)

/-- A node is added to a rendering. -/
theorem build_store (c : Construct) (span : Option Span) :
    (r.store s).build (r.construct c) span = (r.node (s.build c span).1,
      r.store (s.build c span).2) := by
  rw [Store.build, construct, r.push_store, r.fresh_store, Construct.children_relabel, r.link_store]
  rfl

/-! ### Blocks and modules -/

theorem itemNamed?_store (module : NodeId) (name : Ident) :
    (r.store s).itemNamed? (r.node module) (r.name name) =
      (s.itemNamed? module name).map r.node := by
  rw [Store.itemNamed?, Store.itemNamed?, r.get?_store]
  cases s.get? module with
  | none => rfl
  | some node =>
    obtain ⟨c, parent, span⟩ := node
    cases c with
    | module m => exact Scope.lookup_relabel r.toRelabelling m.scope name
    | _ => rfl

/-- An item of a module in a rendering. -/
theorem enlist_store (module item : NodeId) (name : Ident) :
    (r.store s).enlist (r.node module) (r.name name) (r.node item) =
      r.store (s.enlist module name item) := by
  rw [Store.enlist, Store.enlist, r.get?_store]
  cases s.get? module with
  | none => rfl
  | some node =>
    obtain ⟨c, parent, span⟩ := node
    cases c with
    | module m =>
      have hmodule : Construct.module ⟨r.name m.name, m.items.map r.node ++ [r.node item],
            (r.scope m.scope).append (r.name name) (r.node item)⟩ =
          r.construct (.module ⟨m.name, m.items ++ [item], m.scope.append name item⟩) := by
        simp [construct, scope, Construct.relabel, Scope.append_relabel]
      rw [← r.setParent_store, ← r.put_store, ← hmodule]
      rfl
    | _ => rfl

theorem declared?_store (statement : NodeId) :
    (r.store s).declared? (r.node statement) = (s.declared? statement).map r.name := by
  rw [Store.declared?, Store.declared?, r.get?_store]
  cases s.get? statement with
  | none => rfl
  | some node =>
    obtain ⟨c, parent, span⟩ := node
    cases c <;> rfl

theorem redeclared?_store (block statement : NodeId) :
    (r.store s).redeclared? (r.node block) (r.node statement) =
      (s.redeclared? block statement).map fun found => (r.name found.1, r.node found.2) := by
  rw [Store.redeclared?, Store.redeclared?, r.declared?_store, r.get?_store]
  cases s.declared? statement with
  | none => rfl
  | some name =>
    cases s.get? block with
    | none => rfl
    | some node =>
      obtain ⟨c, parent, span⟩ := node
      cases c with
      | block b =>
        change ((r.scope b.scope).lookup (r.name name)).map _ = _
        rw [scope, Scope.lookup_relabel, Option.map_map, Option.map_map]
        rfl
      | _ => rfl

/-- A statement of a block in a rendering. -/
theorem extend_store (block statement : NodeId) :
    (r.store s).extend (r.node block) (r.node statement) = r.store (s.extend block statement) := by
  rw [Store.extend, Store.extend, r.declared?_store, r.get?_store]
  cases s.get? block with
  | none => rfl
  | some node =>
    obtain ⟨c, parent, span⟩ := node
    cases c with
    | block b =>
      have hblock : Construct.block (BlockNode.snoc ⟨b.statements.map r.node, r.scope b.scope⟩
            (r.node statement) ((s.declared? statement).map r.name)) =
          r.construct (.block (b.snoc statement (s.declared? statement))) := by
        cases s.declared? statement with
        | none => simp [BlockNode.snoc, construct, scope, Construct.relabel]
        | some name =>
          simp [BlockNode.snoc, construct, scope, Construct.relabel, Scope.append_relabel]
      rw [← r.setParent_store, ← r.put_store, ← hblock]
      rfl
    | _ => rfl

/-- Spans stay as they are. -/
theorem span_store (id : NodeId) :
    ((r.store s).get? (r.node id)).bind Node.span = (s.get? id).bind Node.span := by
  rw [r.get?_store]
  cases s.get? id <;> rfl

end Rendering

end FrontEnd
