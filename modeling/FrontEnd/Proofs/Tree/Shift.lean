import FrontEnd.Proofs.Phrase.Planting
import FrontEnd.Proofs.Tree.Rendering

/-!
# Renumbering nodes

A store can be put on top of another one: its nodes come behind those of the other, and every
number of a node, wherever it stands in a node, goes up by as many as there are nodes below.  The
numbers of notices that error markers hold go up as well.

Reading, changing and adding one node do the same on top of any store, up to the numbers, and leave
the nodes below as they are.  So a store on top of another one is a rendering of it.

## Main definitions

* `NodeId.shift`, `Construct.shift`, `Node.shift`: nodes with other numbers.
* `Store.onto`: one store on top of another.
-/

namespace FrontEnd

/-! ## Renumbering -/

/-- A number that has gone up by `n`. -/
def NodeId.shift (n : Nat) (id : NodeId) : NodeId := ⟨id.index + n⟩

theorem NodeId.shift_inj {n : Nat} {id other : NodeId} :
    id.shift n = other.shift n ↔ id = other := by
  cases id
  cases other
  simp [shift]

/-- A scope whose nodes have other numbers. -/
def Scope.shift (n : Nat) (s : Scope) : Scope := ⟨s.entries.map fun e => (e.1, e.2.shift n)⟩

/-- A type whose struct has another number. -/
def Ty.shift (n : Nat) : Ty → Ty
  | .prim type => .prim type
  | .struct name node => .struct name (node.shift n)

/-- A type reference whose struct has another number. -/
def TypeRef.shift (n : Nat) : TypeRef → TypeRef
  | .named name => .named name
  | .known ty => .known (ty.shift n)

/-- A construct whose nodes have numbers that are greater by `n`, and its notices by `k`. -/
def Construct.shift (n k : Nat) : Construct → Construct
  | .module m => .module ⟨m.name, m.items.map (NodeId.shift n), m.scope.shift n⟩
  | .function f =>
    .function ⟨f.attributes.map (NodeId.shift n), f.prototype.shift n, f.body.shift n⟩
  | .external e => .external ⟨e.attributes.map (NodeId.shift n), e.prototype.shift n⟩
  | .prototype p => .prototype ⟨p.name, p.arguments.shift n, p.returnType.shift n⟩
  | .arguments a => .arguments ⟨a.scope.shift n, a.variadic⟩
  | .block b => .block ⟨b.statements.map (NodeId.shift n), b.scope.shift n⟩
  | .struct s => .struct ⟨s.name, s.fields.shift n⟩
  | .global g => .global ⟨g.name, g.type.shift n, g.value.map (NodeId.shift n)⟩
  | .attr name => .attr name
  | .varDecl v => .varDecl ⟨v.name, v.type.map (NodeId.shift n), v.value.shift n⟩
  | .ret value => .ret (value.map (NodeId.shift n))
  | .exprStatement expression => .exprStatement (expression.shift n)
  | .literal value => .literal value
  | .reference name => .reference name
  | .call c => .call ⟨c.callee, c.arguments.map (NodeId.shift n)⟩
  | .binary b => .binary ⟨b.op, b.lhs.shift n, b.rhs.shift n⟩
  | .typeRef ref => .typeRef (ref.shift n)
  | .errorMarker notice => .errorMarker (notice + k)

/-- A node with other numbers. -/
def Node.shift (n k : Nat) (node : Node) : Node :=
  ⟨node.construct.shift n k, node.parent.map (NodeId.shift n), node.span⟩

/-- Shifting numbers relabels nodes and keeps names. -/
def Relabelling.shift (n k : Nat) : Relabelling := ⟨NodeId.shift n, id, (· + k), fun _ _ => rfl⟩

theorem Construct.relabel_shift (n k : Nat) (c : Construct) :
    c.relabel (.shift n k) = c.shift n k := by
  cases c with
  | typeRef ref =>
    cases ref with
    | named name => rfl
    | known ty => cases ty <;> rfl
  | _ => rfl

theorem Node.relabel_shift (n k : Nat) : Node.relabel (.shift n k) = Node.shift n k := by
  funext node
  rw [relabel, Construct.relabel_shift]
  rfl

/-! ## One store on top of another -/

namespace Store

/-- The nodes of a store on top of those of another one. -/
def onto (s base : Store) (k : Nat) : Store :=
  ⟨base.nodes ++ s.nodes.map (Node.shift base.size k)⟩

variable (s base : Store) (k : Nat)

@[simp] theorem onto_empty : empty.onto base k = base := by simp [onto, empty]

theorem size_onto : (s.onto base k).size = s.size + base.size := by
  simp [onto, size, Nat.add_comm]

theorem fresh_onto : (s.onto base k).fresh = s.fresh.shift base.size := by
  rw [fresh, size_onto]
  rfl

/-- The nodes below are as they were. -/
theorem get?_onto_of_lt {id : NodeId} (h : id.index < base.size) :
    (s.onto base k).get? id = base.get? id :=
  Array.getElem?_append_left h

/-- The nodes on top have gone up. -/
theorem get?_onto_shift (id : NodeId) :
    (s.onto base k).get? (id.shift base.size) = (s.get? id).map (Node.shift base.size k) := by
  rw [get?, onto, NodeId.shift, size, Array.getElem?_append_right (Nat.le_add_left _ _),
    Nat.add_sub_cancel, Array.getElem?_map]
  rfl

/-- A change of a node on top. -/
theorem modify_onto (id : NodeId) {f g : Node → Node}
    (h : ∀ node, g (node.shift base.size k) = (f node).shift base.size k) :
    (s.onto base k).modify (id.shift base.size) g = (s.modify id f).onto base k := by
  refine ext_get? fun other => ?_
  rw [get?_modify]
  by_cases hlow : other.index < base.size
  · have hne : id.shift base.size ≠ other := by
      rintro rfl
      exact absurd hlow (Nat.not_lt.mpr (Nat.le_add_left _ _))
    rw [if_neg hne, get?_onto_of_lt _ _ _ hlow, get?_onto_of_lt _ _ _ hlow]
  · obtain ⟨upper, rfl⟩ : ∃ upper : NodeId, other = upper.shift base.size :=
      ⟨⟨other.index - base.size⟩, by
        rw [NodeId.shift, Nat.sub_add_cancel (Nat.not_lt.mp hlow)]⟩
    simp only [get?_onto_shift, NodeId.shift_inj, get?_modify]
    split
    · rw [Option.map_map, Option.map_map]
      exact congrArg (Option.map · (s.get? upper)) (funext h)
    · rfl

theorem push_onto (c : Construct) (span : Option Span) :
    (s.onto base k).push (c.shift base.size k) span = (s.push c span).onto base k := by
  simp [push, onto, Node.shift]

end Store

end FrontEnd
