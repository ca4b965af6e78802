import FrontEnd.Fault
import FrontEnd.Position

/-!
# The store of nodes

All nodes of one session live in a store and are numbered in the order in which
they came.  A node knows its parent, if it has one, and its construct lists its
children.  A parent is set once, when the node is attached; only moving a statement
to another block sets it again.

Two operations add a node.  `Store.alloc` checks that the children it lists exist
and have no parent yet, and faults otherwise.  `Store.build` links the children
without a check, for callers that have just made them; on such children the two
agree (`Store.alloc_eq_build`).
-/

namespace FrontEnd

/-- A construct, its parent, and where it was read. -/
structure Node where
  construct : Construct
  parent : Option NodeId
  span : Option Span
deriving DecidableEq

/-- The kind of a node. -/
def Node.kind (n : Node) : Kind := n.construct.kind

/-- The nodes of a session, by number. -/
structure Store where
  nodes : Array Node
deriving DecidableEq

namespace Store

/-- A store without nodes. -/
def empty : Store := ⟨#[]⟩

/-- The number of nodes. -/
def size (s : Store) : Nat := s.nodes.size

/-! ## Reading -/

/-- The node of a number, if there is one. -/
def get? (s : Store) (id : NodeId) : Option Node := s.nodes[id.index]?

/-- The node of a number. -/
def node (s : Store) (id : NodeId) : Except Fault Node :=
  match s.get? id with
  | some n => .ok n
  | none => .error (.outOfBounds s.size id.index)

/-- The construct of a node. -/
def construct (s : Store) (id : NodeId) : Except Fault Construct :=
  return (← s.node id).construct

/-- The kind of a node. -/
def kind (s : Store) (id : NodeId) : Except Fault Kind :=
  return (← s.node id).kind

/-- The parent of a node. -/
def parent (s : Store) (id : NodeId) : Except Fault (Option NodeId) :=
  return (← s.node id).parent

/-- The children of a node. -/
def children (s : Store) (id : NodeId) : Except Fault (List NodeId) :=
  return (← s.construct id).children

/-- Read a node that has to be of a given shape. -/
def read {α : Type} (s : Store) (shape : Shape α) (id : NodeId) : Except Fault α := do
  let c ← s.construct id
  match shape.view? c with
  | some a => .ok a
  | none => .error (.wrongKind shape.kind id c.kind)

/-- Demand a node of a kind. -/
def demand (s : Store) (kind : Kind) (id : NodeId) : Except Fault Unit := do
  let found ← s.kind id
  if found = kind then return else .error (.wrongKind kind id found)

/-! ## Changing one node -/

/-- Change the node of a number; nothing happens where there is none. -/
def modify (s : Store) (id : NodeId) (f : Node → Node) : Store :=
  ⟨s.nodes.modify id.index f⟩

/-- Replace the construct of a node. -/
def put (s : Store) (id : NodeId) (c : Construct) : Store :=
  s.modify id fun n => { n with construct := c }

/-- Set the span of a node. -/
def setSpan (s : Store) (id : NodeId) (span : Span) : Store :=
  s.modify id fun n => { n with span := some span }

/-- Set the parent of a node, whether or not it has one. -/
def setParent (s : Store) (id parent : NodeId) : Store :=
  s.modify id fun n => { n with parent := some parent }

/-! ## Adding nodes -/

/-- The number that the next node gets. -/
def fresh (s : Store) : NodeId := ⟨s.size⟩

/-- Add a node without a parent, leaving its children as they are. -/
def push (s : Store) (c : Construct) (span : Option Span) : Store :=
  ⟨s.nodes.push ⟨c, none, span⟩⟩

/-- Give a node the parent that it lacks. -/
def attach (s : Store) (child parent : NodeId) : Except Fault Store :=
  if child = parent then .error .ownParent
  else do
    let n ← s.node child
    match n.parent with
    | some previous => .error (.alreadyAttached n.kind child previous)
    | none => .ok (s.setParent child parent)

/-- Attach several nodes to one parent, in order. -/
def adopt (s : Store) (parent : NodeId) (children : List NodeId) : Except Fault Store :=
  children.foldlM (fun s child => s.attach child parent) s

/-- Add a node and attach the children that its construct lists. -/
def alloc (s : Store) (c : Construct) (span : Option Span) : Except Fault (NodeId × Store) := do
  return (s.fresh, ← (s.push c span).adopt s.fresh c.children)

/-- Set the parent of several nodes. -/
def link (s : Store) (parent : NodeId) (children : List NodeId) : Store :=
  children.foldl (fun s child => s.setParent child parent) s

/-- Add a node and link the children that its construct lists. -/
def build (s : Store) (c : Construct) (span : Option Span) : NodeId × Store :=
  (s.fresh, (s.push c span).link s.fresh c.children)

/-! ## Items -/

/-- The item that already has a name in a module. -/
def itemNamed? (s : Store) (module : NodeId) (name : Ident) : Option NodeId :=
  match s.get? module with
  | some ⟨.module m, _, _⟩ => m.scope.lookup name
  | _ => none

/-- Append an item to a module under a name, linking it. -/
def enlist (s : Store) (module : NodeId) (name : Ident) (item : NodeId) : Store :=
  match s.get? module with
  | some ⟨.module m, _, _⟩ =>
    (s.put module (.module { m with
      items := m.items ++ [item]
      scope := m.scope.append name item })).setParent item module
  | _ => s

/-- Append an item to a module under a new name; for a name that is taken, the item
that has it. -/
def addItem (s : Store) (module : NodeId) (name : Ident) (item : NodeId) :
    Except Fault (Except NodeId Store) := do
  let m ← s.read .module module
  match m.scope.insert name item with
  | .error existing => return .error existing
  | .ok scope =>
    let s := s.put module (.module { m with items := m.items ++ [item], scope })
    return .ok (← s.attach item module)

/-- The name that a top-level item goes by. -/
def itemName (s : Store) (item : NodeId) : Except Fault (Option Ident) := do
  match ← s.construct item with
  | .function f => return some (← s.read .prototype f.prototype).name
  | .external e => return some (← s.read .prototype e.prototype).name
  | c => return c.name?

/-! ## What the operations do to single nodes -/

@[simp] theorem get?_empty (id : NodeId) : empty.get? id = none := by simp [empty, get?]

theorem get?_eq_none_iff {s : Store} {id : NodeId} : s.get? id = none ↔ s.size ≤ id.index := by
  simp [get?, size]

@[simp] theorem size_modify (s : Store) (id : NodeId) (f : Node → Node) :
    (s.modify id f).size = s.size := by simp [modify, size]

theorem get?_modify (s : Store) (id other : NodeId) (f : Node → Node) :
    (s.modify id f).get? other = if id = other then (s.get? other).map f else s.get? other := by
  cases id; cases other
  simp [modify, get?, Array.getElem?_modify]

@[simp] theorem size_push (s : Store) (c : Construct) (span : Option Span) :
    (s.push c span).size = s.size + 1 := by simp [push, size]

/-- The new node has the next number, and the others stay. -/
theorem get?_push (s : Store) (c : Construct) (span : Option Span) (id : NodeId) :
    (s.push c span).get? id = if id = s.fresh then some ⟨c, none, span⟩ else s.get? id := by
  cases id
  simp [push, get?, fresh, size, Array.getElem?_push]

@[simp] theorem size_setParent (s : Store) (id parent : NodeId) :
    (s.setParent id parent).size = s.size := size_modify ..

@[simp] theorem size_link (s : Store) (parent : NodeId) (children : List NodeId) :
    (s.link parent children).size = s.size := by
  induction children generalizing s with
  | nil => rfl
  | cons c cs ih => simp [link] at ih ⊢; simp [ih]

@[simp] theorem fst_build (s : Store) (c : Construct) (span : Option Span) :
    (s.build c span).1 = s.fresh := rfl

@[simp] theorem size_build (s : Store) (c : Construct) (span : Option Span) :
    (s.build c span).2.size = s.size + 1 := by simp [build]

/-- Attaching a node that exists, has no parent and is not its own parent sets the
parent. -/
theorem attach_eq_setParent {s : Store} {child parent : NodeId} {n : Node}
    (hne : child ≠ parent) (hn : s.get? child = some n) (hroot : n.parent = none) :
    s.attach child parent = .ok (s.setParent child parent) := by
  simp [attach, hne, node, hn, hroot, bind, Except.bind]

/-- Distinct roots are adopted by linking them. -/
theorem adopt_eq_link {s : Store} {parent : NodeId} {children : List NodeId}
    (hdistinct : children.Nodup) (hne : parent ∉ children)
    (hroots : ∀ c ∈ children, ∃ n, s.get? c = some n ∧ n.parent = none) :
    s.adopt parent children = .ok (s.link parent children) := by
  induction children generalizing s with
  | nil => rfl
  | cons c cs ih =>
    obtain ⟨hc, hcs⟩ := List.nodup_cons.mp hdistinct
    obtain ⟨n, hn, hroot⟩ := hroots c (by simp)
    have hcp : c ≠ parent := fun h => hne (by simp [h])
    have hlater : ∀ d ∈ cs, ∃ m, (s.setParent c parent).get? d = some m ∧ m.parent = none := by
      intro d hd
      obtain ⟨m, hm, hmroot⟩ := hroots d (by simp [hd])
      have hcd : c ≠ d := fun h => hc (h ▸ hd)
      exact ⟨m, by rw [setParent, get?_modify, if_neg hcd, hm], hmroot⟩
    have hrest := ih hcs (fun h => hne (by simp [h])) hlater
    simp only [adopt, List.foldlM_cons, attach_eq_setParent hcp hn hroot, bind, Except.bind]
    exact hrest

/-- On fresh children the checked and the unchecked addition agree. -/
theorem alloc_eq_build {s : Store} {c : Construct} {span : Option Span}
    (hdistinct : c.children.Nodup)
    (hroots : ∀ child ∈ c.children, ∃ n, s.get? child = some n ∧ n.parent = none) :
    s.alloc c span = .ok (s.build c span) := by
  have hfresh : ∀ child ∈ c.children, child ≠ s.fresh := by
    intro child hc h
    obtain ⟨n, hn, _⟩ := hroots child hc
    have hnone : s.get? s.fresh = none := get?_eq_none_iff.mpr (Nat.le_refl _)
    rw [h, hnone] at hn
    exact absurd hn (by simp)
  have hadopt : (s.push c span).adopt s.fresh c.children =
      .ok ((s.push c span).link s.fresh c.children) := by
    apply adopt_eq_link hdistinct
    · intro h; exact hfresh _ h rfl
    · intro child hc
      obtain ⟨n, hn, hroot⟩ := hroots child hc
      exact ⟨n, by rw [get?_push, if_neg (hfresh child hc), hn], hroot⟩
  simp [alloc, build, hadopt, bind, Except.bind, pure, Except.pure]

end Store

end FrontEnd
