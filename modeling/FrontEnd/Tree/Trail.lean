import FrontEnd.Tree.Store

/-!
# Trails

A trail lists the nodes that following links reaches, in order.  A trail that runs
into a number out of range, or that would never end, is cut there and keeps the
fault.  A search that is answered before the cut does not meet the fault.

## Main definitions

* `Store.ancestors`: a node and the nodes above it, nearest first.
* `Store.descendants`: a node and the nodes below it, each before its children and
  siblings in order.
-/

namespace FrontEnd

/-- Nodes in the order in which they are reached, and the fault that cut the trail
short, if one did. -/
structure Trail where
  steps : List (NodeId × Node)
  cut : Option Fault

namespace Trail

/-- A trail that a fault cuts at once. -/
def broken (fault : Fault) : Trail := ⟨[], some fault⟩

/-- A trail that starts one node earlier. -/
def cons (step : NodeId × Node) (t : Trail) : Trail := ⟨step :: t.steps, t.cut⟩

/-- One trail after another; nothing follows a cut. -/
def append (t u : Trail) : Trail :=
  match t.cut with
  | some _ => t
  | none => ⟨t.steps ++ u.steps, u.cut⟩

/-- All nodes of an uncut trail. -/
def whole (t : Trail) : Except Fault (List NodeId) :=
  match t.cut with
  | some fault => .error fault
  | none => .ok (t.steps.map Prod.fst)

/-- The first answer along a trail. -/
def first? {α : Type} (t : Trail) (f : NodeId → Node → Option α) : Except Fault (Option α) :=
  match t.steps.findSome? fun step => f step.1 step.2 with
  | some a => .ok (some a)
  | none =>
    match t.cut with
    | some fault => .error fault
    | none => .ok none

/-- A trail up to and including the first node that satisfies a test, and whether
the trail passed without such a node. -/
def upTo (t : Trail) (p : Node → Bool) : Except Fault (List (NodeId × Node) × Bool) :=
  match t.steps.findIdx? fun step => p step.2 with
  | some index => .ok (t.steps.take (index + 1), false)
  | none =>
    match t.cut with
    | some fault => .error fault
    | none => .ok (t.steps, true)

end Trail

namespace Store

/-- At most `n` nodes from a node upward. -/
def ancestorsWithin (s : Store) : Nat → NodeId → Trail
  | 0, _ => .broken .endless
  | n + 1, id =>
    match s.get? id with
    | none => .broken (.outOfBounds s.size id.index)
    | some node =>
      match node.parent with
      | none => ⟨[(id, node)], none⟩
      | some parent => (s.ancestorsWithin n parent).cons (id, node)

/-- A node and the nodes above it, nearest first.  A chain longer than the store
would visit a node twice. -/
def ancestors (s : Store) (id : NodeId) : Trail := s.ancestorsWithin (s.size + 1) id

/-- The nodes from a node downward, at most `n` levels deep. -/
def descendantsWithin (s : Store) : Nat → NodeId → Trail
  | 0, _ => .broken .endless
  | n + 1, id =>
    match s.get? id with
    | none => .broken (.outOfBounds s.size id.index)
    | some node =>
      node.construct.children.foldl (fun t child => t.append (s.descendantsWithin n child))
        ⟨[(id, node)], none⟩

/-- A node and the nodes below it, each before its children. -/
def descendants (s : Store) (id : NodeId) : Trail := s.descendantsWithin (s.size + 1) id

/-- The error markers at or below a node, each with the number of its notice. -/
def errorMarkers (s : Store) (root : NodeId) : Except Fault (List (NodeId × Nat)) :=
  let t := s.descendants root
  match t.cut with
  | some fault => .error fault
  | none => .ok (t.steps.filterMap fun (id, node) =>
      match node.construct with
      | .errorMarker notice => some (id, notice)
      | _ => none)

/-- The module that a node belongs to, or the node itself if it is a module. -/
def moduleOf (s : Store) (id : NodeId) : Except Fault (Option NodeId) :=
  (s.ancestors id).first? fun id node => if node.kind = .module then some id else none

/-- The span of a node, or of the nearest node above it that has one. -/
def nearestSpan (s : Store) (id : NodeId) : Except Fault Span := do
  match ← (s.ancestors id).first? fun _ node => node.span with
  | some span => return span
  | none => throw (.unlocated (← s.kind id) id)

/-! ## Outlines -/

/-- The kinds, names and numbers at or below a node, one line each, indented by
depth; at most `n` levels. -/
def outlineWithin (s : Store) : Nat → Nat → NodeId → Except Fault String
  | 0, _, _ => .error .endless
  | n + 1, depth, id => do
    let kind ← s.kind id
    let name := match ← s.itemName id with
      | some name => " `" ++ name.text ++ "`"
      | none => ""
    let below ← (← s.children id).mapM (s.outlineWithin n (depth + 1))
    return Text.repeated (2 * depth) ' ' ++ kind.text ++ name ++ " " ++ id.text ++
      "\n" ++ String.join below

/-- The outline of the tree under a node. -/
def outline (s : Store) (id : NodeId) : Except Fault String := s.outlineWithin (s.size + 1) 0 id

end Store

end FrontEnd
