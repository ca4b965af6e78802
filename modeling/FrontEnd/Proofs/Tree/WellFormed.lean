import FrontEnd.Proofs.Tree.Surroundings

/-!
# Well-formed trees

What a tree has to satisfy beyond the grammar, node by node: type names are names of
structs, names used as values have a value, calls call functions with as many arguments
as they take, functions that return a value end in a return, and the initial values of
globals fit their types.  No condition depends on the order of the declarations.

Which literals fit which types is a parameter.

## Main definitions

* `WellFormedAt`: the condition on one node.
* `WellFormedBelow`: the condition on every node at or below one.
-/

namespace FrontEnd

/-- The construct is what a name that is used as a value may refer to; an argument is the
node of its type. -/
def Construct.isValue : Construct → Bool
  | .varDecl _ | .typeRef _ | .global _ => true
  | _ => false

/-- The prototype of a function, whether or not it has a body. -/
def Construct.prototype? : Construct → Option NodeId
  | .function f => some f.prototype
  | .external e => some e.prototype
  | _ => none

/-- A list of parameters takes a number of arguments. -/
def ArgumentsNode.Takes (a : ArgumentsNode) (count : Nat) : Prop :=
  count = a.scope.size ∨ a.variadic = true ∧ a.scope.size ≤ count

namespace Store

variable {s : Store} {root id : NodeId} {p : Option NodeId} {c : Construct}
  {fits : Literal → Ty → Prop}

/-- A name is that of a struct of a module. -/
def NamesStruct (s : Store) (root : NodeId) (name : Ident) : Prop :=
  ∃ item st, s.itemNamed? root name = some item ∧ s.read .struct item = .ok st

/-- A name has a value at a node. -/
def NamesValue (s : Store) (id : NodeId) (name : Ident) : Prop :=
  ∃ target c, s.lookup id name = .ok (some target) ∧ s.construct target = .ok c ∧
    c.isValue = true

/-- A name is that of a function of a module, with these parameters. -/
def NamesFunction (s : Store) (root : NodeId) (name : Ident) (arguments : ArgumentsNode) : Prop :=
  ∃ item c prototype node, s.itemNamed? root name = some item ∧ s.construct item = .ok c ∧
    c.prototype? = some prototype ∧ s.read .prototype prototype = .ok node ∧
    s.read .arguments node.arguments = .ok arguments

/-- A function returns nothing. -/
def ReturnsVoid (s : Store) (f : FunctionNode) : Prop :=
  ∃ node, s.read .prototype f.prototype = .ok node ∧
    s.read .typeRef node.returnType = .ok (.known (.prim .void))

/-- The last statement of a block is a return. -/
def EndsInReturn (s : Store) (block : NodeId) : Prop :=
  ∃ last value, s.lastStatement block = .ok (some last) ∧ s.read .ret last = .ok value

/-- The condition on a node of the tree of a module. -/
def WellFormedAt (fits : Literal → Ty → Prop) (s : Store) (root id : NodeId) : Construct → Prop
  | .typeRef (.named name) => s.NamesStruct root name
  | .reference name => s.NamesValue id name
  | .call c => ∃ arguments, s.NamesFunction root c.callee arguments ∧
      arguments.Takes c.arguments.length
  | .function f => s.ReturnsVoid f ∨ s.EndsInReturn f.body
  | .global g => ∀ value ∈ g.value, ∃ l ty, s.read .literal value = .ok l ∧
      s.read .typeRef g.type = .ok (.known ty) ∧ fits l ty
  | _ => True

/-- Every node at or below one satisfies its condition. -/
def WellFormedBelow (fits : Literal → Ty → Prop) (s : Store) (root id : NodeId) : Prop :=
  ∀ below node, s.Below id below → s.get? below = some node →
    s.WellFormedAt fits root below node.construct

/-- A tree is well formed if its root is, and the trees below the root are. -/
theorem wellFormedBelow_iff (h : s.Has p id c) :
    s.WellFormedBelow fits root id ↔ s.WellFormedAt fits root id c ∧
      ∀ child ∈ c.children, s.WellFormedBelow fits root child := by
  obtain ⟨span, hget⟩ := h
  constructor
  · intro hall
    refine ⟨hall id _ (.refl id) hget, fun child hchild below node hbelow hnode => ?_⟩
    exact hall below node (hbelow.head hget hchild) hnode
  · intro hall below node hbelow hnode
    rcases hbelow.cases_head hget with rfl | ⟨child, hchild, hrest⟩
    · obtain rfl := Option.some.inj (hget.symm.trans hnode)
      exact hall.1
    · exact hall.2 child hchild below node hrest hnode

/-- A node without children whose construct has no condition. -/
theorem wellFormedBelow_of_leaf (h : s.Has p id c) (hnone : c.children = [])
    (hat : s.WellFormedAt fits root id c) : s.WellFormedBelow fits root id :=
  (wellFormedBelow_iff h).mpr ⟨hat, by simp [hnone]⟩

/-- The tree of a module is not well formed if a node in it is not. -/
theorem not_wellFormedBelow (hbelow : s.Below root id) (h : s.Has p id c)
    (hat : ¬ s.WellFormedAt fits root id c) : ¬ s.WellFormedBelow fits root root := by
  obtain ⟨span, hget⟩ := h
  exact fun hall => hat (hall id _ hbelow hget)

/-- Only the literals of globals depend on which literals fit which types. -/
theorem WellFormedBelow.imp {fits' : Literal → Ty → Prop} (h : s.WellFormedBelow fits root id)
    (himp : ∀ below g value l ty, s.Below id below → s.construct below = .ok (.global g) →
      value ∈ g.value → s.read .literal value = .ok l → fits l ty → fits' l ty) :
    s.WellFormedBelow fits' root id := by
  intro below node hbelow hnode
  have hat := h below node hbelow hnode
  have hconstruct : s.construct below = .ok node.construct := by
    rw [construct, Store.node, hnode]
    rfl
  cases hc : node.construct with
  | global g =>
    rw [hc] at hat hconstruct
    intro value hvalue
    obtain ⟨l, ty, hread, htype, hfits⟩ := hat value hvalue
    exact ⟨l, ty, hread, htype, himp below g value l ty hbelow hconstruct hvalue hread hfits⟩
  | typeRef ref =>
    rw [hc] at hat
    cases ref with
    | named name => exact hat
    | known ty => exact hat
  | _ =>
    rw [hc] at hat
    exact hat

end Store

end FrontEnd
