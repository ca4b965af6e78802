import FrontEnd.Proofs.Tree.Surroundings
import FrontEnd.Proofs.Phrase.Planting

/-!
# Links that agree

The links of a tree go both ways: a node lists its children, and each of them names it as its
parent.  `Tidy base s` says that the two agree on the nodes that a store has got since it was
`base`, that every child stands in a place for its kind and has a span, and that the scopes of
modules and blocks follow their items and statements.

A node without a parent is a root, and any root may still be taken in by another.  `Holds base s
held` names some distinct roots in a tidy store.  Each operation of the store takes in roots that
are held, and leaves the others alone.

## Main definitions

* `Construct.parts`: the children of a construct, with the kinds that their places take.
* `Store.Orderly`, `Store.Tidy`: the invariant, of one node and of a store.
* `Store.Holds`: the roots at hand, with one rule for each operation of the store.

## Main statements

* `Store.Holds.alloc_eq`, `Store.Holds.appendStatement_eq`, `Store.Holds.addItem_eq`: where roots
  are at hand, the operations that check them do what those do that do not.
-/

namespace FrontEnd

/-! ## The places of a construct -/

namespace Kind

/-- The kinds of expressions. -/
def expressions : List Kind := [.literal, .reference, .call, .binary]

/-- The kinds of statements. -/
def statements : List Kind := [.block, .varDecl, .ret, .exprStatement]

/-- The kinds of items of a module. -/
def items : List Kind := [.function, .external, .struct, .global]

end Kind

/-- A node for a place: the kinds that it may have, and whether it has to have a span. -/
structure Child where
  node : NodeId
  kinds : List Kind
  located : Bool

/-- A node for a place in a tree, where every node has a span. -/
def Child.of (kinds : List Kind) (node : NodeId) : Child := ⟨node, kinds, true⟩

/-- The children of a construct, each with the kinds that its place takes. -/
def Construct.parts : Construct → List Child
  | .module m => m.items.map (.of Kind.items)
  | .function f => f.attributes.map (.of [.attr]) ++
      [.of [.prototype] f.prototype, .of [.block] f.body]
  | .external e => e.attributes.map (.of [.attr]) ++ [.of [.prototype] e.prototype]
  | .prototype p => [.of [.arguments] p.arguments, .of [.typeRef] p.returnType]
  | .arguments a => a.scope.nodes.map (.of [.typeRef])
  | .block b => b.statements.map (.of Kind.statements)
  | .struct s => s.fields.nodes.map (.of [.typeRef])
  | .global g => .of [.typeRef] g.type :: g.value.toList.map (.of [.literal])
  | .varDecl v => v.type.toList.map (.of [.typeRef]) ++ [.of Kind.expressions v.value]
  | .ret value => value.toList.map (.of Kind.expressions)
  | .exprStatement expression => [.of Kind.expressions expression]
  | .call c => c.arguments.map (.of Kind.expressions)
  | .binary b => [.of Kind.expressions b.lhs, .of Kind.expressions b.rhs]
  | .attr _ | .literal _ | .reference _ | .typeRef _ | .errorMarker _ => []

@[simp] theorem Child.node_of (kinds : List Kind) (node : NodeId) :
    (Child.of kinds node).node = node :=
  rfl

theorem Child.node_comp_of (kinds : List Kind) : Child.node ∘ Child.of kinds = id := rfl

theorem Construct.map_node_parts (c : Construct) : c.parts.map Child.node = c.children := by
  cases c <;> simp [parts, children, Child.node_comp_of]

theorem Construct.located_of_mem_parts {c : Construct} {part : Child} (h : part ∈ c.parts) :
    part.located = true := by
  cases c <;> simp [parts, Child.of] at h <;> grind

namespace Store

variable {base s s' : Store} {id q : NodeId} {c c' : Construct} {n : Node} {held : List Child}

/-- The construct of a node, if there is one. -/
def construct? (s : Store) (id : NodeId) : Option Construct := (s.get? id).map Node.construct

/-- What is read of a node is read of the node that the store has. -/
theorem node_eq_ok_iff : s.node id = .ok n ↔ s.get? id = some n := by
  rw [node]
  cases s.get? id <;> simp

/-- Two steps that end well end well one after the other. -/
theorem ok_of_bind {α β : Type} {x : Except Fault α} {f : α → Except Fault β} {r : β}
    (h : (x >>= f) = .ok r) : ∃ a, x = .ok a ∧ f a = .ok r := by
  cases x with
  | error fault => cases h
  | ok a => exact ⟨a, rfl, h⟩

theorem exists_of_construct (h : s.construct id = .ok c) :
    ∃ n, s.get? id = some n ∧ n.construct = c := by
  obtain ⟨n, hn, hc⟩ := ok_of_bind h
  exact ⟨n, node_eq_ok_iff.mp hn, Except.ok.inj hc⟩

theorem exists_of_children {children : List NodeId} (h : s.children id = .ok children) :
    ∃ n, s.get? id = some n ∧ n.construct.children = children := by
  obtain ⟨c, hc, hchildren⟩ := ok_of_bind h
  obtain ⟨n, hn, rfl⟩ := exists_of_construct hc
  exact ⟨n, hn, Except.ok.inj hchildren⟩

theorem exists_of_read {α : Type} {shape : Shape α} {a : α} (h : s.read shape id = .ok a) :
    ∃ n, s.get? id = some n ∧ shape.view? n.construct = some a := by
  obtain ⟨c, hc, hread⟩ := ok_of_bind h
  obtain ⟨n, hn, rfl⟩ := exists_of_construct hc
  refine ⟨n, hn, ?_⟩
  split at hread
  next hview => exact hview.trans (congrArg some (Except.ok.inj hread))
  next => cases hread

/-- The variables that statements declare, in order. -/
def declarations (s : Store) (statements : List NodeId) : List (Ident × NodeId) :=
  statements.filterMap fun statement => (s.declared? statement).map (·, statement)

/-- The scope of a module holds its items, and that of a block the variables that its statements
declare, in order. -/
def ScopeFits (s : Store) : Construct → Prop
  | .module m => m.scope.nodes = m.items
  | .block b => b.scope.entries = s.declarations b.statements
  | _ => True

theorem declared?_congr (h : s'.construct? id = s.construct? id) :
    s'.declared? id = s.declared? id := by
  rw [construct?, construct?] at h
  rw [declared?, declared?]
  cases hn : s.get? id with
  | none => simp_all
  | some n =>
    cases hn' : s'.get? id with
    | none => simp_all
    | some n' =>
      obtain ⟨c, p, span⟩ := n
      obtain ⟨c', p', span'⟩ := n'
      have hc : c' = c := by simpa [hn, hn'] using h
      subst hc
      cases c' <;> rfl

/-- What a scope has to hold depends on the constructs of the children alone. -/
theorem ScopeFits.congr (h : ScopeFits s c)
    (hsame : ∀ child ∈ c.children, s'.construct? child = s.construct? child) :
    ScopeFits s' c := by
  cases c with
  | block b =>
    change b.scope.entries = _
    rw [show b.scope.entries = _ from h, declarations, declarations]
    refine List.filterMap_congr fun child hchild => ?_
    rw [declared?_congr (hsame child hchild)]
  | module m => exact h
  | _ => trivial

/-! ## Stores in order -/

/-- A node that came after `base` is in order: its links agree with those of other nodes, and
what stands in its places belongs there. -/
structure Orderly (base s : Store) (id : NodeId) (n : Node) : Prop where
  nodup : n.construct.children.Nodup
  child : ∀ child ∈ n.construct.children, base.size ≤ child.index ∧
    ∃ m, s.get? child = some m ∧ m.parent = some id ∧ m.span.isSome = true
  parent : ∀ p, n.parent = some p → base.size ≤ p.index ∧
    ∃ m, s.get? p = some m ∧ id ∈ m.construct.children
  parts : ∀ part ∈ n.construct.parts,
    ∃ c, s.construct? part.node = some c ∧ c.kind ∈ part.kinds
  scope : ScopeFits s n.construct

/-- A store has got nodes since it was `base`, all of them are in order, and so the way up from
each of them ends. -/
structure Tidy (base s : Store) : Prop where
  grown : Grown base s
  orderly : ∀ id n, base.size ≤ id.index → s.get? id = some n → Orderly base s id n
  rooted : ∀ id n, base.size ≤ id.index → s.get? id = some n → ∃ steps, Chain s (some id) steps

theorem Tidy.refl (s : Store) : Tidy s s where
  grown := .refl s
  orderly id n hid hn := by
    have hlt := index_lt_of_get? hn
    omega
  rooted id n hid hn := by
    have hlt := index_lt_of_get? hn
    omega

theorem Chain.mono {start : Option NodeId} {steps : List (NodeId × Node)}
    (h : Chain s start steps) (hsame : ∀ id n, s.get? id = some n → s'.get? id = some n) :
    Chain s' start steps := by
  induction h with
  | nil => exact .nil
  | cons hget _ ih => exact .cons (hsame _ _ hget) ih

/-- A way up stays as it is where nodes keep their parents. -/
theorem Chain.of_parents {start : Option NodeId} {steps : List (NodeId × Node)}
    (h : Chain s start steps) (hsame : ∀ id n, (id, n) ∈ steps → s.get? id = some n →
      ∃ n', s'.get? id = some n' ∧ n'.parent = n.parent) :
    ∃ steps', Chain s' start steps' ∧ steps'.map Prod.fst = steps.map Prod.fst := by
  induction h with
  | nil => exact ⟨[], .nil, rfl⟩
  | @cons id n steps hget _ ih =>
    obtain ⟨n', hget', hparent⟩ := hsame id n (by simp) hget
    obtain ⟨steps', hrest, hmap⟩ := ih fun id n hmem => hsame id n (by simp [hmem])
    exact ⟨(id, n') :: steps', .cons hget' (hparent ▸ hrest), by simp [hmap]⟩

/-- A way up goes on as that of a node from where it first comes to be the parent. -/
theorem Chain.redirect {start : Option NodeId} {steps up : List (NodeId × Node)} {q : NodeId}
    (h : Chain s start steps) (hup : Chain s' (some q) up)
    (hstep : ∀ id n, s.get? id = some n →
      ∃ n', s'.get? id = some n' ∧ (n'.parent = some q ∨ n'.parent = n.parent)) :
    ∃ steps', Chain s' start steps' ∧
      ∀ id ∈ steps.map Prod.fst, id ∈ up.map Prod.fst → id ∈ steps'.map Prod.fst := by
  induction h with
  | nil => exact ⟨[], .nil, by simp⟩
  | @cons id n steps hget _ ih =>
    obtain ⟨n', hget', hparent | hparent⟩ := hstep id n hget
    · exact ⟨(id, n') :: up, .cons hget' (hparent ▸ hup), fun _ _ => List.mem_cons_of_mem _⟩
    · obtain ⟨steps', hrest, hmem⟩ := ih
      refine ⟨(id, n') :: steps', .cons hget' (hparent ▸ hrest), fun other hother hup => ?_⟩
      rcases List.mem_cons.mp hother with rfl | hother
      · simp
      · exact List.mem_cons_of_mem _ (hmem other hother hup)

/-- A node that is in order stays so while the store grows. -/
theorem Orderly.grown (h : Orderly base s id n) (hgrown : Grown s s') : Orderly base s' id n := by
  refine ⟨h.nodup, fun child hchild => ?_, fun p hp => ?_, fun part hpart => ?_, ?_⟩
  · obtain ⟨hnew, m, hm, hrest⟩ := h.child child hchild
    exact ⟨hnew, m, hgrown.get?_eq hm, hrest⟩
  · obtain ⟨hnew, m, hm, hmem⟩ := h.parent p hp
    exact ⟨hnew, m, hgrown.get?_eq hm, hmem⟩
  · obtain ⟨c, hc, hkind⟩ := h.parts part hpart
    obtain ⟨m, hm, rfl⟩ := Option.map_eq_some_iff.mp hc
    exact ⟨m.construct, by rw [construct?, hgrown.get?_eq hm]; rfl, hkind⟩
  · refine h.scope.congr fun child hchild => ?_
    obtain ⟨-, m, hm, -⟩ := h.child child hchild
    rw [construct?, construct?, hgrown.get?_eq hm, hm]

/-- What was added in two parts was added after the first store. -/
theorem Tidy.trans (h : Tidy base s) (h' : Tidy s s') : Tidy base s' := by
  have hle := h.grown.size_le
  have hold : ∀ id n, ¬ s.size ≤ id.index → s'.get? id = some n → s.get? id = some n :=
    fun id n hid hn => (h'.grown.agree id (Nat.zero_le _) (Nat.lt_of_not_le hid)) ▸ hn
  refine ⟨h.grown.trans h'.grown, fun id n hid hn => ?_, fun id n hid hn => ?_⟩
  · by_cases hnew : s.size ≤ id.index
    · obtain ⟨hnodup, hchild, hparent, hparts, hscope⟩ := h'.orderly id n hnew hn
      exact ⟨hnodup, fun child hc => ⟨Nat.le_trans hle (hchild child hc).1, (hchild child hc).2⟩,
        fun p hp => ⟨Nat.le_trans hle (hparent p hp).1, (hparent p hp).2⟩, hparts, hscope⟩
    · exact (h.orderly id n hid (hold id n hnew hn)).grown h'.grown
  · by_cases hnew : s.size ≤ id.index
    · exact h'.rooted id n hnew hn
    · obtain ⟨steps, hchain⟩ := h.rooted id n hid (hold id n hnew hn)
      exact ⟨steps, hchain.mono fun k m hm => h'.grown.get?_eq hm⟩

/-! ## Roots that take in others -/

theorem get?_fresh (s : Store) : s.get? s.fresh = none := get?_eq_none_iff.mpr (Nat.le_refl _)

theorem ne_fresh (hn : s.get? id = some n) : id ≠ s.fresh := by
  rintro rfl
  rw [get?_fresh] at hn
  cases hn

theorem construct?_of_get? (hn : s.get? id = some n) : s.construct? id = some n.construct :=
  congrArg (Option.map Node.construct) hn

theorem construct_eq_ok_iff : s.construct id = .ok c ↔ s.construct? id = some c := by
  rw [construct, node, construct?]
  cases s.get? id with
  | none => simp [bind, Except.bind]
  | some n => simp [bind, Except.bind, pure, Except.pure]

theorem read_eq_ok_iff {α : Type} {shape : Shape α} {a : α} :
    s.read shape id = .ok a ↔ ∃ c, s.construct? id = some c ∧ shape.view? c = some a := by
  constructor
  · intro h
    obtain ⟨n, hn, hview⟩ := exists_of_read h
    exact ⟨n.construct, construct?_of_get? hn, hview⟩
  · rintro ⟨c, hc, hview⟩
    rw [read, construct_eq_ok_iff.mpr hc]
    simp [bind, Except.bind, hview]

theorem read_block_eq_ok_iff {b : BlockNode} :
    s.read .block id = .ok b ↔ s.construct? id = some (.block b) := by
  rw [read_eq_ok_iff]
  constructor
  · rintro ⟨c, hc, hview⟩
    cases c <;> cases hview
    exact hc
  · intro hc
    exact ⟨_, hc, rfl⟩

theorem read_module_eq_ok_iff {m : ModuleNode} :
    s.read .module id = .ok m ↔ s.construct? id = some (.module m) := by
  rw [read_eq_ok_iff]
  constructor
  · rintro ⟨c, hc, hview⟩
    cases c <;> cases hview
    exact hc
  · intro hc
    exact ⟨_, hc, rfl⟩

/-- A node without a parent. -/
def IsRoot (s : Store) (id : NodeId) : Prop := ∃ n, s.get? id = some n ∧ n.parent = none

theorem IsRoot.parent_eq (h : s.IsRoot id) (hn : s.get? id = some n) : n.parent = none := by
  obtain ⟨m, hm, hnone⟩ := h
  rwa [Option.some.inj (hn.symm.trans hm)]

/-- Distinct nodes have a node as their parent. -/
structure Offspring (s : Store) (id : NodeId) (children : List NodeId) : Prop where
  nodup : children.Nodup
  child : ∀ child ∈ children, ∃ n, s.get? child = some n ∧ n.parent = some id

/-- A node `q`, which may be new, takes in roots: it lists them after the children that it had
`before`, and they have it as their parent. -/
structure TakesIn (s s' : Store) (q : NodeId) (before adopted : List NodeId) : Prop where
  node : ∃ n', s'.get? q = some n' ∧ n'.construct.children = before ++ adopted ∧
    ((s.get? q = none ∧ before = [] ∧ n'.parent = none) ∨
      ∃ n, s.get? q = some n ∧ n.construct.children = before ∧ n'.parent = n.parent ∧
        n'.span = n.span)
  size_le : s.size ≤ s'.size
  nodup : adopted.Nodup
  taken : ∀ id ∈ adopted, id ≠ q ∧ ∃ m, s.get? id = some m ∧ m.parent = none ∧
    s'.get? id = some { m with parent := some q }
  other : ∀ id, id ≠ q → id ∉ adopted → s'.get? id = s.get? id

/-- A new node takes in the roots that its construct lists. -/
theorem takesIn_build (hnodup : c.children.Nodup) (hroots : ∀ id ∈ c.children, s.IsRoot id)
    (span : Option Span) : TakesIn s (s.build c span).2 s.fresh [] c.children := by
  have hne : ∀ id ∈ c.children, id ≠ s.fresh := by
    intro id hid
    obtain ⟨n, hn, -⟩ := hroots id hid
    exact ne_fresh hn
  refine ⟨⟨⟨c, none, span⟩, ?_, rfl, .inl ⟨get?_fresh s, rfl, rfl⟩⟩, by simp, hnodup, ?_, ?_⟩
  · rw [build, get?_link, if_neg fun hmem => hne _ hmem rfl, get?_push, if_pos rfl]
  · intro id hid
    obtain ⟨m, hm, hnone⟩ := hroots id hid
    refine ⟨hne id hid, m, hm, hnone, ?_⟩
    rw [build, get?_link, if_pos hid, get?_push, if_neg (hne id hid), hm]
    rfl
  · intro id hid hmem
    rw [build, get?_link, if_neg hmem, get?_push, if_neg hid]

/-- A node takes in one root at the end of what it lists. -/
theorem takesIn_put {child : NodeId} (hq : s.construct? q = some c) (hne : child ≠ q)
    (hroot : s.IsRoot child) (hchildren : c'.children = c.children ++ [child]) :
    TakesIn s ((s.put q c').setParent child q) q c.children [child] := by
  obtain ⟨n, hn, rfl⟩ := Option.map_eq_some_iff.mp hq
  obtain ⟨m, hm, hnone⟩ := hroot
  refine ⟨⟨⟨c', n.parent, n.span⟩, ?_, hchildren, .inr ⟨n, hn, rfl, rfl, rfl⟩⟩, by simp, by simp,
    ?_, ?_⟩
  · rw [get?_setParent, if_neg hne, get?_put, if_pos rfl, hn]
    rfl
  · intro id hid
    obtain rfl := List.mem_singleton.mp hid
    refine ⟨hne, m, hm, hnone, ?_⟩
    rw [get?_setParent, if_pos rfl, get?_put, if_neg (Ne.symm hne), hm]
    rfl
  · intro id hid hmem
    rw [get?_setParent, if_neg fun heq => hmem (by simp [heq]), get?_put, if_neg (Ne.symm hid)]

namespace TakesIn

variable {p child : NodeId} {n' : Node} {before adopted : List NodeId}
  (h : TakesIn s s' q before adopted)
include h

theorem isRoot (hmem : id ∈ adopted) : s.IsRoot id := by
  obtain ⟨-, m, hm, hnone, -⟩ := h.taken id hmem
  exact ⟨m, hm, hnone⟩

/-- A node that has a parent is not taken in. -/
theorem not_mem (hn : s.get? id = some n) (hp : n.parent = some p) : id ∉ adopted := by
  intro hmem
  rw [(h.isRoot hmem).parent_eq hn] at hp
  cases hp

/-- What becomes of a node: it keeps its parent if it is not taken in, and goes on listing what it
listed. -/
theorem exists_node (hn : s.get? id = some n) : ∃ n', s'.get? id = some n' ∧
    n'.parent = (if id ∈ adopted then some q else n.parent) ∧ n'.span = n.span ∧
    ∀ child ∈ n.construct.children, child ∈ n'.construct.children := by
  by_cases hmem : id ∈ adopted
  · obtain ⟨-, m, hm, -, hnew⟩ := h.taken id hmem
    obtain rfl := Option.some.inj (hn.symm.trans hm)
    exact ⟨_, hnew, by rw [if_pos hmem], rfl, fun child hchild => hchild⟩
  · rw [if_neg hmem]
    by_cases hq : id = q
    · subst hq
      obtain ⟨n', hn', hchildren, ⟨hnone, -⟩ | ⟨m, hm, rfl, hparent, hspan⟩⟩ := h.node
      · rw [hnone] at hn
        cases hn
      · obtain rfl := Option.some.inj (hn.symm.trans hm)
        exact ⟨n', hn', hparent, hspan, fun child hchild => by simp [hchildren, hchild]⟩
    · exact ⟨n, (h.other id hq hmem).trans hn, rfl, rfl, fun child hchild => hchild⟩

/-- A node with a parent keeps it. -/
theorem kept (hn : s.get? id = some n) (hp : n.parent = some p) :
    ∃ n', s'.get? id = some n' ∧ n'.parent = some p ∧ n'.span = n.span := by
  obtain ⟨n', hn', hparent, hspan, -⟩ := h.exists_node hn
  rw [if_neg (h.not_mem hn hp), hp] at hparent
  exact ⟨n', hn', hparent, hspan⟩

/-- Only the node that takes in others has got another construct. -/
theorem construct?_eq (hne : id ≠ q) : s'.construct? id = s.construct? id := by
  by_cases hmem : id ∈ adopted
  · obtain ⟨-, m, hm, -, hnew⟩ := h.taken id hmem
    rw [construct?_of_get? hnew, construct?_of_get? hm]
  · rw [construct?, h.other id hne hmem, construct?]

theorem exists_of_get? (hne : id ≠ q) (hn' : s'.get? id = some n') :
    ∃ n, s.get? id = some n ∧ n.construct = n'.construct :=
  Option.map_eq_some_iff.mp ((h.construct?_eq hne).symm.trans (construct?_of_get? hn'))

/-- A child is taken in now, or was listed before. -/
theorem child_cases (hn' : s'.get? id = some n') (hchild : child ∈ n'.construct.children) :
    (id = q ∧ child ∈ adopted) ∨ ∃ n, s.get? id = some n ∧ child ∈ n.construct.children := by
  by_cases hq : id = q
  · subst hq
    obtain ⟨k, hk, hchildren, hnode⟩ := h.node
    rw [Option.some.inj (hn'.symm.trans hk), hchildren, List.mem_append] at hchild
    rcases hchild with hold | hnew
    · rcases hnode with ⟨-, rfl, -⟩ | ⟨n, hn, rfl, -⟩
      · cases hold
      · exact .inr ⟨n, hn, hold⟩
    · exact .inl ⟨rfl, hnew⟩
  · obtain ⟨n, hn, hc⟩ := h.exists_of_get? hq hn'
    exact .inr ⟨n, hn, hc ▸ hchild⟩

/-- A node that has a parent is taken in now, or had it before. -/
theorem parent_cases (hn' : s'.get? id = some n') (hp : n'.parent = some p) :
    (p = q ∧ id ∈ adopted) ∨ ∃ n, s.get? id = some n ∧ n.parent = some p := by
  cases hn : s.get? id with
  | none =>
    by_cases hq : id = q
    · subst hq
      obtain ⟨k, hk, -, ⟨-, -, hnone⟩ | ⟨m, hm, -⟩⟩ := h.node
      · rw [Option.some.inj (hn'.symm.trans hk), hnone] at hp
        cases hp
      · cases hn.symm.trans hm
    · obtain ⟨n, hn₁, -⟩ := h.exists_of_get? hq hn'
      cases hn.symm.trans hn₁
  | some n =>
    obtain ⟨k, hk, hparent, -⟩ := h.exists_node hn
    obtain rfl := Option.some.inj (hn'.symm.trans hk)
    rw [hparent] at hp
    split at hp
    next hmem => exact .inl ⟨(Option.some.inj hp).symm, hmem⟩
    next => exact .inr ⟨n, rfl, hp⟩

/-- A node is listed by its parent if that listed it before, or takes it in now. -/
theorem listed (hn' : s'.get? id = some n') (hp : n'.parent = some p)
    (hold : ∀ n, s.get? id = some n → n.parent = some p →
      ∃ m, s.get? p = some m ∧ id ∈ m.construct.children) :
    ∃ m', s'.get? p = some m' ∧ id ∈ m'.construct.children := by
  rcases h.parent_cases hn' hp with ⟨rfl, hmem⟩ | ⟨n, hn, hparent⟩
  · obtain ⟨k, hk, hchildren, -⟩ := h.node
    exact ⟨k, hk, by simp [hchildren, hmem]⟩
  · obtain ⟨m, hm, hmem⟩ := hold n hn hparent
    obtain ⟨m', hm', -, -, hlists⟩ := h.exists_node hm
    exact ⟨m', hm', hlists id hmem⟩

/-- A node has offspring if it had before. -/
theorem offspring (hold : ∀ n, s.get? id = some n → s.Offspring id n.construct.children)
    (hn' : s'.get? id = some n') : s'.Offspring id n'.construct.children := by
  refine ⟨?_, fun child hchild => ?_⟩
  · by_cases hq : id = q
    · subst hq
      obtain ⟨k, hk, hchildren, hnode⟩ := h.node
      rw [Option.some.inj (hn'.symm.trans hk), hchildren]
      rcases hnode with ⟨-, rfl, -⟩ | ⟨n, hn, rfl, -⟩
      · exact h.nodup
      · refine List.nodup_append.mpr ⟨(hold n hn).nodup, h.nodup, ?_⟩
        rintro child hmem _ hnew rfl
        obtain ⟨m, hm, hparent⟩ := (hold n hn).child child hmem
        exact h.not_mem hm hparent hnew
    · obtain ⟨n, hn, hc⟩ := h.exists_of_get? hq hn'
      exact hc ▸ (hold n hn).nodup
  · rcases h.child_cases hn' hchild with ⟨rfl, hmem⟩ | ⟨n, hn, hmem⟩
    · obtain ⟨-, m, -, -, hm⟩ := h.taken child hmem
      exact ⟨_, hm, rfl⟩
    · obtain ⟨m, hm, hparent⟩ := (hold n hn).child child hmem
      obtain ⟨m', hm', hparent', -⟩ := h.kept hm hparent
      exact ⟨m', hm', hparent'⟩

end TakesIn

/-- A root takes in further roots of a tidy store, and has construct `c` from then on. -/
structure Adopts (base s s' : Store) (q : NodeId) (c : Construct) (span : Option Span)
    (before adopted : List NodeId) : Prop extends TakesIn s s' q before adopted where
  tidy : Tidy base s
  grown : Grown base s'
  new : base.size ≤ q.index
  top : s'.get? q = some ⟨c, none, span⟩
  located : ∀ id ∈ adopted, base.size ≤ id.index ∧
    ∃ n, s.get? id = some n ∧ n.span.isSome = true
  parts : ∀ part ∈ c.parts, ∃ c', s.construct? part.node = some c' ∧ c'.kind ∈ part.kinds
  scope : ScopeFits s c

namespace Adopts

variable {span : Option Span} {before adopted : List NodeId}
  (h : Adopts base s s' q c span before adopted)
include h

/-- Every node is in order. -/
theorem orderly (hid : base.size ≤ id.index) (hn : s'.get? id = some n) :
    Orderly base s' id n := by
  have hold := fun m hm => h.tidy.orderly id m hid hm
  have hoffspring := h.offspring (fun m hm => ⟨(hold m hm).nodup, fun child hchild => by
    obtain ⟨-, k, hk, hparent, -⟩ := (hold m hm).child child hchild
    exact ⟨k, hk, hparent⟩⟩) hn
  -- The root is nobody's child, and no other node has got another construct.
  have hconstruct : ∀ child ∈ n.construct.children, s'.construct? child = s.construct? child := by
    intro child hchild
    refine h.construct?_eq ?_
    rintro rfl
    obtain ⟨k, hk, hparent⟩ := hoffspring.child child hchild
    rw [Option.some.inj (hk.symm.trans h.top)] at hparent
    cases hparent
  have hcontents : (∀ part ∈ n.construct.parts,
      ∃ c, s.construct? part.node = some c ∧ c.kind ∈ part.kinds) ∧ ScopeFits s n.construct := by
    by_cases hq : id = q
    · subst hq
      rw [Option.some.inj (hn.symm.trans h.top)]
      exact ⟨h.parts, h.scope⟩
    · obtain ⟨m, hm, hc⟩ := h.exists_of_get? hq hn
      exact hc ▸ ⟨(hold m hm).parts, (hold m hm).scope⟩
  refine ⟨hoffspring.nodup, fun child hchild => ?_, fun p hp => ⟨?_, ?_⟩, fun part hpart => ?_,
    hcontents.2.congr hconstruct⟩
  · obtain ⟨k, hk, hparent⟩ := hoffspring.child child hchild
    obtain ⟨hsize, m, hm, hspan⟩ : base.size ≤ child.index ∧
        ∃ m, s.get? child = some m ∧ m.span.isSome = true := by
      rcases h.child_cases hn hchild with ⟨-, hmem⟩ | ⟨m, hm, hmem⟩
      · exact h.located child hmem
      · obtain ⟨hsize, k, hk, -, hspan⟩ := (hold m hm).child child hmem
        exact ⟨hsize, k, hk, hspan⟩
    obtain ⟨k', hk', -, hsame, -⟩ := h.exists_node hm
    rw [← hsame, Option.some.inj (hk'.symm.trans hk)] at hspan
    exact ⟨hsize, k, hk, hparent, hspan⟩
  · rcases h.parent_cases hn hp with ⟨rfl, -⟩ | ⟨m, hm, hparent⟩
    · exact h.new
    · exact ((hold m hm).parent p hparent).1
  · exact h.listed hn hp fun m hm hparent => ((hold m hm).parent p hparent).2
  · rw [hconstruct]
    · exact hcontents.1 part hpart
    · rw [← Construct.map_node_parts]
      exact List.mem_map_of_mem hpart

/-- The way up goes on to the root that takes in the last node of it, and ends there. -/
theorem exists_chain {start : Option NodeId} {steps : List (NodeId × Node)}
    (hchain : Chain s start steps) : ∃ steps', Chain s' start steps' := by
  refine (hchain.redirect (.cons h.top .nil) fun id n hn => ?_).imp fun _ h => h.1
  obtain ⟨n', hn', hparent, -⟩ := h.exists_node hn
  split at hparent
  · exact ⟨n', hn', .inl hparent⟩
  · exact ⟨n', hn', .inr hparent⟩

/-- The store stays tidy. -/
theorem tidy_after : Tidy base s' := by
  refine ⟨h.grown, fun id n hid hn => h.orderly hid hn, fun id n hid hn => ?_⟩
  by_cases heq : id = q
  · subst heq
    exact ⟨_, .cons h.top .nil⟩
  · obtain ⟨m, hm, -⟩ := h.exists_of_get? heq hn
    obtain ⟨steps, hchain⟩ := h.tidy.rooted id m hid hm
    exact h.exists_chain hchain

end Adopts

/-- Giving a node a span keeps a store tidy. -/
theorem Tidy.setSpan (h : Tidy base s) (hid : base.size ≤ id.index) (span : Span) :
    Tidy base (s.setSpan id span) := by
  have hconstruct : ∀ other, (s.setSpan id span).construct? other = s.construct? other := by
    intro other
    rw [construct?, get?_setSpan, construct?]
    split
    · rw [Option.map_map]
      rfl
    · rfl
  -- Every node has the construct and the parent that it had, and a span if it had one.
  have hkept : ∀ other m, s.get? other = some m → ∃ m', (s.setSpan id span).get? other = some m' ∧
      m'.construct = m.construct ∧ m'.parent = m.parent ∧
      (m.span.isSome = true → m'.span.isSome = true) := by
    intro other m hm
    rw [get?_setSpan, hm]
    split
    · exact ⟨_, rfl, rfl, rfl, fun _ => rfl⟩
    · exact ⟨m, rfl, rfl, rfl, fun h => h⟩
  have hbefore : ∀ other n, (s.setSpan id span).get? other = some n →
      ∃ m, s.get? other = some m := by
    intro other n hn
    rw [get?_setSpan] at hn
    split at hn
    · obtain ⟨m, hm, -⟩ := Option.map_eq_some_iff.mp hn
      exact ⟨m, hm⟩
    · exact ⟨n, hn⟩
  have hrooted : ∀ other n, base.size ≤ other.index → (s.setSpan id span).get? other = some n →
      ∃ steps, Chain (s.setSpan id span) (some other) steps := by
    intro other n hother hn
    obtain ⟨m, hm⟩ := hbefore other n hn
    obtain ⟨steps, hchain⟩ := h.rooted other m hother hm
    refine (hchain.of_parents fun k m _ hm => ?_).imp fun _ h => h.1
    obtain ⟨m', hm', -, hparent, -⟩ := hkept k m hm
    exact ⟨m', hm', hparent⟩
  refine ⟨h.grown.setSpan hid, fun other n hother hn => ?_, hrooted⟩
  obtain ⟨m, hm⟩ := hbefore other n hn
  obtain ⟨m', hm', hsame, hparent, -⟩ := hkept other m hm
  obtain rfl := Option.some.inj (hm'.symm.trans hn)
  obtain ⟨hnodup, hchild, hup, hparts, hscope⟩ := h.orderly other m hother hm
  rw [← hsame] at hnodup hchild hparts hscope
  rw [← hparent] at hup
  refine ⟨hnodup, fun child hmem => ?_, fun p hp => ?_, fun part hmem => ?_,
    hscope.congr fun child _ => hconstruct child⟩
  · obtain ⟨hsize, k, hk, hk', hspan⟩ := hchild child hmem
    obtain ⟨k', hget, -, hparent', hspan'⟩ := hkept child k hk
    exact ⟨hsize, k', hget, hparent'.trans hk', hspan' hspan⟩
  · obtain ⟨hsize, k, hk, hmem⟩ := hup p hp
    obtain ⟨k', hget, hsame', -, -⟩ := hkept p k hk
    exact ⟨hsize, k', hget, by rwa [hsame']⟩
  · rw [hconstruct]
    exact hparts part hmem

/-! ## Roots at hand -/

/-- The node of a part is a root that came after `base`, and as the part says. -/
structure Child.Stands (base s : Store) (part : Child) : Prop where
  new : base.size ≤ part.node.index
  node : ∃ n, s.get? part.node = some n ∧ n.parent = none ∧ n.kind ∈ part.kinds ∧
    (part.located = true → n.span.isSome = true)

/-- A tidy store with some distinct roots. -/
structure Holds (base s : Store) (held : List Child) : Prop where
  tidy : Tidy base s
  stands : ∀ part ∈ held, Child.Stands base s part
  nodup : (held.map Child.node).Nodup

namespace Holds

variable {more : List Child} {part top : Child} {located : Bool}

theorem nil (h : Tidy base s) : Holds base s [] := ⟨h, by simp, by simp⟩

/-- Roots may be given up. -/
theorem left (h : Holds base s (held ++ more)) : Holds base s held where
  tidy := h.tidy
  stands part hpart := h.stands part (by simp [hpart])
  nodup := by
    have hnodup := h.nodup
    rw [List.map_append] at hnodup
    exact hnodup.of_append_left

/-- Less may be said of a root. -/
theorem imp {kinds : List Kind} (h : Holds base s (held ++ [part]))
    (hkinds : ∀ kind ∈ part.kinds, kind ∈ kinds) :
    Holds base s (held ++ [{ part with kinds }]) where
  tidy := h.tidy
  stands other hother := by
    rcases List.mem_append.mp hother with hother | hother
    · exact h.stands other (by simp [hother])
    · obtain rfl := List.mem_singleton.mp hother
      obtain ⟨hnew, n, hn, hroot, hkind, hspan⟩ := h.stands part (by simp)
      exact ⟨hnew, n, hn, hroot, hkinds _ hkind, hspan⟩
  nodup := by simpa using h.nodup

/-- A root that is held is none of the others. -/
theorem node_ne (h : Holds base s (held ++ more)) {other : Child} (hpart : part ∈ held)
    (hother : other ∈ more) : part.node ≠ other.node := by
  have hnodup := h.nodup
  rw [List.map_append] at hnodup
  intro heq
  exact List.disjoint_of_nodup_append hnodup (List.mem_map_of_mem hpart)
    (heq ▸ List.mem_map_of_mem hother)

/-- A tidy store that left the held roots alone, with one root more. -/
theorem snoc (h : Holds base s held) (htidy : Tidy base s') (hpart : Child.Stands base s' part)
    (hne : ∀ other ∈ held, other.node ≠ part.node ∧ s'.get? other.node = s.get? other.node) :
    Holds base s' (held ++ [part]) where
  tidy := htidy
  stands other hother := by
    rcases List.mem_append.mp hother with hother | hother
    · obtain ⟨hnew, hnode⟩ := h.stands other hother
      exact ⟨hnew, (hne other hother).2 ▸ hnode⟩
    · rwa [List.mem_singleton.mp hother]
  nodup := by
    rw [List.map_append, List.nodup_append]
    refine ⟨h.nodup, by simp, ?_⟩
    intro a ha b hb
    obtain ⟨other, hother, rfl⟩ := List.mem_map.mp ha
    rw [List.map_singleton, List.mem_singleton] at hb
    exact hb ▸ (hne other hother).1

/-- Roots that were added later are others than those held before. -/
theorem trans (h : Holds base s held) (h' : Holds s s' more) : Holds base s' (held ++ more) where
  tidy := h.tidy.trans h'.tidy
  stands part hpart := by
    rcases List.mem_append.mp hpart with hpart | hpart
    · obtain ⟨hnew, n, hn, hnode⟩ := h.stands part hpart
      exact ⟨hnew, n, h'.tidy.grown.get?_eq hn, hnode⟩
    · obtain ⟨hnew, hnode⟩ := h'.stands part hpart
      exact ⟨Nat.le_trans h.tidy.grown.size_le hnew, hnode⟩
  nodup := by
    rw [List.map_append, List.nodup_append]
    refine ⟨h.nodup, h'.nodup, ?_⟩
    rintro a ha b hb rfl
    obtain ⟨part, hpart, rfl⟩ := List.mem_map.mp ha
    obtain ⟨other, hother, heq⟩ := List.mem_map.mp hb
    obtain ⟨-, n, hn, -⟩ := h.stands part hpart
    have hlt := index_lt_of_get? hn
    have hnew := (h'.stands other hother).new
    rw [heq] at hnew
    omega

/-! ### Operations -/

/-- The children of a construct whose parts are held are distinct roots. -/
theorem children (h : Holds base s (held ++ c.parts)) :
    c.children.Nodup ∧ ∀ id ∈ c.children, base.size ≤ id.index ∧
      ∃ n, s.get? id = some n ∧ n.parent = none ∧ n.span.isSome = true := by
  constructor
  · have hnodup := h.nodup
    rw [List.map_append, Construct.map_node_parts] at hnodup
    exact hnodup.of_append_right
  · intro id hid
    rw [← Construct.map_node_parts] at hid
    obtain ⟨part, hpart, rfl⟩ := List.mem_map.mp hid
    obtain ⟨hnew, n, hn, hroot, -, hspan⟩ := h.stands part (by simp [hpart])
    exact ⟨hnew, n, hn, hroot, hspan (Construct.located_of_mem_parts hpart)⟩

/-- Adding a node does not fail where the roots that its construct lists are held. -/
theorem alloc_eq (h : Holds base s (held ++ c.parts)) (span : Option Span) :
    s.alloc c span = .ok (s.build c span) := by
  obtain ⟨hnodup, hroots⟩ := h.children
  refine alloc_eq_build hnodup fun id hid => ?_
  obtain ⟨-, n, hn, hroot, -⟩ := hroots id hid
  exact ⟨n, hn, hroot⟩

/-- A new node takes in the roots that its construct lists. -/
theorem build (h : Holds base s (held ++ c.parts)) (hscope : ScopeFits s c)
    (span : Option Span) :
    Holds base (s.build c span).2 (held ++ [⟨s.fresh, [c.kind], span.isSome⟩]) := by
  obtain ⟨hnodup, hroots⟩ := h.children
  have htakes := takesIn_build hnodup (fun id hid => (hroots id hid).2.imp fun n hn =>
    ⟨hn.1, hn.2.1⟩) span
  have hfresh : (s.build c span).2.get? s.fresh = some ⟨c, none, span⟩ :=
    get?_build_fresh fun id hid => by
      obtain ⟨-, n, hn, -⟩ := hroots id hid
      exact index_lt_of_get? hn
  have hnew : base.size ≤ s.fresh.index := h.tidy.grown.size_le
  have hadopts : Adopts base s (s.build c span).2 s.fresh c span [] c.children := by
    refine ⟨htakes, h.tidy, h.tidy.grown.build fun id hid => (hroots id hid).1, hnew, hfresh,
      fun id hid => ?_, fun part hpart => ?_, hscope⟩
    · obtain ⟨hsize, n, hn, -, hspan⟩ := hroots id hid
      exact ⟨hsize, n, hn, hspan⟩
    · obtain ⟨-, n, hn, -, hkind, -⟩ := h.stands part (by simp [hpart])
      exact ⟨n.construct, construct?_of_get? hn, hkind⟩
  refine h.left.snoc hadopts.tidy_after ⟨hnew, _, hfresh, rfl, by simp [Node.kind], fun h => h⟩ ?_
  intro other hmem
  obtain ⟨-, n, hn, -⟩ := h.left.stands other hmem
  refine ⟨ne_fresh hn, htakes.other _ (ne_fresh hn) fun hchild => ?_⟩
  rw [← Construct.map_node_parts] at hchild
  obtain ⟨part, hpart, heq⟩ := List.mem_map.mp hchild
  exact h.node_ne hmem hpart heq.symm

theorem last_ne (h : Holds base s (held ++ [top, part])) : part.node ≠ top.node := by
  have hnodup := h.nodup
  rw [List.map_append] at hnodup
  have hpair := hnodup.of_append_right
  simp only [List.map_cons, List.map_nil, List.nodup_cons, List.mem_singleton] at hpair
  exact Ne.symm hpair.1

/-- A root that is held can be attached to another one that changes. -/
theorem attach_eq (h : Holds base s (held ++ [top, part])) (c : Construct) :
    (s.put top.node c).attach part.node top.node =
      .ok ((s.put top.node c).setParent part.node top.node) := by
  obtain ⟨-, n, hn, hroot, -⟩ := h.stands part (by simp)
  refine attach_eq_setParent h.last_ne ?_ hroot
  rw [get?_put, if_neg h.last_ne.symm, hn]

/-- A root takes in one more at the end of what it lists. -/
theorem append {span : Option Span} (h : Holds base s (held ++ [top, part]))
    (htop : s.get? top.node = some ⟨c, none, span⟩) (hlocated : part.located = true)
    (hchildren : c'.children = c.children ++ [part.node]) (hkind : c'.kind = c.kind)
    (hparts : ∀ other ∈ c'.parts, other ∈ c.parts ∨ other = part) (hscope : ScopeFits s c') :
    Holds base ((s.put top.node c').setParent part.node top.node) (held ++ [top]) := by
  obtain ⟨hnew, m, hm, -, hmkind, hmspan⟩ := h.stands top (by simp)
  obtain rfl := Option.some.inj (htop.symm.trans hm)
  obtain ⟨hnew', n, hn, hroot, hnkind, hspan⟩ := h.stands part (by simp)
  have hne := h.last_ne
  have htakes := takesIn_put (construct?_of_get? htop) hne ⟨n, hn, hroot⟩ hchildren
  have htop' : ((s.put top.node c').setParent part.node top.node).get? top.node =
      some ⟨c', none, span⟩ := by
    rw [get?_setParent, if_neg hne, get?_put, if_pos rfl, htop]
    rfl
  have hadopts : Adopts base s ((s.put top.node c').setParent part.node top.node) top.node c' span
      c.children [part.node] := by
    refine ⟨htakes, h.tidy, (h.tidy.grown.put hnew).setParent hnew', hnew, htop', ?_,
      fun other hmem => ?_, hscope⟩
    · exact List.forall_mem_singleton.mpr ⟨hnew', n, hn, hspan hlocated⟩
    · rcases hparts other hmem with hold | rfl
      · exact (h.tidy.orderly _ _ hnew htop).parts other hold
      · exact ⟨n.construct, construct?_of_get? hn, hnkind⟩
  refine h.left.snoc hadopts.tidy_after ⟨hnew, _, htop', rfl, ?_, hmspan⟩ fun other hmem => ?_
  · rwa [Node.kind, hkind]
  · have hne : other.node ≠ top.node := h.node_ne hmem (by simp)
    have hne' : other.node ≠ part.node := h.node_ne hmem (by simp)
    exact ⟨hne, htakes.other _ hne (by simpa using hne')⟩

/-- The node of a root, where its kind is known. -/
theorem get?_eq {kind : Kind} (h : Holds base s (held ++ ⟨id, [kind], located⟩ :: more)) :
    base.size ≤ id.index ∧
    ∃ c span, s.get? id = some ⟨c, none, span⟩ ∧ c.kind = kind := by
  obtain ⟨hnew, ⟨c, p, span⟩, hn, hroot, hkind, -⟩ := h.stands ⟨id, [kind], located⟩ (by simp)
  obtain rfl : p = none := hroot
  exact ⟨hnew, c, span, hn, List.mem_singleton.mp hkind⟩

/-- A block takes in a statement. -/
theorem extend {block statement : NodeId}
    (h : Holds base s (held ++ [⟨block, [.block], located⟩, .of Kind.statements statement])) :
    Holds base (s.extend block statement) (held ++ [⟨block, [.block], located⟩]) := by
  obtain ⟨hnew, c, span, hblock, hkind⟩ := h.get?_eq
  cases c with
  | block b =>
    have horderly := h.tidy.orderly block _ hnew hblock
    rw [Store.extend, hblock]
    refine h.append hblock rfl rfl rfl (fun other hmem => ?_) ?_
    · simpa [Construct.parts, BlockNode.snoc, or_comm] using hmem
    · have hscope : b.scope.entries = s.declarations b.statements := horderly.scope
      change (b.snoc statement (s.declared? statement)).scope.entries =
        s.declarations (b.statements ++ [statement])
      rw [declarations, List.filterMap_append]
      cases hdeclared : s.declared? statement with
      | none => simp [BlockNode.snoc, hscope, declarations, hdeclared]
      | some name => simp [BlockNode.snoc, hscope, declarations, hdeclared, Scope.append]
  | _ => cases hkind

/-- Appending a statement does not fail: the block takes it in, or declares its name already. -/
theorem appendStatement_eq {block statement : NodeId}
    (h : Holds base s (held ++ [⟨block, [.block], located⟩, .of Kind.statements statement])) :
    s.appendStatement block statement = .ok ((s.redeclared? block statement).elim
      (.ok (s.extend block statement)) fun declared => .error declared.2) := by
  obtain ⟨-, c, span, hblock, hkind⟩ := h.get?_eq
  obtain ⟨-, ⟨c', p, span'⟩, hstatement, -⟩ := h.stands (.of Kind.statements statement) (by simp)
  rw [Child.node_of] at hstatement
  cases c with
  | block b =>
    have hread : s.read .block block = .ok b :=
      read_block_eq_ok_iff.mpr (construct?_of_get? hblock)
    have hconstruct : s.construct statement = .ok c' :=
      construct_eq_ok_iff.mpr (construct?_of_get? hstatement)
    rw [appendStatement, hread, hconstruct, redeclared?, Store.extend, declared?, hblock,
      hstatement]
    cases c' with
    | varDecl v =>
      simp only [bind, Except.bind, Option.bind]
      cases b.scope.lookup v.name with
      | some existing => rfl
      | none => exact congrArg (Except.map Except.ok) (h.attach_eq _)
    | _ => exact congrArg (Except.map Except.ok) (h.attach_eq _)
  | _ => cases hkind

/-- A module takes in an item. -/
theorem enlist {module item : NodeId} (name : Ident)
    (h : Holds base s (held ++ [⟨module, [.module], located⟩, .of Kind.items item])) :
    Holds base (s.enlist module name item) (held ++ [⟨module, [.module], located⟩]) := by
  obtain ⟨hnew, c, span, hmodule, hkind⟩ := h.get?_eq
  cases c with
  | module m =>
    have horderly := h.tidy.orderly module _ hnew hmodule
    rw [Store.enlist, hmodule]
    refine h.append hmodule rfl rfl rfl (fun other hmem => ?_) ?_
    · simpa [Construct.parts, or_comm] using hmem
    · have hscope : m.scope.nodes = m.items := horderly.scope
      change (m.scope.append name item).nodes = m.items ++ [item]
      rw [Scope.nodes_append, hscope]
  | _ => cases hkind

/-- Adding an item does not fail: the module takes it in, or has an item of its name already. -/
theorem addItem_eq {module item : NodeId} (name : Ident)
    (h : Holds base s (held ++ [⟨module, [.module], located⟩, .of Kind.items item])) :
    s.addItem module name item = .ok ((s.itemNamed? module name).elim
      (.ok (s.enlist module name item)) .error) := by
  obtain ⟨-, c, span, hmodule, hkind⟩ := h.get?_eq
  cases c with
  | module m =>
    have hread : s.read .module module = .ok m :=
      read_module_eq_ok_iff.mpr (construct?_of_get? hmodule)
    rw [addItem, hread, itemNamed?, Store.enlist, hmodule]
    simp only [bind, Except.bind, Scope.insert]
    cases m.scope.lookup name with
    | some existing => rfl
    | none => exact congrArg (Except.map Except.ok) (h.attach_eq _)
  | _ => cases hkind

/-- A root gets a span. -/
theorem setSpan {kinds : List Kind} (h : Holds base s (held ++ [⟨id, kinds, located⟩]))
    (span : Span) : Holds base (s.setSpan id span) (held ++ [.of kinds id]) := by
  obtain ⟨hnew, n, hn, hroot, hkind, -⟩ := h.stands ⟨id, kinds, located⟩ (by simp)
  refine h.left.snoc (h.tidy.setSpan hnew span) ⟨hnew, { n with span := some span }, ?_, hroot,
    hkind, fun _ => rfl⟩ fun other hmem => ?_
  · rw [Child.node_of, get?_setSpan, if_pos rfl, hn]
    rfl
  · have hne : other.node ≠ (⟨id, kinds, located⟩ : Child).node := h.node_ne hmem (by simp)
    exact ⟨hne, by rw [get?_setSpan, if_neg (Ne.symm hne)]⟩

end Holds

end Store

end FrontEnd
