import FrontEnd.Proofs.Grammar.Ownership

/-!
# The trees that parsing returns

A module that parsing returns is the root of a tree, whatever was dropped on the way: every node
below it is listed once, by its parent, has a span, and stands in a place for its kind.  A node
that a failed production left behind is not in the tree, and neither is any node above it.

The store may hold other nodes before, of which nothing has to be known but that their links
stay among themselves.  That is so after parsing too.

## Main definitions

* `Store.Inward`: all links of a store lead to nodes of it.
* `Store.FieldsRead`: what stands in the fields of a construct can be read as what it has to be.
* `Store.Treed`: the nodes below a root are a tree.
* `Store.ProperTree`: a tree in which every node is as it has to be.

## Main statements

* `properTree_of_parseModule`: the tree of a module that was parsed.
-/

namespace FrontEnd

namespace Store

variable {α : Type} {base s : Store} {root top id : NodeId} {c : Construct} {n : Node}
  {p : Option NodeId} {steps : List (NodeId × Node)}

/-! ## Reading fields -/

/-- A node can be read as a shape. -/
def Reads (s : Store) (shape : Shape α) (id : NodeId) : Prop := ∃ a, s.read shape id = .ok a

/-- A node is of one of some kinds. -/
def HasKind (s : Store) (kinds : List Kind) (id : NodeId) : Prop :=
  ∃ kind ∈ kinds, s.kind id = .ok kind

/-- Every field of a construct can be read as what it has to be. -/
def FieldsRead (s : Store) : Construct → Prop
  | .module m => ∀ item ∈ m.items, s.HasKind Kind.items item
  | .function f => (∀ a ∈ f.attributes, s.Reads .attr a) ∧ s.Reads .prototype f.prototype ∧
      s.Reads .block f.body
  | .external e => (∀ a ∈ e.attributes, s.Reads .attr a) ∧ s.Reads .prototype e.prototype
  | .prototype p => s.Reads .arguments p.arguments ∧ s.Reads .typeRef p.returnType
  | .arguments a => ∀ type ∈ a.scope.nodes, s.Reads .typeRef type
  | .block b => ∀ statement ∈ b.statements, s.HasKind Kind.statements statement
  | .struct st => ∀ type ∈ st.fields.nodes, s.Reads .typeRef type
  | .global g => s.Reads .typeRef g.type ∧ ∀ value ∈ g.value, s.Reads .literal value
  | .varDecl v => (∀ type ∈ v.type, s.Reads .typeRef type) ∧ s.HasKind Kind.expressions v.value
  | .ret value => ∀ v ∈ value, s.HasKind Kind.expressions v
  | .exprStatement expression => s.HasKind Kind.expressions expression
  | .call c => ∀ a ∈ c.arguments, s.HasKind Kind.expressions a
  | .binary b => s.HasKind Kind.expressions b.lhs ∧ s.HasKind Kind.expressions b.rhs
  | .attr _ | .literal _ | .reference _ | .typeRef _ | .errorMarker _ => True

/-- A node of the kind of a shape can be read as that shape. -/
theorem HasKind.reads {shape : Shape α} (h : s.HasKind [shape.kind] id)
    (hview : ∀ c : Construct, c.kind = shape.kind → ∃ a, shape.view? c = some a := by
      rintro ⟨⟩ ⟨⟩; exact ⟨_, rfl⟩) : s.Reads shape id := by
  obtain ⟨kind, hkind, hid⟩ := h
  obtain rfl := List.mem_singleton.mp hkind
  rw [kind, node] at hid
  cases hget : s.get? id with
  | none =>
    rw [hget] at hid
    cases hid
  | some n =>
    rw [hget] at hid
    obtain ⟨a, ha⟩ := hview n.construct (Except.ok.inj hid)
    refine ⟨a, ?_⟩
    rw [read, construct, node, hget]
    simp only [bind, Except.bind, pure, Except.pure, ha]

/-- Nodes of the kinds that the places of a construct take can be read there. -/
theorem fieldsRead_of_parts (h : ∀ part ∈ c.parts, s.HasKind part.kinds part.node) :
    FieldsRead s c := by
  cases c <;> simp only [Construct.parts, List.forall_mem_append, List.forall_mem_map,
    List.forall_mem_cons, List.not_mem_nil, IsEmpty.forall_iff, implies_true, and_true,
    Option.mem_toList, Child.of] at h
  case module m => exact h
  case function f => exact ⟨fun a ha => (h.1 a ha).reads, h.2.1.reads, h.2.2.reads⟩
  case external e => exact ⟨fun a ha => (h.1 a ha).reads, h.2.reads⟩
  case prototype p => exact ⟨h.1.reads, h.2.reads⟩
  case arguments a => exact fun type htype => (h type htype).reads
  case block b => exact h
  case struct st => exact fun type htype => (h type htype).reads
  case global g => exact ⟨h.1.reads, fun value hvalue => (h.2 value hvalue).reads⟩
  case varDecl v => exact ⟨fun type htype => (h.1 type htype).reads, h.2⟩
  case ret value => exact h
  case exprStatement expression => exact h
  case call c => exact h
  case binary b => exact h
  all_goals trivial

/-! ## Links of a store -/

/-- All links of a store lead to nodes of it. -/
structure Inward (s : Store) : Prop where
  child : ∀ id n, s.get? id = some n → ∀ child ∈ n.construct.children, child.index < s.size
  parent : ∀ id n p, s.get? id = some n → n.parent = some p → p.index < s.size

theorem inward_empty : Inward .empty where
  child id n h := by simp at h
  parent id n p h := by simp at h

section Tidy

/-- A node is old and as it was, or new and in order. -/
theorem Tidy.cases (h : Tidy base s) (hn : s.get? id = some n) :
    id.index < base.size ∧ base.get? id = some n ∨
      base.size ≤ id.index ∧ Orderly base s id n := by
  by_cases hid : id.index < base.size
  · exact .inl ⟨hid, (h.grown.agree id (Nat.zero_le _) hid).symm.trans hn⟩
  · have hge := Nat.le_of_not_lt hid
    exact .inr ⟨hge, h.orderly id n hge hn⟩

variable (h : Tidy base s) (hbase : Inward base)
include h hbase

/-- Links stay inside of a store that has grown. -/
theorem Tidy.inward : Inward s where
  child id n hn child hchild := by
    rcases h.cases hn with ⟨-, hold⟩ | ⟨-, horderly⟩
    · exact Nat.lt_of_lt_of_le (hbase.child id n hold child hchild) h.grown.size_le
    · obtain ⟨-, m, hm, -⟩ := horderly.child child hchild
      exact index_lt_of_get? hm
  parent id n p hn hp := by
    rcases h.cases hn with ⟨-, hold⟩ | ⟨-, horderly⟩
    · exact Nat.lt_of_lt_of_le (hbase.parent id n p hold hp) h.grown.size_le
    · obtain ⟨-, m, hm, -⟩ := horderly.parent p hp
      exact index_lt_of_get? hm

/-- A new node is listed by its parent alone. -/
theorem Tidy.parent_eq {q : NodeId} {m : Node} (hid : base.size ≤ id.index)
    (hm : s.get? q = some m) (hlisted : id ∈ m.construct.children) :
    ∃ n, s.get? id = some n ∧ n.parent = some q := by
  rcases h.cases hm with ⟨-, hold⟩ | ⟨-, horderly⟩
  · have hlt := hbase.child q m hold id hlisted
    omega
  · obtain ⟨-, n, hn, hparent, -⟩ := horderly.child id hlisted
    exact ⟨n, hn, hparent⟩

end Tidy

/-! ## The way up -/

/-- There is one way up from a node. -/
theorem Chain.unique {steps' : List (NodeId × Node)} (h : Chain s p steps) (h' : Chain s p steps') :
    steps = steps' := by
  induction h generalizing steps' with
  | nil =>
    cases h'
    rfl
  | cons hget _ ih =>
    cases h' with
    | cons hget' hrest' =>
      obtain rfl := Option.some.inj (hget.symm.trans hget')
      rw [ih hrest']

/-- The way up from a node on the way up is the rest of it. -/
theorem Chain.of_mem {e : NodeId × Node} (h : Chain s p steps) (he : e ∈ steps) :
    ∃ rest, Chain s (some e.1) (e :: rest) ∧ rest.length < steps.length := by
  induction h with
  | nil => cases he
  | @cons id node steps hget hrest ih =>
    rcases List.mem_cons.mp he with rfl | he
    · exact ⟨steps, .cons hget hrest, Nat.lt_succ_self _⟩
    · obtain ⟨rest, hchain, hlt⟩ := ih he
      exact ⟨rest, hchain, Nat.lt_succ_of_lt hlt⟩

/-- A way up that comes to an end meets no node twice. -/
theorem Chain.nodup (h : Chain s p steps) : (steps.map fun e => e.1.index).Nodup := by
  induction h with
  | nil => exact List.nodup_nil
  | @cons id node steps hget hrest ih =>
    refine List.nodup_cons.mpr ⟨fun hmem => ?_, ih⟩
    obtain ⟨e, he, heq⟩ := List.mem_map.mp hmem
    obtain ⟨rest, hchain, hlt⟩ := hrest.of_mem he
    -- The same node further up would have a shorter way up than it has.
    obtain rfl : e.1 = id := by
      cases hid : e.1
      cases id
      simp_all
    have hsame := (Chain.cons hget hrest).unique hchain
    have hlength := congrArg List.length hsame
    simp only [List.length_cons] at hlength
    omega

theorem Chain.ancestors_eq (h : Chain s (some id) steps) : s.ancestors id = ⟨steps, none⟩ :=
  h.ancestorsWithin_eq (Nat.le_succ_of_le (h.length_le h.nodup))

/-! ## The tree below a root -/

/-- The nodes inside list distinct children, which are inside too and name them as their parent,
and so does no other node. -/
structure LinkedIn (inside : NodeId → Prop) (s : Store) : Prop where
  nodup : ∀ id n, inside id → s.get? id = some n → n.construct.children.Nodup
  child : ∀ id n, inside id → s.get? id = some n → ∀ child ∈ n.construct.children,
    inside child ∧ ∃ m, s.get? child = some m ∧ m.parent = some id
  listed : ∀ id n p, s.get? id = some n → n.parent = some p → inside p →
    ∃ m, s.get? p = some m ∧ id ∈ m.construct.children

/-- The nodes below a root are a tree: each lists its children once, they name it as their parent,
and so does no other node. -/
structure Treed (s : Store) (root : NodeId) : Prop extends LinkedIn (s.Below root) s where
  top : s.IsRoot root

namespace LinkedIn

variable {inside : NodeId → Prop} (h : LinkedIn inside s)
include h

theorem inside_of_below (htop : inside top) (hbelow : s.Below top id) : inside id := by
  induction hbelow with
  | refl => exact htop
  | child _ hget hchild ih => exact (h.child _ _ ih hget _ hchild).1

theorem treed (hroot : inside root) (htop : s.IsRoot root) : s.Treed root where
  top := htop
  nodup id n hbelow hn := h.nodup id n (h.inside_of_below hroot hbelow) hn
  child id n hbelow hn child hchild :=
    ⟨hbelow.child hn hchild, (h.child id n (h.inside_of_below hroot hbelow) hn child hchild).2⟩
  listed id n p hn hp hbelow := h.listed id n p hn hp (h.inside_of_below hroot hbelow)

/-- The way up from a node goes on as that from any node above it. -/
theorem exists_chain (htop : inside top) (hchain : Chain s (some top) steps)
    (hbelow : s.Below top id) : ∃ first, Chain s (some id) (first ++ steps) := by
  induction hbelow with
  | refl => exact ⟨[], hchain⟩
  | @child id child node hbelow hget hchild ih =>
    obtain ⟨first, hfirst⟩ := ih
    obtain ⟨-, m, hm, hparent⟩ := h.child _ _ (h.inside_of_below htop hbelow) hget _ hchild
    exact ⟨(child, m) :: first, .cons hm (hparent ▸ hfirst)⟩

theorem exists_chain_child {p child : NodeId} (hp : inside p) (hget : s.get? p = some n)
    (hchain : Chain s (some p) steps) (hchild : child ∈ n.construct.children)
    (hbelow : s.Below child id) : ∃ first m, Chain s (some id) (first ++ (child, m) :: steps) := by
  obtain ⟨hin, m, hm, hparent⟩ := h.child _ _ hp hget _ hchild
  obtain ⟨first, hfirst⟩ := h.exists_chain hin (.cons hm (hparent ▸ hchain)) hbelow
  exact ⟨first, m, hfirst⟩

/-- A child is not above the node that lists it. -/
theorem not_below_child {p child : NodeId} (hp : inside p) (hget : s.get? p = some n)
    (hchain : Chain s (some p) steps) (hchild : child ∈ n.construct.children) :
    ¬ s.Below child p := by
  intro hbelow
  obtain ⟨first, m, hlonger⟩ := h.exists_chain_child hp hget hchain hchild hbelow
  have hlength := congrArg List.length (hchain.unique hlonger)
  simp only [List.length_append, List.length_cons] at hlength
  omega

/-- A node that has a node inside above it is below that. -/
theorem below_of_ancestorsWithin {k : Nat} (htop : inside top)
    (hmem : top ∈ (s.ancestorsWithin k id).steps.map Prod.fst) : s.Below top id := by
  induction k generalizing id with
  | zero => simp [ancestorsWithin, Trail.broken] at hmem
  | succ k ih =>
    rw [ancestorsWithin] at hmem
    cases hn : s.get? id with
    | none => simp [hn, Trail.broken] at hmem
    | some n =>
      cases hp : n.parent with
      | none =>
        obtain rfl : top = id := by simpa [hn, hp] using hmem
        exact .refl top
      | some p =>
        simp only [hn, hp, Trail.cons, List.map_cons, List.mem_cons] at hmem
        rcases hmem with rfl | hmem
        · exact .refl top
        · have hbelow := ih hmem
          obtain ⟨m, hm, hlisted⟩ := h.listed id n p hn hp (h.inside_of_below htop hbelow)
          exact hbelow.child hm hlisted

end LinkedIn

namespace Treed

variable (h : Treed s root)
include h

/-- The way up from a node below a root ends there. -/
theorem chain_of_below (hbelow : s.Below root id) :
    ∃ steps, Chain s (some id) steps ∧ root ∈ steps.map Prod.fst := by
  obtain ⟨n, hn, hroot⟩ := h.top
  have htop : Chain s (some root) [(root, n)] := .cons hn (hroot ▸ .nil)
  obtain ⟨first, hchain⟩ := h.exists_chain (.refl root) htop hbelow
  exact ⟨_, hchain, by simp⟩

/-- The nodes below a root are those that have the root above them. -/
theorem below_iff : s.Below root id ↔ root ∈ (s.ancestors id).steps.map Prod.fst := by
  refine ⟨fun hbelow => ?_, h.below_of_ancestorsWithin (.refl root)⟩
  obtain ⟨steps, hchain, hmem⟩ := h.chain_of_below hbelow
  rwa [hchain.ancestors_eq]

end Treed

/-- The links of the nodes that came after `base`, if those of the nodes of `base` stay there. -/
theorem Tidy.linked (h : Tidy base s) (hbase : Inward base) :
    LinkedIn (fun id => base.size ≤ id.index) s where
  nodup id n hid hn := (h.orderly id n hid hn).nodup
  child id n hid hn child hchild := by
    obtain ⟨hnew, m, hm, hparent, -⟩ := (h.orderly id n hid hn).child child hchild
    exact ⟨hnew, m, hm, hparent⟩
  listed id n p hn hp hnew := by
    rcases h.cases hn with ⟨-, hold⟩ | ⟨-, horderly⟩
    · have hlt := hbase.parent id n p hold hp
      omega
    · exact (horderly.parent p hp).2

/-- The nodes below a root are a tree, and each of them is as it has to be. -/
structure ProperTree (s : Store) (root : NodeId) : Prop where
  root_module : s.Reads .module root
  root_parent : s.parent root = .ok none
  /-- A child names its parent, which lists it once, and no other node does. -/
  child : ∀ p children, s.Below root p → s.children p = .ok children → ∀ child ∈ children,
    s.parent child = .ok (some p) ∧ children.count child = 1 ∧
      ∀ q others, s.children q = .ok others → child ∈ others → q = p
  /-- The nodes below the root are those that have the root above them. -/
  below_iff : ∀ id, s.Below root id ↔ root ∈ (s.ancestors id).steps.map Prod.fst
  uncut : ∀ id, s.Below root id → (s.ancestors id).cut = none
  located : ∀ id, s.Below root id → ∃ n span, s.node id = .ok n ∧ n.span = some span
  fields : ∀ id c, s.Below root id → s.construct id = .ok c → s.FieldsRead c
  items : ∀ id m, s.Below root id → s.read .module id = .ok m → m.items = m.scope.nodes
  blocks : ∀ id b, s.Below root id → s.read .block id = .ok b →
    b.scope.entries = s.declarations b.statements

section Tree

variable (h : Holds base s [.of [.module] root])
include h

/-- A node below a root came after `base`, and has a span. -/
theorem Holds.of_below (hbelow : s.Below root id) : base.size ≤ id.index ∧
    ∃ n, s.get? id = some n ∧ n.span.isSome = true := by
  induction hbelow with
  | refl =>
    obtain ⟨hnew, n, hn, -, -, hspan⟩ := h.stands _ (List.mem_singleton.mpr rfl)
    exact ⟨hnew, n, hn, hspan rfl⟩
  | child _ hget hchild ih =>
    obtain ⟨hsize, m, hm, -, hspan⟩ := (h.tidy.orderly _ _ ih.1 hget).child _ hchild
    exact ⟨hsize, m, hm, hspan⟩

omit h in
theorem hasKind_of_get? {kinds : List Kind} (hn : s.get? id = some n) (hkind : n.kind ∈ kinds) :
    s.HasKind kinds id := by
  refine ⟨n.kind, hkind, ?_⟩
  rw [Store.kind, node_eq_ok_iff.mpr hn]
  rfl

variable (hbase : Inward base)
include hbase

/-- A node below a root lists a child once, and no other node lists it. -/
theorem Holds.listed_once {p child : NodeId} {children : List NodeId} (hbelow : s.Below root p)
    (hchildren : s.children p = .ok children) (hchild : child ∈ children) :
    s.parent child = .ok (some p) ∧ children.count child = 1 ∧
      ∀ q others, s.children q = .ok others → child ∈ others → q = p := by
  obtain ⟨n, hn, rfl⟩ := exists_of_children hchildren
  have horderly := h.tidy.orderly p n (h.of_below hbelow).1 hn
  obtain ⟨hsize, m, hm, hparent, -⟩ := horderly.child child hchild
  refine ⟨?_, List.count_eq_one_of_mem horderly.nodup hchild, fun q others hothers hmem => ?_⟩
  · rw [Store.parent, node_eq_ok_iff.mpr hm]
    exact congrArg Except.ok hparent
  · obtain ⟨n', hn', rfl⟩ := exists_of_children hothers
    obtain ⟨m', hm', hparent'⟩ := h.tidy.parent_eq hbase hsize hn' hmem
    obtain rfl := Option.some.inj (hm.symm.trans hm')
    exact Option.some.inj (hparent'.symm.trans hparent)

/-- The nodes below a root of a tidy store are a tree, if the links of the old nodes stay among
them. -/
theorem Holds.treed : Treed s root := by
  obtain ⟨hnew, n, hn, hroot, -⟩ := h.stands _ (List.mem_singleton.mpr rfl)
  exact (h.tidy.linked hbase).treed hnew ⟨n, hn, hroot⟩

/-- What stands in the tree is as it has to be. -/
theorem Holds.properTree : ProperTree s root where
  root_module := by
    obtain ⟨-, n, hn, -, hkind, -⟩ := h.stands _ (List.mem_singleton.mpr rfl)
    exact (hasKind_of_get? hn hkind).reads
  root_parent := by
    obtain ⟨-, n, hn, hroot, -⟩ := h.stands _ (List.mem_singleton.mpr rfl)
    rw [Child.node_of] at hn
    rw [Store.parent, node_eq_ok_iff.mpr hn]
    exact congrArg Except.ok hroot
  child _ _ hbelow hchildren _ hchild := h.listed_once hbase hbelow hchildren hchild
  below_iff _ := (h.treed hbase).below_iff
  uncut id hbelow := by
    obtain ⟨steps, hchain, -⟩ := (h.treed hbase).chain_of_below hbelow
    rw [hchain.ancestors_eq]
  located id hbelow := by
    obtain ⟨-, n, hn, hspan⟩ := h.of_below hbelow
    obtain ⟨span, hspan⟩ := Option.isSome_iff_exists.mp hspan
    exact ⟨n, span, node_eq_ok_iff.mpr hn, hspan⟩
  fields id c hbelow hc := by
    obtain ⟨n, hn, rfl⟩ := exists_of_construct hc
    refine fieldsRead_of_parts fun part hpart => ?_
    obtain ⟨c, hc, hkind⟩ := (h.tidy.orderly id n (h.of_below hbelow).1 hn).parts part hpart
    obtain ⟨m, hm, rfl⟩ := Option.map_eq_some_iff.mp hc
    exact hasKind_of_get? hm hkind
  items id m hbelow hm := by
    obtain ⟨⟨c, p, span⟩, hn, hview⟩ := exists_of_read hm
    have hscope := (h.tidy.orderly id _ (h.of_below hbelow).1 hn).scope
    cases c with
    | module m' =>
      cases hview
      exact hscope.symm
    | _ => cases hview
  blocks id b hbelow hb := by
    obtain ⟨⟨c, p, span⟩, hn, hview⟩ := exists_of_read hb
    have hscope := (h.tidy.orderly id _ (h.of_below hbelow).1 hn).scope
    cases c with
    | block b' =>
      cases hview
      exact hscope
    | _ => cases hview

end Tree

end Store

namespace Grammar

open Store

variable {tokens : List (Located Token)} {store : Store} {notices : Notices} {parsed : Parsed}
  {root : NodeId}

/-- Parsing keeps the links of a store inside of it, however it ends. -/
theorem inward_parseModule (hstore : Inward store)
    (hparse : parseModule tokens store notices = .ok parsed) : Inward parsed.store :=
  (holds_parseModule hparse).1.inward hstore

/-- A module that parsing returns is the root of a tree, with or without error notices. -/
theorem properTree_of_parseModule (hstore : Inward store)
    (hparse : parseModule tokens store notices = .ok parsed) (hroot : parsed.result = .ok root) :
    ProperTree parsed.store root :=
  ((holds_parseModule hparse).2 root hroot).properTree hstore

/-- The tokens of a module in which one function declares a variable twice, and a global has the
name of a function. -/
def spoiltTokens : List (Located Token) :=
  let tokens : List Token :=
    [.keyword .module, .ident ⟨"m"⟩, .symbol .openCurly,
      .keyword .fn, .ident ⟨"f"⟩, .symbol .openParen, .symbol .closeParen, .symbol .openCurly,
      .keyword .binding, .ident ⟨"x"⟩, .symbol .assign, .integer 1, .symbol .semicolon,
      .keyword .binding, .ident ⟨"X"⟩, .symbol .assign, .integer 2, .symbol .semicolon,
      .symbol .closeCurly,
      .keyword .fn, .ident ⟨"g"⟩, .symbol .openParen, .keyword (.prim (.int .w8)), .ident ⟨"a"⟩,
      .symbol .closeParen, .symbol .openCurly, .symbol .openCurly,
      .keyword .binding, .ident ⟨"y"⟩, .symbol .assign, .ident ⟨"a"⟩, .symbol .plus, .integer 1,
      .symbol .semicolon, .symbol .closeCurly, .keyword .ret, .symbol .semicolon,
      .symbol .closeCurly,
      .keyword .global, .keyword (.prim .bool), .ident ⟨"G"⟩, .symbol .semicolon,
      .symbol .closeCurly, .eof]
  tokens.map fun t => ⟨t, default⟩

/-- A store that parsing the first of these tokens has left nodes in. -/
def leftovers : Store :=
  match parseModule (spoiltTokens.take 14 ++ [⟨.eof, default⟩]) .empty #[] with
  | .ok parsed => parsed.store
  | .error _ => .empty

theorem inward_leftovers : Inward leftovers := by
  unfold leftovers
  split
  · exact inward_parseModule inward_empty (by assumption)
  · exact inward_empty

theorem properTree_of_parseModule_leftovers : 0 < leftovers.size ∧
    ∃ parsed root, parseModule spoiltTokens leftovers #[] = .ok parsed ∧
      parsed.result = .ok root ∧ (∃ notice ∈ parsed.notices.toList, notice.isError = true) ∧
      ProperTree parsed.store root := by
  have hrun : (parseModule spoiltTokens leftovers #[]).toOption.any (fun parsed =>
      parsed.result.toOption.isSome && parsed.notices.toList.any Notice.isError) = true := by
    decide +kernel
  refine ⟨by decide +kernel, ?_⟩
  cases hparse : parseModule spoiltTokens leftovers #[] with
  | error fault =>
    rw [hparse] at hrun
    cases hrun
  | ok parsed =>
    simp only [hparse, Except.toOption, Option.any_some, Bool.and_eq_true, List.any_eq_true] at hrun
    cases hroot : parsed.result with
    | error marker => simp [hroot] at hrun
    | ok root =>
      exact ⟨parsed, root, rfl, hroot, hrun.2,
        properTree_of_parseModule inward_leftovers hparse hroot⟩

end Grammar

end FrontEnd
