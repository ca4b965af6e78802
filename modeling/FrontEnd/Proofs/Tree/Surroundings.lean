import FrontEnd.Proofs.Phrase.Placement
import FrontEnd.Tree.Lookup
import Mathlib.Data.List.Induction
import Mathlib.Data.List.Perm.Subperm

/-!
# Where a node stands

The way from a node out to its module, and what names mean along it.  A placed phrase
takes up a range of nodes, and the nodes above it lie outside of that range.  So the way
out never meets a node twice, and is never cut.

`Around s root names lo hi p id` says of a node `id` with parent `p`: from the range `lo`
to `hi` of nodes at or below it, a name means what the list `names` of local names tells,
the first entry first, and else the item of the module `root`.

## Main definitions

* `Below`: a node is at or below another.
* `Chain`: the nodes above, nearest first.
* `Around`, with one lemma for each way to go down the tree.
* `Succession`: statements of a block, with the names around each of them.
-/

namespace FrontEnd

/-- The construct brings names of its own. -/
def Construct.isScope : Construct → Bool
  | .module _ | .function _ | .block _ => true
  | _ => false

namespace Store

open Phrase

variable {s : Store} {root id child : NodeId} {p : Option NodeId} {c : Construct}
  {lo hi lo' hi' : Nat} {names : List (Ident × NodeId)} {before after : List NodeId}
  {body rest : List Stmt}

/-! ## Nodes below -/

/-- A node is at or below another. -/
inductive Below (s : Store) : NodeId → NodeId → Prop
  | refl (id : NodeId) : Below s id id
  | child {top id child : NodeId} {node : Node} : Below s top id → s.get? id = some node →
      child ∈ node.construct.children → Below s top child

theorem Below.trans {top middle below : NodeId} (h : Below s top middle)
    (h' : Below s middle below) : Below s top below := by
  induction h' with
  | refl => exact h
  | child _ hget hmem ih => exact .child ih hget hmem

/-- A node below the child of a node is below the node. -/
theorem Below.head {top below : NodeId} {node : Node} (hnode : s.get? top = some node)
    (hchild : child ∈ node.construct.children) (h : Below s child below) : Below s top below :=
  ((Below.refl top).child hnode hchild).trans h

/-- A node below another is that node or below one of its children. -/
theorem Below.cases_head {top below : NodeId} {node : Node} (hnode : s.get? top = some node)
    (h : Below s top below) :
    below = top ∨ ∃ child ∈ node.construct.children, Below s child below := by
  induction h with
  | refl => exact .inl rfl
  | @child id child node' _ hget hmem ih =>
    right
    rcases ih with rfl | ⟨first, hfirst, hbelow⟩
    · obtain rfl : node' = node := Option.some.inj (hget.symm.trans hnode)
      exact ⟨child, hmem, .refl child⟩
    · exact ⟨first, hfirst, .child hbelow hget hmem⟩

theorem Has.construct_eq (h : s.Has p id c) : s.construct id = .ok c := by
  obtain ⟨span, hget⟩ := h
  rw [construct, node, hget]
  rfl

theorem Has.kind_eq (h : s.Has p id c) : s.kind id = .ok c.kind := by
  obtain ⟨span, hget⟩ := h
  rw [kind, node, hget]
  rfl

theorem Has.parent_eq (h : s.Has p id c) : s.parent id = .ok p := by
  obtain ⟨span, hget⟩ := h
  rw [parent, Store.node, hget]
  rfl

theorem Has.read_eq {α : Type} {shape : Shape α} {a : α} (h : s.Has p id c)
    (hview : shape.view? c = some a) : s.read shape id = .ok a := by
  rw [read, h.construct_eq]
  simp only [bind, Except.bind, hview]

/-! ## The nodes above -/

/-- The nodes from a node upward, nearest first. -/
inductive Chain (s : Store) : Option NodeId → List (NodeId × Node) → Prop
  | nil : Chain s none []
  | cons {id : NodeId} {node : Node} {steps : List (NodeId × Node)} : s.get? id = some node →
      Chain s node.parent steps → Chain s (some id) ((id, node) :: steps)

theorem Chain.ancestorsWithin_eq {steps : List (NodeId × Node)} (h : Chain s (some id) steps)
    {n : Nat} (hn : steps.length ≤ n) : s.ancestorsWithin n id = ⟨steps, none⟩ := by
  generalize hp : some id = p at h
  induction h generalizing id n with
  | nil => cases hp
  | @cons id' node steps hget hrest ih =>
    cases hp
    cases n with
    | zero => simp at hn
    | succ n =>
      rw [ancestorsWithin, hget]
      cases hparent : node.parent with
      | none =>
        rw [hparent] at hrest
        cases hrest
        simp only [hparent]
      | some parent =>
        simp only [hparent, ih (Nat.le_of_succ_le_succ hn) hparent.symm]
        rfl

/-- A way out that meets no node twice is no longer than the store. -/
theorem Chain.length_le {steps : List (NodeId × Node)} (h : Chain s p steps)
    (hnodup : (steps.map fun e => e.1.index).Nodup) : steps.length ≤ s.size := by
  have hsize : ∀ e ∈ steps, e.1.index < s.size := by
    clear hnodup
    induction h with
    | nil => simp
    | cons hget _ ih =>
      refine List.forall_mem_cons.mpr ⟨?_, ih⟩
      by_contra hle
      rw [get?_eq_none_iff.mpr (Nat.le_of_not_lt hle)] at hget
      cases hget
  have hsubset : (steps.map fun e => e.1.index) ⊆ List.range s.size := by
    intro i hi
    obtain ⟨e, he, rfl⟩ := List.mem_map.mp hi
    exact List.mem_range.mpr (hsize e he)
  simpa using (hnodup.subperm hsubset).length_le

/-! ## Around a node -/

/-- The local of a name, or else the item of the module. -/
def meaning (s : Store) (root : NodeId) (names : List (Ident × NodeId)) (name : Ident) :
    Option NodeId :=
  (assoc? names name).or (s.itemNamed? root name)

/-- The nodes around a node are those of a module, and names have a meaning there. -/
structure Around (s : Store) (root : NodeId) (names : List (Ident × NodeId)) (lo hi : Nat)
    (p : Option NodeId) (id : NodeId) : Prop where
  below : s.Below root id
  path : ∃ steps, Chain s p steps ∧ (steps.map fun e => e.1.index).Nodup ∧
    (∀ e ∈ steps, e.1.index < lo ∨ hi ≤ e.1.index) ∧
    (steps.findSome? fun e => if e.2.kind = .module then some e.1 else none) = some root ∧
    ∀ start name, lo ≤ start.index → start.index < hi →
      s.lookupAlong start name none id steps = .ok (s.meaning root names name)

namespace Around

section Node

variable (h : Around s root names lo hi p id) (hnode : s.Has p id c) (hlo : lo ≤ id.index)
  (hhi : id.index < hi)
include h hnode hlo hhi

/-- The way out from a node is not cut. -/
theorem ancestors_eq : ∃ span steps, s.get? id = some ⟨c, p, some span⟩ ∧
    s.ancestors id = ⟨(id, ⟨c, p, some span⟩) :: steps, none⟩ ∧
    (steps.findSome? fun e => if e.2.kind = .module then some e.1 else none) = some root ∧
    ∀ name, s.lookupAlong id name none id steps = .ok (s.meaning root names name) := by
  obtain ⟨span, hget⟩ := hnode
  obtain ⟨steps, hchain, hnodup, houtside, hmodule, hlookup⟩ := h.path
  have hchain' : Chain s (some id) ((id, ⟨c, p, some span⟩) :: steps) := .cons hget hchain
  have hlength := hchain.length_le hnodup
  refine ⟨span, steps, hget, ?_, hmodule, fun name => hlookup id name hlo hhi⟩
  exact hchain'.ancestorsWithin_eq (by simpa using hlength)

theorem nearestSpan_eq : ∃ span, s.nearestSpan id = .ok span := by
  obtain ⟨span, steps, -, hancestors, -⟩ := h.ancestors_eq hnode hlo hhi
  refine ⟨span, ?_⟩
  rw [nearestSpan, hancestors]
  rfl

theorem moduleOf_eq (hkind : c.kind ≠ .module) : s.moduleOf id = .ok (some root) := by
  obtain ⟨span, steps, -, hancestors, hmodule, -⟩ := h.ancestors_eq hnode hlo hhi
  rw [moduleOf, hancestors, Trail.first?, List.findSome?_cons, Node.kind, if_neg hkind]
  dsimp only
  rw [hmodule]

theorem lookup_eq (hvisible : ∀ name, s.visible id id name id c = .ok none) (name : Ident) :
    s.lookup id name = .ok (s.meaning root names name) := by
  obtain ⟨span, steps, -, hancestors, -, hlookup⟩ := h.ancestors_eq hnode hlo hhi
  rw [lookup, hancestors, lookupAlong, hvisible]
  exact hlookup name

/-- What stands below a node sees what stands around the node, and the names that the
node itself brings. -/
theorem descend (extra : List (Ident × NodeId)) (hchild : child ∈ c.children) (hlo' : lo ≤ lo')
    (hhi' : hi' ≤ hi)
    (hout : id.index < lo' ∨ hi' ≤ id.index) (hkind : c.kind ≠ .module)
    (hvisible : ∀ start name, lo' ≤ start.index → start.index < hi' →
      s.visible start child name id c = .ok (assoc? extra name)) :
    Around s root (extra ++ names) lo' hi' (some id) child := by
  obtain ⟨span, hget⟩ := hnode
  obtain ⟨steps, hchain, hnodup, houtside, hmodule, hlookup⟩ := h.path
  refine ⟨h.below.child hget hchild, (id, ⟨c, p, some span⟩) :: steps, .cons hget hchain, ?_, ?_,
    ?_, ?_⟩
  · refine List.nodup_cons.mpr ⟨fun hmem => ?_, hnodup⟩
    obtain ⟨e, he, heq⟩ := List.mem_map.mp hmem
    have hfar := houtside e he
    dsimp only at heq
    omega
  · refine List.forall_mem_cons.mpr ⟨hout, fun e he => ?_⟩
    have := houtside e he
    omega
  · rw [List.findSome?_cons, Node.kind, if_neg hkind]
    exact hmodule
  · intro start name hl hh
    rw [lookupAlong, hvisible start name hl hh, meaning, assoc?, assoc?, List.find?_append]
    cases hfind : extra.find? fun e => e.1.same name with
    | some e => rfl
    | none => exact hlookup start name (by omega) (by omega)

end Node

/-- Most nodes bring no names. -/
theorem inner (h : Around s root names lo hi p id) (hnode : s.Has p id c)
    (hchild : child ∈ c.children := by simp [Construct.children])
    (hscope : c.isScope = false := by rfl) (hlo : lo ≤ id.index := by omega)
    (hhi : id.index < hi := by omega) (hlo' : lo ≤ lo' := by omega) (hhi' : hi' ≤ hi := by omega)
    (hout : id.index < lo' ∨ hi' ≤ id.index := by omega) :
    Around s root names lo' hi' (some id) child := by
  refine h.descend hnode hlo hhi [] hchild hlo' hhi' hout ?_ fun start name _ _ => ?_
  · rintro hkind
    cases c with
    | module _ => cases hscope
    | _ => cases hkind
  · cases c with
    | module _ | function _ | block _ => cases hscope
    | _ => rfl

end Around

/-! ## Blocks -/

/-- Of the statements of a block, those before a statement precede it. -/
theorem precedes_eq {scope : Scope} (hnode : s.Has p id (.block ⟨before ++ child :: after, scope⟩))
    (hnodup : (before ++ child :: after).Nodup) (other : NodeId) :
    s.precedes id other child = .ok (decide (other ∈ before)) := by
  have hlocate : ∀ target, s.locate id target =
      .ok ((before ++ child :: after).findIdx? (· == target)) := by
    intro target
    rw [locate, hnode.read_eq rfl]
    rfl
  have hbefore : child ∉ before := by
    intro hmem
    exact List.disjoint_of_nodup_append hnodup hmem List.mem_cons_self
  have hchild : (before ++ child :: after).findIdx? (· == child) = some before.length := by
    have hnone : before.findIdx? (· == child) = none := by
      rw [List.findIdx?_eq_none_iff]
      intro x hx
      rw [beq_eq_false_iff_ne]
      rintro rfl
      exact hbefore hx
    rw [List.findIdx?_append, hnone]
    simp [List.findIdx?_cons]
  rw [precedes, hlocate, hlocate, hchild, List.findIdx?_append]
  by_cases hmem : other ∈ before
  · obtain ⟨i, hi⟩ : ∃ i, before.findIdx? (· == other) = some i := by
      rw [← Option.isSome_iff_exists, List.findIdx?_isSome, List.any_eq_true]
      exact ⟨other, hmem, beq_self_eq_true other⟩
    have hlt := (List.findIdx?_eq_some_iff_getElem.mp hi).1
    rw [hi]
    simp [bind, Except.bind, pure, Except.pure, hlt, hmem]
  · have hnone : before.findIdx? (· == other) = none := by
      rw [List.findIdx?_eq_none_iff]
      intro x hx
      rw [beq_eq_false_iff_ne]
      rintro rfl
      exact hmem hx
    rw [hnone]
    cases (child :: after).findIdx? (· == other) <;>
      simp [bind, Except.bind, pure, Except.pure, hmem]

/-- Among entries with distinct names the order does not matter. -/
theorem find?_reverse_of_distinct {entries : List (Ident × NodeId)}
    (h : DistinctNames (entries.map Prod.fst)) (name : Ident) :
    (entries.reverse.find? fun e => e.1.same name) = entries.find? fun e => e.1.same name := by
  induction entries using List.reverseRecOn with
  | nil => rfl
  | append_singleton entries e ih =>
    rw [List.map_append, List.map_singleton, distinctNames_append_singleton] at h
    obtain ⟨hdistinct, hnew⟩ := h
    rw [List.reverse_append, List.reverse_singleton, List.singleton_append, List.find?_cons,
      List.find?_append, ih hdistinct]
    cases hsame : e.1.same name with
    | false => simp [hsame]
    | true =>
      have hnone : entries.find? (fun e => e.1.same name) = none := by
        rw [List.find?_eq_none]
        intro e' he' hsame'
        have hfalse := hnew e'.1 (List.mem_map_of_mem he')
        rw [Ident.same_trans hsame' (by rwa [Ident.same_comm])] at hfalse
        cases hfalse
      simp [hsame, hnone]

/-- What a name means in a block, at one of its statements: a variable that an earlier
statement declares, or nothing. -/
theorem visible_block {start : NodeId}
    (hnode : s.Has p id (.block ⟨before ++ child :: after,
      ⟨declaredEntries (body ++ rest) (before ++ child :: after)⟩⟩))
    (hlength : before.length = body.length) (hnodup : (before ++ child :: after).Nodup)
    (hstart : id ≠ start) (name : Ident) :
    s.visible start child name id (.block ⟨before ++ child :: after,
      ⟨declaredEntries (body ++ rest) (before ++ child :: after)⟩⟩) =
      .ok (assoc? (declaredEntries body before) name) := by
  rw [assoc?, visible, Scope.lookup, declaredEntries_append hlength, List.find?_append]
  cases hfind : (declaredEntries body before).find? fun e => e.1.same name with
  | some e =>
    have hmem := mem_of_mem_declaredEntries (List.mem_of_find?_eq_some hfind)
    simp [hstart, precedes_eq hnode hnodup, hmem, bind, Except.bind, pure, Except.pure]
  | none =>
    cases hlater : (declaredEntries rest (child :: after)).find? fun e => e.1.same name with
    | none => rfl
    | some e =>
      have hmem := mem_of_mem_declaredEntries (List.mem_of_find?_eq_some hlater)
      have hnot : e.2 ∉ before := fun h => List.disjoint_of_nodup_append hnodup h hmem
      simp [hstart, precedes_eq hnode hnodup, hnot, bind, Except.bind, pure, Except.pure]

/-- A statement sees the variables that the statements before it declare. -/
theorem Around.statement
    (h : Around s root names lo hi p id)
    (hnode : s.Has p id (.block ⟨before ++ child :: after,
      ⟨declaredEntries (body ++ rest) (before ++ child :: after)⟩⟩))
    (hlo : lo ≤ id.index) (hhi : id.index < hi) (hlength : before.length = body.length)
    (hnodup : (before ++ child :: after).Nodup) (hnames : DistinctNames (declaredNames body))
    (hlo' : id.index < lo') (hhi' : hi' ≤ hi) :
    Around s root ((declaredEntries body before).reverse ++ names) lo' hi' (some id) child := by
  have hmem : child ∈ before ++ child :: after := by simp
  refine h.descend hnode hlo hhi _ hmem (by omega) hhi' (.inl hlo') (by simp [Construct.kind]) ?_
  intro start name hl _
  have hdistinct : DistinctNames ((declaredEntries body before).map Prod.fst) := by
    rwa [map_fst_declaredEntries hlength]
  rw [assoc?, find?_reverse_of_distinct hdistinct]
  refine visible_block hnode hlength hnodup ?_ name
  rintro rfl
  omega

/-- Statements that follow each other in a block, with the names around each: the variables that
statements before it declare, and the names around the first one. -/
inductive Succession (s : Store) (root block : NodeId) (hi : Nat) :
    Nat → List (Ident × NodeId) → List Stmt → List NodeId → Prop
  | nil {lo : Nat} {names : List (Ident × NodeId)} : Succession s root block hi lo names [] []
  | cons {lo mid : Nat} {names : List (Ident × NodeId)} {stmt : Stmt} {rest : List Stmt}
      {child : NodeId} {after : List NodeId} : StmtAt s lo mid (some block) stmt child →
      Around s root names lo mid (some block) child → mid ≤ hi →
      Succession s root block hi mid ((stmt.declared?.map (·, child)).toList ++ names) rest after →
      Succession s root block hi lo names (stmt :: rest) (child :: after)

/-- The statements of a block from one on. -/
theorem Around.succession_from
    (h : Around s root names lo hi p id)
    (hnode : s.Has p id (.block ⟨before ++ after, ⟨declaredEntries (body ++ rest)
      (before ++ after)⟩⟩))
    (hlo : lo ≤ id.index) (hhi : id.index < hi) (hlength : before.length = body.length)
    (hnodup : (before ++ after).Nodup) (hnames : DistinctNames (declaredNames (body ++ rest)))
    (hlaid : Laid (StmtAt s) lo' hi (some id) rest after) (hlo' : id.index < lo') :
    Succession s root id hi lo' ((declaredEntries body before).reverse ++ names) rest after := by
  induction rest generalizing lo' after body before with
  | nil =>
    cases hlaid
    exact .nil
  | cons stmt rest ih =>
    cases hlaid with
    | @cons _ _ mid _ _ _ child after hhead hrest =>
      have hin := Framed.within hhead
      have hle := hrest.le_of_framed
      have hbody : DistinctNames (declaredNames body) := by
        rw [declaredNames_append] at hnames
        exact hnames.of_append_left
      refine .cons hhead (h.statement hnode hlo hhi hlength hnodup hbody hlo' hle) hle ?_
      -- The variable of the statement is the latest local name of the next one.
      have hentries : (declaredEntries (body ++ [stmt]) (before ++ [child])).reverse ++ names =
          (stmt.declared?.map (·, child)).toList ++
            ((declaredEntries body before).reverse ++ names) := by
        rw [declaredEntries_snoc hlength]
        cases stmt.declared? <;> simp
      rw [← hentries]
      rw [List.append_cons body, List.append_cons before] at hnode
      rw [List.append_cons before] at hnodup
      rw [List.append_cons body] at hnames
      exact ih hnode (by simp [hlength]) hnodup hnames hrest (by omega)

/-- The statements of a block. -/
theorem Around.succession {nodes : List NodeId} (h : Around s root names lo hi p id)
    (hnode : s.Has p id (.block ⟨nodes, ⟨declaredEntries body nodes⟩⟩)) (hlo : lo ≤ id.index)
    (hlaid : Laid (StmtAt s) (id.index + 1) hi (some id) body nodes)
    (hnames : DistinctNames (declaredNames body)) :
    Succession s root id hi (id.index + 1) names body nodes := by
  have hle := hlaid.le_of_framed
  have hwhole : s.Has p id (.block ⟨[] ++ nodes, ⟨declaredEntries ([] ++ body) ([] ++ nodes)⟩⟩) :=
    hnode
  exact h.succession_from hwhole hlo (by omega) rfl (hlaid.nodup) hnames hlaid
    (Nat.lt_succ_self _)

/-! ## Functions -/

/-- What a prototype, its list of parameters and its result read. -/
theorem ProtoAt.read_eq {proto : Proto} (h : ProtoAt s lo hi p proto id) :
    ∃ list result nodes, s.read .prototype id = .ok ⟨proto.name, list, result⟩ ∧
      s.read .arguments list =
        .ok ⟨⟨(proto.params.map Param.name).zip nodes⟩, proto.variadic⟩ ∧
      s.read .typeRef result = .ok proto.result.ref ∧
      Laid (ParamAt s) lo hi (some list) proto.params nodes := by
  obtain ⟨hlist, hresult, htop, hhi, hnode⟩ := h
  have hin := Framed.within hresult
  have hin' := Framed.within hlist
  obtain ⟨hparams, hmid, -, hlist⟩ := hlist
  exact ⟨_, _, _, hnode.read_eq rfl, hlist.read_eq rfl, hresult.2.2.read_eq rfl,
    hparams.extend (by omega)⟩

/-- What stands in a function sees its parameters. -/
theorem Around.function {f : FunctionNode} {prototype : PrototypeNode} {arguments : ArgumentsNode}
    (h : Around s root names lo hi p id) (hnode : s.Has p id (.function f)) (hlo : lo ≤ id.index)
    (hhi : id.index < hi) (hprototype : s.read .prototype f.prototype = .ok prototype)
    (harguments : s.read .arguments prototype.arguments = .ok arguments)
    (hchild : child ∈ (Construct.function f).children) (hlo' : lo ≤ lo') (hhi' : hi' ≤ id.index) :
    Around s root (arguments.scope.entries ++ names) lo' hi' (some id) child := by
  refine h.descend hnode hlo hhi _ hchild hlo' (by omega) (.inr hhi') (by simp [Construct.kind]) ?_
  intro start name _ _
  rw [visible, hprototype]
  change (do return (← s.read .arguments prototype.arguments).scope.lookup name) = _
  rw [harguments]
  rfl

/-! ## Modules -/

/-- What is placed in a row is found by its name in the row of names. -/
theorem Laid.find?_zip {α : Type} {At : Placing α} [Framed At] {as : List α}
    {ids : List NodeId} (h : Laid (At s) lo hi p as ids) (key : α → Ident) (name : Ident) :
    (as.find? (fun a => (key a).same name) = none ∧
      ((as.map key).zip ids).find? (fun e => e.1.same name) = none) ∨
    ∃ a id lo' hi', as.find? (fun a => (key a).same name) = some a ∧
      ((as.map key).zip ids).find? (fun e => e.1.same name) = some (key a, id) ∧
      At s lo' hi' p a id ∧ lo ≤ lo' ∧ hi' ≤ hi ∧ id ∈ ids := by
  induction h with
  | nil => exact .inl ⟨rfl, rfl⟩
  | @cons p lo mid hi a rest id ids hhead hrest ih =>
    have hin := Framed.within hhead
    have hle := hrest.le_of_framed
    rw [List.map_cons, List.zip_cons_cons, List.find?_cons, List.find?_cons]
    cases hsame : (key a).same name with
    | true => exact .inr ⟨a, id, lo, mid, rfl, rfl, hhead, Nat.le_refl _, hle, by simp⟩
    | false =>
      rcases ih with ⟨hnone, hnone'⟩ | ⟨a', id', lo', hi', hfind, hfind', hat, hlo, hhi, hmem⟩
      · exact .inl ⟨hnone, hnone'⟩
      · exact .inr ⟨a', id', lo', hi', hfind, hfind', hat, by omega, hhi, by simp [hmem]⟩

namespace ModuleAt

variable {m : Module} {ids : List NodeId}

theorem itemNamed?_eq (h : ModuleAt s m root ids) (name : Ident) :
    s.itemNamed? root name =
      (((m.decls.map Decl.name).zip ids).find? fun e => e.1.same name).map Prod.snd := by
  obtain ⟨span, hget⟩ := h.root
  simp only [itemNamed?, hget]
  rfl

/-- An item sees the items of its module. -/
theorem around (h : ModuleAt s m root ids) (hmem : id ∈ ids) (hlo : root.index < lo) :
    Around s root [] lo hi (some root) id := by
  obtain ⟨span, hget⟩ := h.root
  refine ⟨.child (.refl root) hget hmem, [(root, _)], .cons hget .nil, by simp, ?_, ?_, ?_⟩
  · intro e he
    rw [List.mem_singleton.mp he]
    exact .inl hlo
  · simp [Node.kind, Construct.kind]
  · intro start name _ _
    rw [lookupAlong, visible, meaning, h.itemNamed?_eq, Scope.lookup]
    cases ((m.decls.map Decl.name).zip ids).find? fun e => e.1.same name <;> rfl

/-- The item of a name is the declaration of that name. -/
theorem item?_cases (h : ModuleAt s m root ids) (name : Ident) :
    (m.item? name = none ∧ s.itemNamed? root name = none) ∨
    ∃ d item lo hi, m.item? name = some d ∧ s.itemNamed? root name = some item ∧
      DeclAt s lo hi (some root) d item ∧ hi ≤ s.size ∧
      Around s root [] lo hi (some root) item := by
  rw [h.itemNamed?_eq, Module.item?]
  rcases h.decls.find?_zip Decl.name name with
    ⟨hnone, hnone'⟩ | ⟨d, item, lo, hi, hfind, hfind', hat, hlo, hhi, hmem⟩
  · exact .inl ⟨hnone, by rw [hnone']; rfl⟩
  · refine .inr ⟨d, item, lo, hi, hfind, by rw [hfind']; rfl, hat, hhi, ?_⟩
    exact h.around hmem (by omega)

end ModuleAt

end Store

end FrontEnd
