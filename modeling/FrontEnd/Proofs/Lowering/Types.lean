import FrontEnd.Proofs.Grammar.Scoping
import FrontEnd.Proofs.Lowering.Modules

/-!
# Questions about types

The type of a variable that was declared without one is the type of its value, and the type of a
name is that of the variable.  So the question for one type leads to another, at a node that may
stand anywhere in the function.  It comes to an end because a name never means a variable that is
declared later: every question leads to nodes that came before.

A question that has come to an end has an answer, unless a name on the way means nothing.  The
tree of the module is then not well formed, so it is not lowered either.

## Main definitions

* `Answered`: a question has an answer, or the tree of the module is not well formed.
* `Known`: whatever refers to a node has an answer.

## Main statements

* `answeredBelow_module`: every question about a type in a module is answered.
-/

namespace FrontEnd

/-- The kinds of nodes that have a type: expressions, and declarations of variables. -/
def Kind.typed : List Kind := .varDecl :: Kind.expressions

/-! ## Where types are -/

namespace Store

open Phrase

variable {α : Type} {s : Store} {root id item : NodeId} {names : List (Ident × NodeId)} {n : Nat}
  {p : Option NodeId} {c : Construct} {kinds : List Kind} {nodes : List NodeId}

theorem HasKind.exists_node (h : s.HasKind kinds id) :
    ∃ n, s.get? id = some n ∧ n.construct.kind ∈ kinds := by
  obtain ⟨kind, hmem, hkind⟩ := h
  rw [Store.kind, node] at hkind
  cases hget : s.get? id with
  | none =>
    rw [hget] at hkind
    cases hkind
  | some n =>
    rw [hget] at hkind
    obtain rfl : n.construct.kind = kind := Except.ok.inj hkind
    exact ⟨n, rfl, hmem⟩

theorem HasKind.index_lt (h : s.HasKind kinds id) : id.index < s.size := by
  obtain ⟨n, hget, -⟩ := h.exists_node
  exact index_lt_of_get? hget

theorem HasKind.exists_literal (h : s.HasKind [.literal] id) :
    ∃ l, s.construct id = .ok (.literal l) := by
  obtain ⟨n, hget, hkind⟩ := h.exists_node
  rw [construct, node, hget]
  cases hc : n.construct with
  | literal l => exact ⟨l, congrArg Except.ok hc⟩
  | _ => simp [hc, Construct.kind] at hkind

theorem HasKind.mono {kinds' : List Kind} (h : s.HasKind kinds id) (hsub : kinds ⊆ kinds') :
    s.HasKind kinds' id := by
  obtain ⟨kind, hmem, hkind⟩ := h
  exact ⟨kind, hsub hmem, hkind⟩

/-- No node at or below a node has a type. -/
def Untyped (s : Store) (id : NodeId) : Prop :=
  ∀ below, s.Below id below → ¬ s.HasKind Kind.typed below

theorem Has.untyped (h : s.Has p id c) (hkind : c.kind ∉ Kind.typed)
    (hchildren : ∀ child ∈ c.children, s.Untyped child) : s.Untyped id :=
  h.forall_below hkind hchildren

theorem untyped_of_type {type : TypeName} (h : s.TypeIn root names type id) : s.Untyped id := by
  obtain ⟨p, h⟩ := h
  exact h.has.untyped (by simp [Construct.kind, Kind.typed, Kind.expressions])
    (by simp [Construct.children])

theorem untyped_of_params {params : List Param}
    (h : List.Forall₂ (s.ParamIn root names) params nodes) :
    ∀ node ∈ Scope.nodes ⟨(params.map Param.name).zip nodes⟩, s.Untyped node := by
  intro node hnode
  rw [nodes_zip h.length_eq.symm] at hnode
  obtain ⟨param, -, hparam⟩ := exists_of_forall₂_mem h hnode
  exact untyped_of_type hparam

theorem untyped_of_attributes {attributes : List Ident}
    (h : List.Forall₂ (LeafIn .attr s root names) attributes nodes) :
    ∀ node ∈ nodes, s.Untyped node := by
  intro node hnode
  obtain ⟨name, -, p, h⟩ := exists_of_forall₂_mem h hnode
  exact h.has.untyped (by simp [Construct.kind, Kind.typed, Kind.expressions])
    (by simp [Construct.children])

theorem ProtoIn.untyped {proto : Proto} (h : s.ProtoIn root names proto nodes id) :
    s.Untyped id := by
  obtain ⟨p, list, result, h, hlist, hparams, hresult⟩ := h
  have harguments : s.Untyped list :=
    hlist.untyped (by simp [Construct.kind, Kind.typed, Kind.expressions])
      (untyped_of_params hparams)
  refine h.has.untyped (by simp [Construct.kind, Kind.typed, Kind.expressions]) ?_
  intro child hchild
  rcases List.mem_pair.mp hchild with rfl | rfl
  · exact harguments
  · exact untyped_of_type hresult

/-- What has a type stands in the body of a function, or is the initial value of a global. -/
theorem DeclIn.typed_cases {d : Decl} (h : s.DeclIn root n d item) :
    ∀ id, s.Below item id → s.HasKind Kind.typed id →
      (∃ f, s.construct item = .ok (.function f) ∧ s.Below f.body id) ∨
        ∃ l, s.LitIn root [] l id := by
  cases d with
  | struct name fields =>
    obtain ⟨nodes, h, hfields⟩ := h
    refine h.has.forall_below (by simp [Construct.kind, Kind.typed, Kind.expressions])
      fun child hchild id hbelow hkind => ?_
    exact absurd hkind (untyped_of_params hfields child hchild id hbelow)
  | global type name value =>
    obtain ⟨t, v, h, htype, hvalue⟩ := h
    refine h.has.forall_below (by simp [Construct.kind, Kind.typed, Kind.expressions])
      fun child hchild id hbelow hkind => ?_
    rcases List.mem_cons.mp hchild with rfl | hchild
    · exact absurd hkind (untyped_of_type htype id hbelow)
    · cases hvalue with
      | none => cases hchild
      | @some l _ hliteral =>
        obtain rfl := List.mem_singleton.mp hchild
        have hleaf := hliteral
        obtain ⟨p, ⟨span, hget⟩, -⟩ := hleaf
        rcases hbelow.cases_head hget with rfl | ⟨_, hnone, -⟩
        · exact .inr ⟨l, hliteral⟩
        · cases hnone
  | external attributes proto =>
    obtain ⟨ids, f, nodes, h, hattributes, hproto⟩ := h
    refine h.has.forall_below (by simp [Construct.kind, Kind.typed, Kind.expressions])
      fun child hchild id hbelow hkind => ?_
    rcases List.mem_append.mp hchild with hchild | hchild
    · exact absurd hkind (untyped_of_attributes hattributes child hchild id hbelow)
    · obtain rfl := List.mem_singleton.mp hchild
      exact absurd hkind (hproto.untyped id hbelow)
  | function attributes proto body =>
    obtain ⟨ids, f, b, nodes, h, hattributes, -, hproto, -⟩ := h
    refine h.has.forall_below (by simp [Construct.kind, Kind.typed, Kind.expressions])
      fun child hchild id hbelow hkind => ?_
    rcases List.mem_append.mp hchild with hchild | hchild
    · exact absurd hkind (untyped_of_attributes hattributes child hchild id hbelow)
    · rcases List.mem_pair.mp hchild with rfl | rfl
      · exact absurd hkind (hproto.untyped id hbelow)
      · exact .inl ⟨_, h.has.construct_eq, hbelow⟩

end Store

namespace Lowering

open Phrase Store

variable {s : Store} {m : Phrase.Module} {root id : NodeId} {ids : List NodeId}
  {names : List (Ident × NodeId)} {n k : Nat} {p : Option NodeId} {c : Construct} {name : Ident}

/-- A question about types is answered, or a name does not resolve in a tree that is not well
formed.  In no case does the question fault. -/
def Answered (s : Store) (root : NodeId) (answer : Resolve Ty) : Prop :=
  (∃ ty, answer = .ok ty) ∨
    (∃ error, answer = .error (.unresolved error)) ∧ ¬ s.WellFormedBelow Coerces root root

theorem Answered.ne_fault {answer : Resolve Ty} (h : Answered s root answer) (fault : Fault) :
    answer ≠ .error (.fault fault) := by
  rcases h with ⟨ty, rfl⟩ | ⟨⟨error, rfl⟩, -⟩ <;> simp

theorem Answered.exists_ty {answer : Resolve Ty} (h : Answered s root answer)
    (hwell : s.WellFormedBelow Coerces root root) : ∃ ty, answer = .ok ty := by
  rcases h with hok | ⟨-, hill⟩
  · exact hok
  · exact absurd hwell hill

/-! ## Written types -/

theorem resolveAt_eq {type : TypeName} {t : NodeId} (hnode : s.Has p t (.typeRef type.ref))
    (id : NodeId) : s.resolveAt t id = s.resolve type.ref id := by
  have hread : s.read .typeRef t = .ok type.ref := hnode.read_eq rfl
  rw [resolveAt, hread]
  rfl

/-- A written type resolves anywhere in its module, if it is well formed. -/
theorem answered_resolve (hm : ModuleAt s m root ids) (hmodule : s.moduleOf id = .ok (some root))
    {type : TypeName} {t : NodeId} (h : s.TypeIn root names type t) :
    Answered s root (s.resolve type.ref id) ∧ Answered s root (s.resolveAt t id) := by
  obtain ⟨p, h⟩ := h
  rw [resolveAt_eq h.has, and_self]
  cases type with
  | prim prim => exact .inl ⟨_, rfl⟩
  | named name =>
    rcases resolve_cases hm hmodule name with
      ⟨-, own, fields, item, -, hresolve⟩ | ⟨hnone, error, hresolve, -⟩
    · exact .inl ⟨_, hresolve⟩
    · exact .inr ⟨⟨error, hresolve⟩, not_wellFormedBelow h.below h.has hnone⟩

/-! ## One question after another -/

theorem typeWithin_literal {l : Literal} (h : s.construct id = .ok (.literal l)) (n : Nat) :
    s.typeWithin (n + 1) id = .ok l.ty := by
  rw [typeWithin, h]
  rfl

theorem typeWithin_binary {b : BinaryNode} (h : s.construct id = .ok (.binary b)) (n : Nat) :
    s.typeWithin (n + 1) id =
      if b.op.isComparison then .ok (.prim .bool) else s.typeWithin n b.lhs := by
  rw [typeWithin, h]
  rfl

theorem typeWithin_call {c : CallNode} {prototype : NodeId} {node : PrototypeNode}
    (h : s.construct id = .ok (.call c)) (hcallee : s.calleePrototype id c.callee = .ok prototype)
    (hread : s.read .prototype prototype = .ok node) (n : Nat) :
    s.typeWithin (n + 1) id = s.resolveAt node.returnType prototype := by
  simp only [typeWithin, h, hcallee, hread, liftM, monadLift, MonadLift.monadLift, Except.mapError,
    bind, Except.bind]

theorem typeWithin_call_error {c : CallNode} {error : Setback}
    (h : s.construct id = .ok (.call c)) (hcallee : s.calleePrototype id c.callee = .error error)
    (n : Nat) : s.typeWithin (n + 1) id = .error error := by
  simp only [typeWithin, h, hcallee, liftM, monadLift, MonadLift.monadLift, Except.mapError, bind,
    Except.bind]

/-- The type of a name, by what the name means. -/
def typeOfTarget (s : Store) (n : Nat) (name : Ident) (target : NodeId) : Construct → Resolve Ty
  | .varDecl ⟨_, some type, _⟩ => s.resolveAt type target
  | .varDecl ⟨_, none, value⟩ => s.typeWithin n value
  | .global g => s.resolveAt g.type target
  | .typeRef ref => s.resolve ref target
  | _ => .error (.unresolved (.notAValue name))

theorem typeWithin_reference {target : NodeId} {c : Construct}
    (h : s.construct id = .ok (.reference name)) (hlookup : s.lookup id name = .ok (some target))
    (hc : s.construct target = .ok c) (n : Nat) :
    s.typeWithin (n + 1) id = typeOfTarget s n name target c := by
  simp only [typeWithin, h, hlookup, hc, liftM, monadLift, MonadLift.monadLift, Except.mapError,
    bind, Except.bind]
  cases c with
  | varDecl v => obtain ⟨_, _ | _, _⟩ := v <;> rfl
  | _ => rfl

theorem typeWithin_undefined (h : s.construct id = .ok (.reference name))
    (hlookup : s.lookup id name = .ok none) (n : Nat) :
    s.typeWithin (n + 1) id = .error (.unresolved (.undefined name)) := by
  simp only [typeWithin, h, hlookup, liftM, monadLift, MonadLift.monadLift, Except.mapError, bind,
    Except.bind, unresolved]

/-- What refers to a node, and may lead to all nodes before it, has an answer. -/
def Known (s : Store) (root : NodeId) (target : NodeId) : Prop :=
  ∀ id name n, s.construct id = .ok (.reference name) → s.lookup id name = .ok (some target) →
    target.index ≤ n → Answered s root (s.typeWithin (n + 1) id)

theorem known_param (hm : ModuleAt s m root ids) {param : Param} {node : NodeId}
    (h : s.ParamIn root names param node) : Known s root node := by
  intro use name k huse hlookup _
  have hnode := h
  obtain ⟨p, hnode⟩ := hnode
  rw [typeWithin_reference huse hlookup hnode.has.construct_eq]
  exact (answered_resolve hm hnode.moduleOf h).1

/-- A variable has the type that is written, or that of its value. -/
theorem known_variable (hm : ModuleAt s m root ids) {type : Option TypeName} {t : Option NodeId}
    {v : NodeId} (h : s.Situated root names p id (.varDecl ⟨name, t, v⟩))
    (htype : Option.Rel (s.TypeIn root names) type t) (hlt : v.index < id.index)
    (hvalue : ∀ k, v.index < k → Answered s root (s.typeWithin k v)) :
    Answered s root (s.declaredType id) ∧ Known s root id := by
  have hread : s.read .varDecl id = .ok ⟨name, t, v⟩ := h.has.read_eq rfl
  rw [declaredType, hread]
  cases htype with
  | none =>
    obtain ⟨span, hget⟩ := h.has
    have hin := index_lt_of_get? hget
    refine ⟨hvalue _ (by omega), fun use name k huse hlookup hk => ?_⟩
    rw [typeWithin_reference huse hlookup h.has.construct_eq]
    exact hvalue k (by omega)
  | some hwritten =>
    have hanswered := (answered_resolve hm h.moduleOf hwritten).2
    refine ⟨hanswered, fun use name k huse hlookup hk => ?_⟩
    rw [typeWithin_reference huse hlookup h.has.construct_eq]
    exact hanswered

/-! ## Nodes below -/

/-- Every question about the type of a node is answered. -/
structure Answers (s : Store) (root id : NodeId) : Prop where
  expression : s.HasKind Kind.expressions id →
    s.moduleOf id = .ok (some root) ∧ ∀ n, id.index < n → Answered s root (s.typeWithin n id)
  declaration : s.HasKind [.varDecl] id → Answered s root (s.declaredType id)

/-- Every question about a type at or below a node is answered. -/
def AnsweredBelow (s : Store) (root top : NodeId) : Prop :=
  ∀ id, s.Below top id → s.HasKind Kind.typed id → Answers s root id

theorem AnsweredBelow.typeWithin (h : AnsweredBelow s root id)
    (hkind : s.HasKind Kind.expressions id) (k : Nat) (hk : id.index < k) :
    Answered s root (s.typeWithin k id) :=
  ((h id (.refl id) (hkind.mono (List.subset_cons_self _ _))).expression hkind).2 k hk

/-- An expression is answered if it is itself, and its operands are. -/
theorem answeredBelow_of_operands (h : s.Situated root names p id c)
    (hkind : c.kind ∈ Kind.expressions)
    (hanswered : ∀ k, id.index ≤ k → Answered s root (s.typeWithin (k + 1) id))
    (hchildren : ∀ child ∈ c.children, AnsweredBelow s root child) :
    s.HasKind Kind.expressions id ∧ AnsweredBelow s root id := by
  refine ⟨h.has.hasKind_iff.mpr hkind, h.has.forall_below (fun _ => ?_) hchildren⟩
  refine ⟨fun _ => ⟨h.moduleOf, fun n hn => ?_⟩, fun hdecl => ?_⟩
  · obtain ⟨k, rfl⟩ : ∃ k, n = k + 1 := Nat.exists_eq_add_one.mpr (by omega)
    exact hanswered k (by omega)
  · rw [List.mem_singleton.mp (h.has.hasKind_iff.mp hdecl)] at hkind
    simp [Kind.expressions] at hkind

/-- Where nothing has a type, nothing is asked. -/
theorem answeredBelow_of_untyped (h : s.Untyped id) : AnsweredBelow s root id :=
  fun below hbelow hkind => absurd hkind (h below hbelow)

/-- Each statement of a block adds its variable to the names that are known. -/
theorem answeredBelow_stmts {Item : List (Ident × NodeId) → Stmt → NodeId → Prop}
    {body : List Stmt} {nodes : List NodeId} (h : BodyIn Item names body nodes)
    (hnames : ∀ e ∈ names, Known s root e.2)
    (hitem : ∀ {names stmt child}, Item names stmt child → (∀ e ∈ names, Known s root e.2) →
      AnsweredBelow s root child ∧
        ∀ e ∈ (stmt.declared?.map (·, child)).toList, Known s root e.2) :
    ∀ child ∈ nodes, AnsweredBelow s root child := by
  induction h with
  | nil => simp
  | cons hhead _ ih =>
    obtain ⟨hfirst, hdeclared⟩ := hitem hhead hnames
    exact List.forall_mem_cons.mpr
      ⟨hfirst, ih (List.forall_mem_append.mpr ⟨hdeclared, hnames⟩)⟩

/-! ## Expressions -/

/-- The prototype of a function that can be called stands in the module, with its result. -/
theorem Callable.result {callee : Ident} {d : Decl} {proto : Proto} {prototype : NodeId}
    (h : Callable s root m callee d proto prototype) :
    ∃ node names, s.read .prototype prototype = .ok node ∧ s.moduleOf prototype = .ok (some root) ∧
      s.TypeIn root names proto.result node.returnType := by
  obtain ⟨names, nodes, p, list, result, hproto, -, -, hresult⟩ := h.placed
  exact ⟨_, _, hproto.has.read_eq rfl, hproto.moduleOf, hresult⟩

section Module

variable (hm : ModuleAt s m root ids) (hnamed : m.WellNamed)
include hm hnamed

/-- A call has the type that the function returns. -/
theorem answered_call {c : CallNode} (h : s.Situated root names p id (.call c)) (n : Nat) :
    Answered s root (s.typeWithin (n + 1) id) := by
  rcases calleePrototype_cases hm hnamed h.moduleOf c.callee with
    ⟨d, proto, prototype, hcallee, hcallable⟩ | ⟨hnone, error, hcallee, -⟩
  · obtain ⟨node, names, hread, hmodule, hresult⟩ := hcallable.result
    rw [typeWithin_call h.has.construct_eq hcallee hread]
    exact (answered_resolve hm hmodule hresult).2
  · rw [typeWithin_call_error h.has.construct_eq hcallee]
    refine .inr ⟨⟨error, rfl⟩, not_wellFormedBelow h.below h.has fun hwell => ?_⟩
    obtain ⟨a, ha, -⟩ := hwell
    exact hnone a ha

/-- A name that means no local has the type of the global that it means. -/
theorem answered_global {name : Ident} (h : s.Situated root names p id (.reference name))
    (hnone : assoc? names name = none) (n : Nat) : Answered s root (s.typeWithin (n + 1) id) := by
  have hlookup := h.lookup rfl name
  rw [meaning, hnone, Option.none_or] at hlookup
  have hill : ∀ error, s.typeWithin (n + 1) id = .error (.unresolved error) →
      ¬ s.NamesValue id name → Answered s root (s.typeWithin (n + 1) id) := fun _ herror hnot =>
    .inr ⟨⟨_, herror⟩, not_wellFormedBelow h.below h.has hnot⟩
  rcases hm.item_cases hnamed name with ⟨-, hitem⟩ | ⟨d, item, -, hitem, hd⟩
  · rw [hitem] at hlookup
    refine hill _ (typeWithin_undefined h.has.construct_eq hlookup n) fun hvalue => ?_
    obtain ⟨target, c, htarget, -⟩ := hvalue
    exact absurd (htarget.symm.trans hlookup) (by simp)
  · rw [hitem] at hlookup
    have htype : ∀ {c}, s.Has (some root) item c → s.typeWithin (n + 1) id = _ :=
      fun hc => typeWithin_reference h.has.construct_eq hlookup hc.construct_eq n
    have hother : ∀ {c}, s.Has (some root) item c → c.isValue = false →
        typeOfTarget s n name item c = .error (.unresolved (.notAValue name)) →
        Answered s root (s.typeWithin (n + 1) id) := by
      intro c hc hvalue herror
      refine hill _ ((htype hc).trans herror) ?_
      rintro ⟨target, c', htarget, hc', hvalue'⟩
      obtain rfl : target = item := by simpa using htarget.symm.trans hlookup
      obtain rfl := Except.ok.inj (hc'.symm.trans hc.construct_eq)
      rw [hvalue] at hvalue'
      cases hvalue'
    cases d with
    | struct _ _ =>
      obtain ⟨_, hd, -⟩ := hd
      exact hother hd.has rfl rfl
    | external _ _ =>
      obtain ⟨_, _, _, hd, -⟩ := hd
      exact hother hd.has rfl rfl
    | function _ _ _ =>
      obtain ⟨_, _, _, _, hd, -⟩ := hd
      exact hother hd.has rfl rfl
    | global _ _ _ =>
      obtain ⟨_, _, hd, hwritten, -⟩ := hd
      rw [htype hd.has]
      exact (answered_resolve hm hd.moduleOf hwritten).2

/-- Where the types of the names are known, the types of an expression are. -/
theorem answeredBelow_expr {e : Expr} (h : s.ExprIn root names n e id)
    (hnames : ∀ e ∈ names, Known s root e.2) :
    s.HasKind Kind.expressions id ∧ AnsweredBelow s root id := by
  induction n generalizing e id with
  | zero => exact h.elim
  | succ n ih =>
    cases e with
    | literal l =>
      obtain ⟨p, h⟩ := h
      refine answeredBelow_of_operands h (by simp [Construct.kind, Kind.expressions])
        (fun k _ => ?_) (by simp [Construct.children])
      exact .inl ⟨_, typeWithin_literal h.has.construct_eq k⟩
    | reference name =>
      obtain ⟨⟨p, h⟩, hbefore⟩ := h
      refine answeredBelow_of_operands h (by simp [Construct.kind, Kind.expressions])
        (fun k hk => ?_) (by simp [Construct.children])
      cases hfind : names.find? fun e => e.1.same name with
      | none => exact answered_global hm hnamed h (by rw [assoc?, hfind]; rfl) k
      | some e =>
        have hmem := List.mem_of_find?_eq_some hfind
        have hbefore := hbefore e hmem
        have hlookup := h.lookup rfl name
        rw [meaning, assoc?, hfind] at hlookup
        exact hnames e hmem id name k h.has.construct_eq hlookup (by omega)
    | call callee arguments =>
      obtain ⟨p, nodes, h, harguments⟩ := h
      refine answeredBelow_of_operands h (by simp [Construct.kind, Kind.expressions])
        (fun k _ => answered_call hm hnamed h k) fun child hchild => ?_
      obtain ⟨a, -, ha⟩ := exists_of_forall₂_mem harguments hchild
      exact (ih ha).2
    | binary op lhs rhs =>
      obtain ⟨p, l, r, h, hlt, hl, hr⟩ := h
      obtain ⟨hkind, hleft⟩ := ih hl
      refine answeredBelow_of_operands h (by simp [Construct.kind, Kind.expressions])
        (fun k hk => ?_) fun child hchild => ?_
      · rw [typeWithin_binary h.has.construct_eq]
        split
        · exact .inl ⟨_, rfl⟩
        · exact hleft.typeWithin hkind k (Nat.lt_of_lt_of_le hlt hk)
      · rcases List.mem_pair.mp hchild with rfl | rfl
        · exact hleft
        · exact (ih hr).2

/-! ## Statements -/

theorem answeredBelow_stmt {stmt : Stmt} (h : s.StmtIn root n names stmt id)
    (hnames : ∀ e ∈ names, Known s root e.2) :
    AnsweredBelow s root id ∧ ∀ e ∈ (stmt.declared?.map (·, id)).toList, Known s root e.2 := by
  induction n generalizing names stmt id with
  | zero => exact h.elim
  | succ n ih =>
    cases stmt with
    | block body =>
      obtain ⟨p, nodes, h, hbody⟩ := h
      refine ⟨h.has.forall_below
        (by simp [Construct.kind, Kind.typed, Kind.expressions]) ?_, by simp [Stmt.declared?]⟩
      exact answeredBelow_stmts hbody hnames ih
    | varDecl name type value =>
      obtain ⟨p, t, v, h, -, hlt, htype, hvalue⟩ := h
      obtain ⟨hkind, hanswered⟩ := answeredBelow_expr hm hnamed hvalue hnames
      obtain ⟨hdeclared, hknown⟩ :=
        known_variable hm h htype hlt (hanswered.typeWithin hkind)
      refine ⟨h.has.forall_below (fun _ => ⟨fun hkind => ?_, fun _ => hdeclared⟩)
        fun child hchild => ?_, by simpa [Stmt.declared?] using hknown⟩
      · have := h.has.hasKind_iff.mp hkind
        simp [Construct.kind, Kind.expressions] at this
      rcases List.mem_append.mp hchild with hchild | hchild
      · cases htype with
        | none => cases hchild
        | some hwritten =>
          obtain rfl := List.mem_singleton.mp hchild
          exact answeredBelow_of_untyped (untyped_of_type hwritten)
      · rw [List.mem_singleton.mp hchild]
        exact hanswered
    | ret value =>
      obtain ⟨p, v, h, hvalue⟩ := h
      refine ⟨h.has.forall_below
        (by simp [Construct.kind, Kind.typed, Kind.expressions]) fun child hchild => ?_,
        by simp [Stmt.declared?]⟩
      cases hvalue with
      | none => cases hchild
      | some hvalue =>
        rw [List.mem_singleton.mp hchild]
        exact (answeredBelow_expr hm hnamed hvalue hnames).2
    | exprStatement value =>
      obtain ⟨p, v, h, hvalue⟩ := h
      refine ⟨h.has.forall_below
        (by simp [Construct.kind, Kind.typed, Kind.expressions]) fun child hchild => ?_,
        by simp [Stmt.declared?]⟩
      rw [List.mem_singleton.mp hchild]
      exact (answeredBelow_expr hm hnamed hvalue hnames).2

/-! ## Functions and modules -/

/-- The parameters of a function are known in its body. -/
theorem answeredBelow_body {d : Decl} (h : s.DeclIn root n d id) {f : FunctionNode}
    (hf : s.construct id = .ok (.function f)) : AnsweredBelow s root f.body := by
  have hkind := h.kind_eq hf
  cases d with
  | struct _ _ | global _ _ _ | external _ _ => cases hkind
  | function attributes proto body =>
    obtain ⟨attrs, prototype, b, nodes, h, -, -, hproto, hbody⟩ := h
    obtain rfl := Construct.function.inj (Except.ok.inj (hf.symm.trans h.has.construct_eq))
    obtain ⟨p, list, result, -, -, hparams, -⟩ := hproto
    refine (answeredBelow_stmt hm hnamed hbody fun e he => ?_).1
    obtain ⟨param, -, hparam⟩ := exists_of_forall₂_mem hparams (List.of_mem_zip he).2
    exact known_param hm hparam

/-- Every question about a type in a module is answered. -/
theorem answeredBelow_module : AnsweredBelow s root root := by
  refine hm.root.forall_below
    (by simp [Construct.kind, Kind.typed, Kind.expressions]) fun item hitem id hbelow hkind => ?_
  obtain ⟨d, -, hd⟩ := exists_of_forall₂_mem (hm.standing hnamed (Nat.le_succ _)) hitem
  rcases hd.typed_cases id hbelow hkind with ⟨f, hf, hbody⟩ | ⟨l, hl⟩
  · exact answeredBelow_body hm hnamed hd hf id hbody hkind
  · have hvalue : s.ExprIn root [] 1 (.literal l) id := hl
    exact (answeredBelow_expr hm hnamed hvalue (by simp)).2 id (.refl id) hkind

end Module

end Lowering

end FrontEnd
