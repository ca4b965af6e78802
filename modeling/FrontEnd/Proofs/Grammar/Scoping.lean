import FrontEnd.Proofs.Grammar.Printing
import FrontEnd.Proofs.Grammar.Trees
import FrontEnd.Proofs.Tree.Situation

/-!
# Names have lexical scope

Looking a name up goes outward, from a node to its parents.  The rules of scope are told inward:
a walk through a function keeps a stack of scopes, with the items of the module outermost and the
parameters next, opens a scope for each block, and enters a variable after its value was met.  At
every expression of a function that was parsed, both find the same declaration.

## Main definitions

* `Env`: a stack of scopes.
* `Store.visits?`: the walk through a function, with the scopes at each expression.

## Main statements

* `lookup_eq_of_visits`: looking up is finding in the stack of scopes.
-/

namespace FrontEnd

/-! ## Stacks of scopes -/

/-- Scopes, the innermost first, each with names and the nodes that declare them. -/
abbrev Env := List (List (Ident × NodeId))

namespace Env

/-- What the innermost scope that has a name holds under it. -/
def lookup (env : Env) (name : Ident) : Option NodeId :=
  env.findSome? fun scope => assoc? scope name

/-- Enter a name in the innermost scope. -/
def declare (env : Env) (name : Ident) (id : NodeId) : Env :=
  match env with
  | [] => [[(name, id)]]
  | scope :: outer => ((name, id) :: scope) :: outer

theorem lookup_cons (scope : List (Ident × NodeId)) (env : Env) (name : Ident) :
    Env.lookup (scope :: env) name = (assoc? scope name).or (env.lookup name) := by
  rw [lookup, List.findSome?_cons]
  cases assoc? scope name <;> rfl

end Env

namespace Store

open Phrase

/-! ## The walk through a function -/

/-- The expressions at and below a node, with the scopes that are open there. -/
def exprVisits (s : Store) (env : Env) : Nat → NodeId → List (NodeId × Env)
  | 0, _ => []
  | n + 1, id => (id, env) ::
    match s.construct? id with
    | some (.call c) => c.arguments.flatMap (s.exprVisits env n)
    | some (.binary b) => s.exprVisits env n b.lhs ++ s.exprVisits env n b.rhs
    | _ => []

/-- Walk through nodes in order, with the scopes that each leaves for the next. -/
def visitsInOrder (visits : Env → NodeId → List (NodeId × Env) × Env) (env : Env) :
    List NodeId → List (NodeId × Env)
  | [] => []
  | id :: rest => (visits env id).1 ++ visitsInOrder visits (visits env id).2 rest

/-- The expressions of a statement, with the scopes that are open there, and the scopes after the
statement. -/
def stmtVisits (s : Store) : Nat → Env → NodeId → List (NodeId × Env) × Env
  | 0, env, _ => ([], env)
  | n + 1, env, id =>
    match s.construct? id with
    | some (.block b) => (visitsInOrder (s.stmtVisits n) ([] :: env) b.statements, env)
    | some (.varDecl v) => (s.exprVisits env n v.value, env.declare v.name id)
    | some (.ret value) => (value.toList.flatMap (s.exprVisits env n), env)
    | some (.exprStatement value) => (s.exprVisits env n value, env)
    | _ => ([], env)

/-- The name that an item declares. -/
def itemName? (s : Store) (item : NodeId) : Option Ident := do
  match ← s.construct? item with
  | .struct st => return st.name
  | .global g => return g.name
  | .external e => return (← (s.read .prototype e.prototype).toOption).name
  | .function f => return (← (s.read .prototype f.prototype).toOption).name
  | _ => none

/-- Items under their names. -/
def itemEntries (s : Store) (items : List NodeId) : List (Ident × NodeId) :=
  items.filterMap fun item => (s.itemName? item).map (·, item)

/-- The expressions in the body of a function of a module, each with the scopes that are open
there. -/
def visits? (s : Store) (root item : NodeId) : Option (List (NodeId × Env)) := do
  let m ← (s.read .module root).toOption
  let f ← (s.read .function item).toOption
  let prototype ← (s.read .prototype f.prototype).toOption
  let arguments ← (s.read .arguments prototype.arguments).toOption
  return (s.stmtVisits s.size [arguments.scope.entries, s.itemEntries m.items] f.body).1

/-! ## What visits tell -/

variable {s : Store} {root id : NodeId} {p : Option NodeId} {c : Construct} {lo hi n : Nat}
  {names : List (Ident × NodeId)} {env : Env} {visits more : List (NodeId × Env)}
  {ids : List NodeId}

/-- At every visit, the open scopes hold what a name means there. -/
def Faithful (s : Store) (visits : List (NodeId × Env)) : Prop :=
  ∀ visit ∈ visits, ∀ name, s.lookup visit.1 name = .ok (visit.2.lookup name)

/-- Every expression at or below a node is visited. -/
def VisitsAll (s : Store) (visits : List (NodeId × Env)) (top : NodeId) : Prop :=
  ∀ start, s.Below top start → s.HasKind Kind.expressions start → ∃ env, (start, env) ∈ visits

theorem Has.construct?_eq (h : s.Has p id c) : s.construct? id = some c := by
  obtain ⟨span, hget⟩ := h
  rw [construct?, hget]
  rfl

theorem Has.hasKind_iff (h : s.Has p id c) {kinds : List Kind} :
    s.HasKind kinds id ↔ c.kind ∈ kinds := by
  rw [HasKind, h.kind_eq]
  simp

/-- What holds of the nodes of some kinds at and below a node holds of the node, and at and below
its children. -/
theorem Has.forall_below {kinds : List Kind} {Q : NodeId → Prop} (h : s.Has p id c)
    (hself : c.kind ∈ kinds → Q id)
    (hchildren : ∀ child ∈ c.children, ∀ below, s.Below child below → s.HasKind kinds below →
      Q below) (below : NodeId) (hbelow : s.Below id below) (hkind : s.HasKind kinds below) :
    Q below := by
  have hnode := h
  obtain ⟨span, hget⟩ := hnode
  rcases hbelow.cases_head hget with rfl | ⟨child, hchild, hbelow⟩
  · exact hself (h.hasKind_iff.mp hkind)
  · exact hchildren child hchild below hbelow hkind

theorem VisitsAll.mono {top : NodeId} (h : VisitsAll s visits top) (hsub : visits ⊆ more) :
    VisitsAll s more top := by
  intro start hbelow hkind
  obtain ⟨env, henv⟩ := h start hbelow hkind
  exact ⟨env, hsub henv⟩

/-- The scopes hold what names mean, given the local names around. -/
def Mirrors (s : Store) (root : NodeId) (names : List (Ident × NodeId)) (env : Env) : Prop :=
  ∀ name, env.lookup name = s.meaning root names name

theorem meaning_append (s : Store) (root : NodeId) (extra names : List (Ident × NodeId))
    (name : Ident) : s.meaning root (extra ++ names) name =
      (assoc? extra name).or (s.meaning root names name) := by
  rw [meaning, meaning, assoc?, assoc?, assoc?, List.find?_append]
  cases extra.find? fun e => e.1.same name <;> rfl

/-- A scope in front of others holds the names that come first. -/
theorem Mirrors.cons (h : Mirrors s root names env) (scope : List (Ident × NodeId)) :
    Mirrors s root (scope ++ names) (scope :: env) := by
  intro name
  rw [Env.lookup_cons, meaning_append, h name]

/-- Names that come first are added to the innermost scope. -/
theorem Mirrors.extend {scope : List (Ident × NodeId)} (h : Mirrors s root names (scope :: env))
    (extra : List (Ident × NodeId)) :
    Mirrors s root (extra ++ names) ((extra ++ scope) :: env) := by
  intro name
  rw [meaning_append, ← h name, Env.lookup_cons, Env.lookup_cons, assoc?, assoc?, assoc?,
    List.find?_append]
  cases extra.find? fun e => e.1.same name <;> rfl

/-! ## Expressions -/

/-- Visits are faithful, and leave out nothing at or below a node. -/
structure Visited (s : Store) (visits : List (NodeId × Env)) (top : NodeId) : Prop where
  faithful : Faithful s visits
  all : VisitsAll s visits top

/-- Nodes that are visited one after the other are visited together. -/
theorem visited_flatMap {nodes : List NodeId} {visitsAt : NodeId → List (NodeId × Env)}
    (h : ∀ child ∈ nodes, Visited s (visitsAt child) child) :
    Faithful s (nodes.flatMap visitsAt) ∧
      ∀ child ∈ nodes, VisitsAll s (nodes.flatMap visitsAt) child := by
  constructor
  · intro visit hvisit
    obtain ⟨child, hchild, hvisit⟩ := List.mem_flatMap.mp hvisit
    exact (h child hchild).faithful visit hvisit
  · intro child hchild
    exact (h child hchild).all.mono fun visit hvisit =>
      List.mem_flatMap.mpr ⟨child, hchild, hvisit⟩

/-- The visits of an expression are those of its node and of its operands. -/
theorem Has.exprVisits_eq (h : s.Has p id c) (hkind : c.kind ∈ Kind.expressions) (env : Env)
    (n : Nat) :
    s.exprVisits env (n + 1) id = (id, env) :: c.children.flatMap (s.exprVisits env n) := by
  rw [exprVisits, h.construct?_eq]
  cases c with
  | call _ => rfl
  | binary _ => simp [Construct.children]
  | literal _ => rfl
  | reference _ => rfl
  | _ => simp [Construct.kind, Kind.expressions] at hkind

/-- An expression is visited if its operands are. -/
theorem Situated.visited (h : s.Situated root names p id c) (henv : Mirrors s root names env)
    (hchildren : ∀ child ∈ c.children, Visited s (s.exprVisits env n child) child)
    (hkind : c.kind ∈ Kind.expressions := by simp [Construct.kind, Kind.expressions])
    (hscope : c.isScope = false := by rfl) : Visited s (s.exprVisits env (n + 1) id) id := by
  rw [h.has.exprVisits_eq hkind]
  obtain ⟨hfaithful, hall⟩ := visited_flatMap hchildren
  constructor
  · refine List.forall_mem_cons.mpr ⟨fun name => ?_, hfaithful⟩
    rw [h.lookup hscope name, henv name]
  · exact h.has.forall_below (fun _ => ⟨env, by simp⟩) fun child hchild =>
      (hall child hchild).mono (List.subset_cons_self _ _)

theorem ExprIn.visited {e : Expr} (h : s.ExprIn root names n e id)
    (henv : Mirrors s root names env) : Visited s (s.exprVisits env n id) id := by
  induction n generalizing e id with
  | zero => exact h.elim
  | succ n ih =>
    cases e with
    | literal value =>
      obtain ⟨p, h⟩ := h
      exact h.visited henv (by simp [Construct.children])
    | reference name =>
      obtain ⟨⟨p, h⟩, -⟩ := h
      exact h.visited henv (by simp [Construct.children])
    | call callee arguments =>
      obtain ⟨p, ids, h, harguments⟩ := h
      refine h.visited henv fun child hchild => ?_
      obtain ⟨a, -, ha⟩ := exists_of_forall₂_mem harguments hchild
      exact ih ha
    | binary op lhs rhs =>
      obtain ⟨p, l, r, h, -, hl, hr⟩ := h
      refine h.visited henv fun child hchild => ?_
      rcases List.mem_pair.mp hchild with rfl | rfl
      · exact ih hl
      · exact ih hr

/-! ## Statements -/

/-- After a statement, the innermost scope has the variable that it declares. -/
theorem StmtIn.stmtVisits_snd {stmt : Stmt} (h : s.StmtIn root (n + 1) names stmt id)
    (scope : List (Ident × NodeId)) (env : Env) :
    (s.stmtVisits (n + 1) (scope :: env) id).2 =
      ((stmt.declared?.map (·, id)).toList ++ scope) :: env := by
  cases stmt with
  | block _ | ret _ | exprStatement _ =>
    obtain ⟨_, _, h, -⟩ := h
    rw [stmtVisits, h.has.construct?_eq]
    rfl
  | varDecl _ _ _ =>
    obtain ⟨_, _, _, h, -⟩ := h
    rw [stmtVisits, h.has.construct?_eq]
    rfl

/-- Statements of a block are visited in order, and each adds the variable that it declares to the
innermost scope. -/
theorem visited_statements {body : List Stmt} {nodes : List NodeId}
    (h : BodyIn (s.StmtIn root n) names body nodes) {scope : List (Ident × NodeId)}
    (henv : Mirrors s root names (scope :: env))
    (hitem : ∀ {stmt child names env}, s.StmtIn root n names stmt child →
      Mirrors s root names env → Visited s (s.stmtVisits n env child).1 child) :
    let visits := visitsInOrder (s.stmtVisits n) (scope :: env) nodes
    Faithful s visits ∧ ∀ child ∈ nodes, VisitsAll s visits child := by
  induction h generalizing scope with
  | nil => simp [visitsInOrder, Faithful]
  | cons hhead _ ih =>
    cases n with
    | zero => exact hhead.elim
    | succ n =>
      have hfirst := hitem hhead henv
      have hlater := ih (henv.extend _)
      rw [← hhead.stmtVisits_snd] at hlater
      rw [visitsInOrder]
      refine ⟨?_, List.forall_mem_cons.mpr ⟨?_, fun other hother => ?_⟩⟩
      · exact List.forall_mem_append.mpr ⟨hfirst.faithful, hlater.1⟩
      · exact hfirst.all.mono (by simp)
      · exact (hlater.2 other hother).mono (by simp)

/-- A node that is no expression is visited if its children are. -/
theorem Has.visited (h : s.Has p id c) (hfaithful : Faithful s visits)
    (hchildren : ∀ child ∈ c.children, VisitsAll s visits child)
    (hkind : c.kind ∉ Kind.expressions := by simp [Construct.kind, Kind.expressions]) :
    Visited s visits id :=
  ⟨hfaithful, h.forall_below (fun hexpression => absurd hexpression hkind) hchildren⟩

theorem StmtIn.visited {stmt : Stmt} (h : s.StmtIn root n names stmt id)
    (henv : Mirrors s root names env) : Visited s (s.stmtVisits n env id).1 id := by
  induction n generalizing names stmt id env with
  | zero => exact h.elim
  | succ n ih =>
    cases stmt with
    | block body =>
      obtain ⟨p, ids, h, hbody⟩ := h
      obtain ⟨hfaithful, hall⟩ := visited_statements hbody (henv.cons []) ih
      rw [stmtVisits, h.has.construct?_eq]
      exact h.has.visited hfaithful hall
    | varDecl name type value =>
      obtain ⟨p, t, v, h, -, -, htype, hvalue⟩ := h
      have hvisited := hvalue.visited henv
      rw [stmtVisits, h.has.construct?_eq]
      refine h.has.visited hvisited.faithful fun child hchild => ?_
      rcases List.mem_append.mp hchild with hchild | hchild
      · cases htype with
        | none => cases hchild
        | some htype =>
          obtain ⟨p, htype⟩ := htype
          rw [List.mem_singleton.mp hchild]
          exact (htype.has.visited hvisited.faithful (by simp [Construct.children])).all
      · rw [List.mem_singleton.mp hchild]
        exact hvisited.all
    | ret value =>
      obtain ⟨p, v, h, hvalue⟩ := h
      have hvisited : ∀ child ∈ v.toList, Visited s (s.exprVisits env n child) child := by
        cases hvalue with
        | none => simp
        | some hvalue => simpa using hvalue.visited henv
      obtain ⟨hfaithful, hall⟩ := visited_flatMap hvisited
      rw [stmtVisits, h.has.construct?_eq]
      exact h.has.visited hfaithful hall
    | exprStatement value =>
      obtain ⟨p, v, h, hvalue⟩ := h
      have hvisited := hvalue.visited henv
      rw [stmtVisits, h.has.construct?_eq]
      refine h.has.visited hvisited.faithful fun child hchild => ?_
      rw [List.mem_singleton.mp hchild]
      exact hvisited.all

/-! ## Functions and modules -/

theorem ProtoAt.name_eq {proto : Proto} (h : ProtoAt s lo hi p proto id) :
    ((s.read .prototype id).toOption.bind fun q => some q.name) = some proto.name := by
  obtain ⟨_, _, _, hread, -⟩ := h.read_eq
  rw [hread]
  rfl

theorem DeclAt.itemName?_eq {d : Decl} (h : DeclAt s lo hi p d id) :
    s.itemName? id = some d.name := by
  cases h with
  | struct _ _ _ hnode | global _ _ _ _ hnode =>
    rw [itemName?, hnode.construct?_eq]
    rfl
  | external _ hproto _ _ hnode | function _ hproto _ _ _ hnode =>
    rw [itemName?, hnode.construct?_eq]
    exact hproto.name_eq

theorem Laid.itemEntries_eq {decls : List Decl} (h : Laid (DeclAt s) lo hi p decls ids) :
    s.itemEntries ids = (decls.map Decl.name).zip ids := by
  induction h with
  | nil _ => rfl
  | cons hhead _ ih =>
    rw [itemEntries, List.filterMap_cons, hhead.itemName?_eq, List.map_cons, List.zip_cons_cons,
      ← ih]
    rfl

/-- The items of a module are visible everywhere in it. -/
theorem ModuleAt.mirrors {m : Module} (h : ModuleAt s m root ids) :
    Mirrors s root [] [s.itemEntries ids] := by
  intro name
  rw [Env.lookup_cons, h.decls.itemEntries_eq, meaning, h.itemNamed?_eq, assoc?, assoc?]
  simp [Env.lookup]

/-- The walk through a function of a module visits each expression of its body, with scopes that
hold what names mean there. -/
theorem ModuleAt.visited {m : Module} (h : ModuleAt s m root ids) (hnamed : m.WellNamed)
    {item : NodeId} (hitem : item ∈ ids) {f : FunctionNode} (hf : s.read .function item = .ok f) :
    ∃ visits, s.visits? root item = some visits ∧ Visited s visits f.body := by
  obtain ⟨d, -, hd⟩ := exists_of_forall₂_mem (h.standing hnamed (Nat.le_succ _)) hitem
  cases d with
  | function attributes proto body =>
    obtain ⟨_, prototype, block, nodes, hnode, -, -, ⟨_, list, _, hproto, hlist, -⟩, hbody⟩ := hd
    obtain rfl := Except.ok.inj (hf.symm.trans (hnode.has.read_eq rfl))
    have hread : s.read .prototype prototype = .ok _ := hproto.has.read_eq rfl
    have harguments : s.read .arguments list = .ok _ := hlist.read_eq rfl
    refine ⟨_, ?_, hbody.visited (by simpa using h.mirrors.cons _)⟩
    rw [visits?, h.root.read_eq rfl, hf]
    simp only [Except.toOption, Option.bind_eq_bind, Option.bind_some, hread, harguments]
    rfl
  | struct _ _ =>
    obtain ⟨_, hnode, -⟩ := hd
    rw [read, hnode.has.construct_eq] at hf
    cases hf
  | global _ _ _ =>
    obtain ⟨_, _, hnode, -⟩ := hd
    rw [read, hnode.has.construct_eq] at hf
    cases hf
  | external _ _ =>
    obtain ⟨_, _, _, hnode, -⟩ := hd
    rw [read, hnode.has.construct_eq] at hf
    cases hf

end Store

namespace Grammar

open Store

variable {tokens : List (Located Token)} {store s : Store} {notices : Notices} {parsed : Parsed}
  {root : NodeId}

/-- In a module that was parsed, the walk through a function visits every expression in its body,
and looking a name up from there finds what the open scopes hold. -/
theorem lookup_eq_of_visits (hparse : parseModule tokens store notices = .ok parsed)
    (hroot : parsed.result = .ok root) (hfills : Fills parsed.store s) :
    ∃ m, s.read .module root = .ok m ∧
      ∀ item ∈ m.items, ∀ f, s.read .function item = .ok f →
        ∃ visits, s.visits? root item = some visits ∧
          (∀ start, s.Below f.body start → s.HasKind Kind.expressions start →
            ∃ env, (start, env) ∈ visits) ∧
          ∀ start env, (start, env) ∈ visits →
            ∀ name, s.lookup start name = .ok (env.lookup name) := by
  obtain ⟨m, ids, hm, hnamed, -⟩ := parseModule_sound hparse hroot
  have hm' := hm.grow hfills.grown
  refine ⟨_, hm'.root.read_eq rfl, fun item hitem f hf => ?_⟩
  obtain ⟨visits, hvisits, hvisited⟩ := hm'.visited hnamed hitem hf
  exact ⟨visits, hvisits, hvisited.all, fun start env hmem => hvisited.faithful _ hmem⟩

/-- Tokens are parsed as a module; the walk through its first item, which is a function. -/
def firstVisits (tokens : List (Located Token)) : Option (List (NodeId × Env)) := do
  let parsed ← (parseModule tokens .empty #[]).toOption
  let root ← parsed.result.toOption
  let m ← (parsed.store.read .module root).toOption
  let item ← m.items.head?
  let _ ← (parsed.store.read .function item).toOption
  parsed.store.visits? root item

theorem exists_of_firstVisits {visits : List (NodeId × Env)}
    (h : firstVisits tokens = some visits) :
    ∃ parsed root m item f, parseModule tokens .empty #[] = .ok parsed ∧
      parsed.result = .ok root ∧ parsed.store.read .module root = .ok m ∧ item ∈ m.items ∧
      parsed.store.read .function item = .ok f ∧ parsed.store.visits? root item = some visits := by
  rw [firstVisits] at h
  simp only [Option.bind_eq_bind, Option.bind_eq_some_iff, toOption_eq_some_iff] at h
  obtain ⟨parsed, hparse, root, hroot, m, hm, item, hitem, f, hf, hvisits⟩ := h
  exact ⟨parsed, root, m, item, f, hparse, hroot, hm, List.mem_of_head? hitem, hf, hvisits⟩

/-- A function with variables that hide a parameter and each other. -/
def hidden : Phrase.Module where
  name := ⟨"m"⟩
  decls :=
    [.function [] ⟨⟨"f"⟩, [⟨.prim (.int .w32), ⟨"a"⟩⟩], false, .prim (.int .w32)⟩
      [.varDecl ⟨"b"⟩ none (.reference ⟨"a"⟩),
        .block [.varDecl ⟨"a"⟩ none (.reference ⟨"A"⟩), .varDecl ⟨"B"⟩ none (.reference ⟨"a"⟩),
          .ret (some (.reference ⟨"b"⟩))],
        .ret (some (.reference ⟨"b"⟩))]]

/-- The scopes at each use of a name. -/
def hiddenVisits : List (NodeId × Env) :=
  let outermost : Env := [[(⟨"a"⟩, ⟨1⟩)], [(⟨"f"⟩, ⟨17⟩)]]
  [(⟨6⟩, [] :: outermost),
    (⟨9⟩, [] :: [(⟨"b"⟩, ⟨7⟩)] :: outermost),
    (⟨11⟩, [(⟨"a"⟩, ⟨10⟩)] :: [(⟨"b"⟩, ⟨7⟩)] :: outermost),
    (⟨13⟩, [(⟨"B"⟩, ⟨12⟩), (⟨"a"⟩, ⟨10⟩)] :: [(⟨"b"⟩, ⟨7⟩)] :: outermost),
    (⟨15⟩, [(⟨"b"⟩, ⟨7⟩)] :: outermost)]

theorem lookup_eq_of_visits_hidden :
    let tokens : List (Located Token) := (hidden.tokens ++ [Token.eof]).map fun t => ⟨t, default⟩
    ∃ parsed root, parseModule tokens .empty #[] = .ok parsed ∧ parsed.result = .ok root ∧
      parsed.store.lookup ⟨9⟩ ⟨"A"⟩ = .ok (some ⟨1⟩) ∧
      parsed.store.lookup ⟨11⟩ ⟨"a"⟩ = .ok (some ⟨10⟩) ∧
      parsed.store.lookup ⟨13⟩ ⟨"b"⟩ = .ok (some ⟨12⟩) ∧
      parsed.store.lookup ⟨15⟩ ⟨"b"⟩ = .ok (some ⟨7⟩) := by
  intro tokens
  have hwalk : firstVisits tokens = some hiddenVisits := by decide +kernel
  obtain ⟨parsed, root, m, item, f, hparse, hroot, hm, hitem, hf, hvisits⟩ :=
    exists_of_firstVisits hwalk
  obtain ⟨m', hm', hall⟩ := lookup_eq_of_visits hparse hroot .refl
  obtain rfl := Except.ok.inj (hm.symm.trans hm')
  obtain ⟨visits, hvisits', -, hlookup⟩ := hall item hitem f hf
  obtain rfl := Option.some.inj (hvisits.symm.trans hvisits')
  have hnames : ∀ visit ∈ hiddenVisits, ∀ name,
      parsed.store.lookup visit.1 name = .ok (visit.2.lookup name) :=
    fun visit hmem => hlookup visit.1 visit.2 hmem
  simp only [hiddenVisits, List.forall_mem_cons] at hnames
  obtain ⟨-, h₉, h₁₁, h₁₃, h₁₅, -⟩ := hnames
  refine ⟨parsed, root, hparse, hroot, (h₉ _).trans ?_, (h₁₁ _).trans ?_, (h₁₃ _).trans ?_,
    (h₁₅ _).trans ?_⟩ <;> decide +kernel

end Grammar

end FrontEnd
