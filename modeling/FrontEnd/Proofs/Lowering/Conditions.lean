import FrontEnd.Proofs.Lowering.Registry
import FrontEnd.Proofs.Tree.Situation

/-!
# The conditions on a module, said of its phrases

Whether a tree is well formed is a question about its nodes.  Here it is one about phrases: where
the items of a module are known by their names, each phrase is well formed or not, whatever store
holds it.  What a phrase needs of the module is only what its names mean there, so the order of
the declarations has no part in it.

## Main definitions

* `Expr.WellFormed`, `Stmt.WellFormed`, `Decl.WellFormed`: the conditions, where `items` tells
  what names mean at the top level and `env` lists the local names.

## Main statements

* `wellFormedBelow_module_iff`: the tree of a module is well formed if its declarations are.
-/

namespace FrontEnd

namespace Phrase

/-! ## Well-formed phrases -/

/-- What names mean at the top level. -/
abbrev Items := Ident → Option Decl

/-- A written type is primitive, or the name of a struct. -/
def TypeName.WellFormed (items : Items) : TypeName → Prop
  | .prim _ => True
  | .named name => ∃ own fields, items name = some (.struct own fields)

/-- A prototype takes a number of arguments. -/
def Proto.Takes (proto : Proto) (count : Nat) : Prop :=
  count = proto.params.length ∨ proto.variadic = true ∧ proto.params.length ≤ count

/-- The types of a prototype are well formed. -/
def Proto.WellFormed (items : Items) (proto : Proto) : Prop :=
  (∀ param ∈ proto.params, param.type.WellFormed items) ∧ proto.result.WellFormed items

mutual

/-- Names that are used as values are local names or globals, and calls call functions with as
many arguments as they take. -/
def Expr.WellFormed (items : Items) (env : List Ident) : Expr → Prop
  | .literal _ => True
  | .reference name => (∃ n ∈ env, n.same name = true) ∨
      ∃ type own value, items name = some (.global type own value)
  | .call callee arguments => (∃ d proto, items callee = some d ∧ d.proto? = some proto ∧
      proto.Takes arguments.length) ∧ ExprsWellFormed items env arguments
  | .binary _ lhs rhs => lhs.WellFormed items env ∧ rhs.WellFormed items env

/-- Expressions are well formed. -/
def ExprsWellFormed (items : Items) (env : List Ident) : List Expr → Prop
  | [] => True
  | e :: rest => e.WellFormed items env ∧ ExprsWellFormed items env rest

end

mutual

/-- The expressions and types of a statement are well formed. -/
def Stmt.WellFormed (items : Items) (env : List Ident) : Stmt → Prop
  | .block body => StmtsWellFormed items env body
  | .varDecl _ type value => (∀ t ∈ type, t.WellFormed items) ∧ value.WellFormed items env
  | .ret value => ∀ v ∈ value, v.WellFormed items env
  | .exprStatement value => value.WellFormed items env

/-- Statements are well formed, each with the variables that the ones before it declare. -/
def StmtsWellFormed (items : Items) (env : List Ident) : List Stmt → Prop
  | [] => True
  | st :: rest =>
    st.WellFormed items env ∧ StmtsWellFormed items (st.declared?.toList ++ env) rest

end

/-- A declaration is well formed.  A function that returns a value has to end in a return, and
which literals fit which types is a parameter. -/
def Decl.WellFormed (fits : Literal → Ty → Prop) (items : Items) : Decl → Prop
  | .struct _ fields => ∀ field ∈ fields, field.type.WellFormed items
  | .global type _ value => type.WellFormed items ∧
      ∀ l ∈ value, ∃ prim, type = .prim prim ∧ fits l.sized (.prim prim)
  | .external _ proto => proto.WellFormed items
  | .function _ proto body => proto.WellFormed items ∧
      (proto.result = .prim .void ∨ Lowering.endsInReturn body = true) ∧
      StmtsWellFormed items (proto.params.map Param.name) body

end Phrase

namespace Lowering

open Phrase Store

variable {s : Store} {m : Phrase.Module} {root id : NodeId} {ids nodes : List NodeId}
  {names : List (Ident × NodeId)} {n : Nat} {p : Option NodeId} {c : Construct}
  {fits : Literal → Ty → Prop} {name : Ident} {proto : Proto} {body : List Stmt}

/-! ## The last statement of a body -/

/-- What stands last in a row. -/
theorem getLast?_cases {Item : List (Ident × NodeId) → Stmt → NodeId → Prop}
    (h : BodyIn Item names body nodes) : (body.getLast? = none ∧ nodes.getLast? = none) ∨
      ∃ names stmt id, body.getLast? = some stmt ∧ nodes.getLast? = some id ∧
        Item names stmt id := by
  induction h with
  | nil => exact .inl ⟨rfl, rfl⟩
  | @cons names stmt body id nodes hhead _ ih =>
    right
    rcases ih with ⟨hbody, hnodes⟩ | ⟨names', stmt', id', hbody, hnodes, hlast⟩
    · rw [List.getLast?_cons, hbody, List.getLast?_cons, hnodes]
      exact ⟨names, stmt, id, rfl, rfl, hhead⟩
    · rw [List.getLast?_cons, hbody, List.getLast?_cons, hnodes]
      exact ⟨names', stmt', id', rfl, rfl, hlast⟩

/-- The node of a statement is a return if the statement is one. -/
theorem stmtIn_cases {stmt : Stmt} (h : s.StmtIn root n names stmt id) :
    (∃ value p v, stmt = .ret value ∧ s.Has p id (.ret v)) ∨
      ((∀ value, stmt ≠ .ret value) ∧ ∃ p c, s.Has p id c ∧ c.kind ≠ .ret) := by
  cases n with
  | zero => exact h.elim
  | succ n =>
    cases stmt with
    | ret value =>
      obtain ⟨p, v, h, -⟩ := h
      exact .inl ⟨value, p, v, rfl, h.has⟩
    | block body =>
      obtain ⟨p, _, h, -⟩ := h
      exact .inr ⟨by simp, p, _, h.has, by simp [Construct.kind]⟩
    | varDecl name type value =>
      obtain ⟨p, _, _, h, -⟩ := h
      exact .inr ⟨by simp, p, _, h.has, by simp [Construct.kind]⟩
    | exprStatement value =>
      obtain ⟨p, _, h, -⟩ := h
      exact .inr ⟨by simp, p, _, h.has, by simp [Construct.kind]⟩

section Flow

variable {body : List Stmt} (h : s.StmtIn root n names (.block body) id)
include h

/-- The last node of a body is a return if its last statement is one. -/
theorem lastStatement_cases :
    (endsInReturn body = true ∧ ∃ last q v, s.lastStatement id = .ok (some last) ∧
      s.Has q last (.ret v)) ∨
    (endsInReturn body = false ∧ (s.lastStatement id = .ok none ∨ ∃ last q c,
      s.lastStatement id = .ok (some last) ∧ s.Has q last c ∧ c.kind ≠ .ret)) := by
  cases n with
  | zero => exact h.elim
  | succ n =>
    obtain ⟨p, nodes, h, hbody⟩ := h
    have hlast : s.lastStatement id = .ok nodes.getLast? := by
      rw [lastStatement, h.has.read_eq rfl]
      rfl
    rw [hlast, endsInReturn]
    rcases getLast?_cases hbody with ⟨hbody, hnodes⟩ | ⟨names', stmt, last, hbody, hnodes, hat⟩
    · rw [hbody, hnodes]
      exact .inr ⟨rfl, .inl rfl⟩
    · rw [hbody, hnodes]
      rcases stmtIn_cases hat with ⟨value, q, v, rfl, hret⟩ | ⟨hother, q, c, hc, hkind⟩
      · exact .inl ⟨rfl, last, q, v, rfl, hret⟩
      · refine .inr ⟨?_, .inr ⟨last, q, c, rfl, hc, hkind⟩⟩
        cases stmt with
        | ret value => exact absurd rfl (hother value)
        | _ => rfl

theorem endsInReturn_iff : s.EndsInReturn id ↔ endsInReturn body = true := by
  constructor
  · intro hreturn
    obtain ⟨last, value, hlast, hread⟩ := hreturn
    rcases lastStatement_cases h with ⟨hends, -⟩ | ⟨-, hnone | ⟨last', q, c, hlast', hc, hkind⟩⟩
    · exact hends
    · exact absurd (hlast.symm.trans hnone) (by simp)
    · obtain rfl : last = last' := by simpa using hlast.symm.trans hlast'
      rw [Store.read, hc.construct_eq] at hread
      cases c with
      | ret _ => exact absurd rfl hkind
      | _ => cases hread
  · intro hends
    rcases lastStatement_cases h with ⟨-, last, q, v, hlast, hret⟩ | ⟨hother, -⟩
    · exact ⟨last, v, hlast, hret.read_eq rfl⟩
    · rw [hends] at hother
      cases hother

end Flow

/-- A function returns nothing if its prototype says so. -/
theorem returnsVoid_iff {f : FunctionNode} (h : s.ProtoIn root names proto nodes f.prototype) :
    s.ReturnsVoid f ↔ proto.result = .prim .void := by
  obtain ⟨p, list, result, h, -, -, q, hresult⟩ := h
  have hread : s.read .prototype f.prototype = .ok ⟨proto.name, list, result⟩ := h.has.read_eq rfl
  have href : s.read .typeRef result = .ok proto.result.ref := hresult.has.read_eq rfl
  have hvoid : s.ReturnsVoid f ↔ proto.result.ref = .known (.prim .void) := by
    simp [ReturnsVoid, hread, href]
  rw [hvoid]
  cases proto.result <;> simp [TypeName.ref]

/-! ## What names mean -/

/-- The name of an item is the name of a struct if the item is one. -/
theorem namesStruct_iff {item : NodeId} (hitem : s.itemNamed? root name = some item)
    (hnode : s.Has p item c) : s.NamesStruct root name ↔ ∃ st, c = .struct st := by
  constructor
  · intro h
    obtain ⟨item', st, hitem', hread⟩ := h
    obtain rfl : item' = item := Option.some.inj (hitem'.symm.trans hitem)
    rw [Store.read, hnode.construct_eq] at hread
    cases c with
    | struct st => exact ⟨st, rfl⟩
    | _ => cases hread
  · intro h
    obtain ⟨st, rfl⟩ := h
    exact ⟨item, st, hitem, hnode.read_eq rfl⟩

/-- What a name calls, and its parameters. -/
theorem namesFunction_unique {a a' : ArgumentsNode} (h : s.NamesFunction root name a)
    (h' : s.NamesFunction root name a') : a' = a := by
  obtain ⟨item, c, prototype, node, hitem, hc, hprototype, hnode, ha⟩ := h
  obtain ⟨item', c', prototype', node', hitem', hc', hprototype', hnode', ha'⟩ := h'
  obtain rfl := Option.some.inj (hitem.symm.trans hitem')
  obtain rfl := Except.ok.inj (hc.symm.trans hc')
  obtain rfl := Option.some.inj (hprototype.symm.trans hprototype')
  obtain rfl := Except.ok.inj (hnode.symm.trans hnode')
  exact (Except.ok.inj (ha.symm.trans ha')).symm

variable (hm : ModuleAt s m root ids)
include hm

theorem namesStruct_iff_item? (name : Ident) :
    s.NamesStruct root name ↔ ∃ own fields, m.item? name = some (.struct own fields) := by
  rcases hm.item?_cases name with ⟨hnone, hitem⟩ | ⟨d, item, _, _, hdecl, hitem, hat, -, -⟩
  · simp [NamesStruct, hnone, hitem]
  · rw [hdecl]
    cases hat with
    | struct _ _ _ hn => simp [namesStruct_iff hitem hn]
    | global _ _ _ _ hn | external _ _ _ _ hn | function _ _ _ _ _ hn =>
      simp [namesStruct_iff hitem hn]

theorem typeNamed_iff (type : TypeName) : TypeNamed s root type ↔ type.WellFormed m.item? := by
  cases type with
  | prim prim => simp [TypeNamed, TypeName.WellFormed]
  | named name => simp [TypeNamed, TypeName.WellFormed, namesStruct_iff_item? hm]

/-- Functions of the module can be called, each with what it takes. -/
theorem namesFunction_iff (name : Ident) (count : Nat) :
    (∃ a, s.NamesFunction root name a ∧ a.Takes count) ↔
      ∃ d proto, m.item? name = some d ∧ d.proto? = some proto ∧ proto.Takes count := by
  rcases hm.item?_cases name with ⟨hnone, hitem⟩ | ⟨d, item, _, _, hdecl, hitem, hat, -, -⟩
  · simp [NamesFunction, hnone, hitem]
  · have hother : ∀ {c}, s.Has (some root) item c → c.prototype? = none →
        ¬ ∃ a, s.NamesFunction root name a ∧ a.Takes count := by
      rintro c hc hnone ⟨a, ⟨item', c', prototype, _, hitem', hc', hprototype, -⟩, -⟩
      obtain rfl := Option.some.inj (hitem.symm.trans hitem')
      obtain rfl := Except.ok.inj (hc.construct_eq.symm.trans hc')
      exact absurd (hprototype.symm.trans hnone) (by simp)
    have hfunction : ∀ {c prototype proto lo hi p}, s.Has (some root) item c →
        c.prototype? = some prototype → ProtoAt s lo hi p proto prototype →
        ((∃ a, s.NamesFunction root name a ∧ a.Takes count) ↔ proto.Takes count) := by
      intro c prototype proto lo hi p hc hprototype hplaced
      obtain ⟨list, result, nodes, hread, hlist, -, hparams⟩ := hplaced.read_eq
      have hnames : s.NamesFunction root name _ :=
        ⟨item, c, prototype, _, hitem, hc.construct_eq, hprototype, hread, hlist⟩
      have htakes : ArgumentsNode.Takes
          ⟨⟨(proto.params.map Param.name).zip nodes⟩, proto.variadic⟩ count ↔
            proto.Takes count := by
        rw [ArgumentsNode.Takes, size_zip hparams.length_eq, Proto.Takes]
      constructor
      · rintro ⟨a, ha, hcount⟩
        obtain rfl := namesFunction_unique hnames ha
        exact htakes.mp hcount
      · exact fun hcount => ⟨_, hnames, htakes.mpr hcount⟩
    rw [hdecl]
    cases hat with
    | struct _ _ _ hn | global _ _ _ _ hn => simpa [Decl.proto?] using hother hn rfl
    | external _ hproto _ _ hn =>
      simpa [Decl.proto?] using hfunction hn rfl hproto
    | function _ hproto _ _ _ hn =>
      simpa [Decl.proto?] using hfunction hn rfl hproto

/-- A name has a value if it is a local name or that of a global. -/
theorem namesValue_iff (h : s.Situated root names p id (.reference name)) :
    s.NamesValue id name ↔ (∃ n ∈ names.map Prod.fst, n.same name = true) ∨
      ∃ type own value, m.item? name = some (.global type own value) := by
  have hlookup := h.lookup rfl name
  have hvalue : s.NamesValue id name ↔ ∃ target c, s.meaning root names name = some target ∧
      s.construct target = .ok c ∧ c.isValue = true := by
    simp [NamesValue, hlookup]
  rw [hvalue, meaning, assoc?]
  cases hfind : names.find? fun e => e.1.same name with
  | some e =>
    have hmem := List.mem_of_find?_eq_some hfind
    have hsame : e.1.same name = true := by simpa using List.find?_some hfind
    obtain ⟨c, hc, hisLocal⟩ := h.locals e hmem
    refine iff_of_true ⟨e.2, c, rfl, hc, ?_⟩ (.inl ⟨e.1, List.mem_map_of_mem hmem, hsame⟩)
    cases c with
    | varDecl _ | typeRef _ => rfl
    | _ => cases hisLocal
  | none =>
    have hnone : ¬ ∃ n ∈ names.map Prod.fst, n.same name = true := by
      rintro ⟨n, hn, hsame⟩
      obtain ⟨e, he, rfl⟩ := List.mem_map.mp hn
      exact List.find?_eq_none.mp hfind e he hsame
    rw [Option.map_none, Option.none_or, or_iff_right hnone]
    rcases hm.item?_cases name with ⟨hnone, hitem⟩ | ⟨d, item, _, _, hdecl, hitem, hat, -, -⟩
    · simp [hnone, hitem]
    · rw [hdecl, hitem]
      cases hat with
      | global _ _ _ _ hn => simp [hn.construct_eq, Construct.isValue]
      | struct _ _ _ hn | external _ _ _ _ hn | function _ _ _ _ _ hn =>
        simp [hn.construct_eq, Construct.isValue]

/-! ## Types -/

theorem wellFormedBelow_type_iff {type : TypeName} (h : s.TypeIn root names type id) :
    s.WellFormedBelow fits root id ↔ type.WellFormed m.item? := by
  obtain ⟨p, h⟩ := h
  rw [wellFormedBelow_iff h.has]
  cases type with
  | prim type => simp [WellFormedAt, TypeName.WellFormed, TypeName.ref, Construct.children]
  | named name =>
    simp [WellFormedAt, TypeName.WellFormed, TypeName.ref, Construct.children,
      namesStruct_iff_item? hm]

theorem wellFormedBelow_params_iff {params : List Param}
    (h : List.Forall₂ (s.ParamIn root names) params nodes) :
    (∀ node ∈ nodes, s.WellFormedBelow fits root node) ↔
      ∀ param ∈ params, param.type.WellFormed m.item? := by
  induction h with
  | nil => simp
  | cons hhead _ ih =>
    rw [List.forall_mem_cons, List.forall_mem_cons, ih, wellFormedBelow_type_iff hm hhead]

theorem wellFormedBelow_proto_iff (h : s.ProtoIn root names proto nodes id) :
    s.WellFormedBelow fits root id ↔ proto.WellFormed m.item? := by
  obtain ⟨p, list, result, h, hlist, hparams, hresult⟩ := h
  have hfields : s.WellFormedBelow fits root list ↔ _ :=
    (wellFormedBelow_iff hlist).trans (and_iff_right trivial)
  rw [Construct.children, nodes_zip hparams.length_eq.symm, wellFormedBelow_params_iff hm hparams]
    at hfields
  have htype : s.WellFormedBelow fits root result ↔ _ := wellFormedBelow_type_iff hm hresult
  rw [wellFormedBelow_iff h.has, Proto.WellFormed, ← hfields, ← htype]
  simp [WellFormedAt, Construct.children]

omit hm in
/-- Attributes have no condition. -/
theorem wellFormedBelow_attributes {attributes : List Ident}
    (h : List.Forall₂ (LeafIn .attr s root names) attributes nodes) :
    ∀ child ∈ nodes, s.WellFormedBelow fits root child := by
  induction h with
  | nil => simp
  | cons hhead _ ih =>
    obtain ⟨p, hhead⟩ := hhead
    exact List.forall_mem_cons.mpr ⟨wellFormedBelow_of_leaf hhead.has rfl trivial, ih⟩

/-! ## Expressions -/

omit hm in
theorem wellFormedBelow_exprs_iff {arguments : List Expr} {items : Items}
    {env : List Ident} (h : List.Forall₂
      (fun a id => s.WellFormedBelow fits root id ↔ a.WellFormed items env) arguments nodes) :
    (∀ id ∈ nodes, s.WellFormedBelow fits root id) ↔ ExprsWellFormed items env arguments := by
  induction h with
  | nil => simp [ExprsWellFormed]
  | cons hhead _ ih => rw [List.forall_mem_cons, ExprsWellFormed, hhead, ih]

/-- The tree of an expression is well formed if the expression is. -/
theorem wellFormedBelow_expr_iff {e : Expr} (h : s.ExprIn root names n e id) :
    s.WellFormedBelow fits root id ↔ e.WellFormed m.item? (names.map Prod.fst) := by
  induction n generalizing e id with
  | zero => exact h.elim
  | succ n ih =>
    cases e with
    | literal l =>
      obtain ⟨p, h⟩ := h
      exact iff_of_true (wellFormedBelow_of_leaf h.has rfl trivial) (by simp [Expr.WellFormed])
    | reference name =>
      obtain ⟨⟨p, h⟩, -⟩ := h
      rw [wellFormedBelow_iff h.has, Expr.WellFormed, ← namesValue_iff hm h]
      simp [WellFormedAt, Construct.children]
    | call callee arguments =>
      obtain ⟨p, nodes, h, harguments⟩ := h
      rw [wellFormedBelow_iff h.has, Expr.WellFormed, WellFormedAt, ← harguments.length_eq,
        namesFunction_iff hm, Construct.children]
      exact and_congr_right fun _ => wellFormedBelow_exprs_iff (harguments.imp fun _ _ ha => ih ha)
    | binary op lhs rhs =>
      obtain ⟨p, l, r, h, -, hl, hr⟩ := h
      rw [wellFormedBelow_iff h.has, Expr.WellFormed, ← ih hl, ← ih hr]
      simp [WellFormedAt, Construct.children]

/-! ## Statements -/

omit hm in
/-- The trees of statements are well formed if the statements are. -/
theorem wellFormedBelow_stmts_iff {Item : List (Ident × NodeId) → Stmt → NodeId → Prop}
    {items : Items} (h : BodyIn Item names body nodes)
    (hitem : ∀ {names stmt id}, Item names stmt id →
      (s.WellFormedBelow fits root id ↔ stmt.WellFormed items (names.map Prod.fst))) :
    (∀ child ∈ nodes, s.WellFormedBelow fits root child) ↔
      StmtsWellFormed items (names.map Prod.fst) body := by
  induction h with
  | nil => simp [StmtsWellFormed]
  | @cons names stmt body child nodes hhead _ ih =>
    have henv : ((stmt.declared?.map (·, child)).toList ++ names).map Prod.fst =
        stmt.declared?.toList ++ names.map Prod.fst := by
      cases stmt.declared? <;> rfl
    rw [List.forall_mem_cons, StmtsWellFormed, ← henv, ← ih, hitem hhead]

/-- The tree of a statement is well formed if the statement is. -/
theorem wellFormedBelow_stmt_iff {stmt : Stmt} (h : s.StmtIn root n names stmt id) :
    s.WellFormedBelow fits root id ↔ stmt.WellFormed m.item? (names.map Prod.fst) := by
  induction n generalizing stmt id names with
  | zero => exact h.elim
  | succ n ih =>
    cases stmt with
    | block body =>
      obtain ⟨p, nodes, h, hbody⟩ := h
      rw [wellFormedBelow_iff h.has, Stmt.WellFormed, ← wellFormedBelow_stmts_iff hbody ih]
      exact and_iff_right trivial
    | varDecl name type value =>
      obtain ⟨p, t, v, h, -, -, htype, hvalue⟩ := h
      have hexpr : s.WellFormedBelow fits root v ↔ _ := wellFormedBelow_expr_iff hm hvalue
      rw [wellFormedBelow_iff h.has, Stmt.WellFormed, ← hexpr]
      cases htype with
      | none => simp [WellFormedAt, Construct.children]
      | some htype =>
        simp [WellFormedAt, Construct.children, wellFormedBelow_type_iff hm htype]
    | ret value =>
      obtain ⟨p, v, h, hvalue⟩ := h
      rw [wellFormedBelow_iff h.has, Stmt.WellFormed]
      cases hvalue with
      | none => simp [WellFormedAt, Construct.children]
      | some hvalue => simp [WellFormedAt, Construct.children, wellFormedBelow_expr_iff hm hvalue]
    | exprStatement value =>
      obtain ⟨p, v, h, hvalue⟩ := h
      have hexpr : s.WellFormedBelow fits root v ↔ _ := wellFormedBelow_expr_iff hm hvalue
      rw [wellFormedBelow_iff h.has, Stmt.WellFormed, ← hexpr]
      simp [WellFormedAt, Construct.children]

/-! ## Declarations -/

/-- The tree of a global is well formed if the global is. -/
theorem wellFormedBelow_global_iff {type : TypeName} {value : Option Lit}
    (h : s.DeclIn root n (.global type name value) id) :
    s.WellFormedBelow fits root id ↔ (Decl.global type name value).WellFormed fits m.item? := by
  obtain ⟨t, v, h, htype, hvalue⟩ := h
  have hknown : s.WellFormedBelow fits root t ↔ _ := wellFormedBelow_type_iff hm htype
  rw [wellFormedBelow_iff h.has, Decl.WellFormed, ← hknown]
  obtain ⟨p, htype⟩ := htype
  have hread : s.read .typeRef t = .ok type.ref := htype.has.read_eq rfl
  cases hvalue with
  | none => simp [WellFormedAt, Construct.children]
  | @some l literal hliteral =>
    obtain ⟨q, hliteral⟩ := hliteral
    have hleaf : s.WellFormedBelow fits root literal :=
      wellFormedBelow_of_leaf hliteral.has rfl trivial
    have hl : s.read .literal literal = .ok l.sized := hliteral.has.read_eq rfl
    cases type with
    | named own => simp [WellFormedAt, Construct.children, hleaf, hread, TypeName.ref]
    | prim prim =>
      simp [WellFormedAt, Construct.children, hleaf, hl, hread, TypeName.ref, and_comm]

/-- The tree of a function is well formed if the function is. -/
theorem wellFormedBelow_function_iff {attributes : List Ident}
    (h : s.DeclIn root n (.function attributes proto body) id) : s.WellFormedBelow fits root id ↔
      (Decl.function attributes proto body).WellFormed fits m.item? := by
  obtain ⟨attrs, prototype, b, nodes, h, hattributes, -, hproto, hbody⟩ := h
  have hlength : nodes.length = proto.params.length := by
    obtain ⟨_, _, _, -, -, hparams, -⟩ := hproto
    exact hparams.length_eq.symm
  have hattrs : ∀ child ∈ attrs, s.WellFormedBelow fits root child :=
    wellFormedBelow_attributes hattributes
  have hprototype : s.WellFormedBelow fits root prototype ↔ _ :=
    wellFormedBelow_proto_iff hm hproto
  have hstmts : s.WellFormedBelow fits root b ↔ _ := wellFormedBelow_stmt_iff hm hbody
  have hreturns : s.WellFormedAt fits root id (.function ⟨attrs, prototype, b⟩) ↔ _ :=
    or_congr (returnsVoid_iff hproto) (endsInReturn_iff hbody)
  rw [List.map_fst_zip (by simp [hlength]), Stmt.WellFormed] at hstmts
  rw [wellFormedBelow_iff h.has, Decl.WellFormed, ← hprototype, ← hstmts, ← hreturns,
    Construct.children, List.forall_mem_append, and_iff_right hattrs, List.forall_mem_cons,
    List.forall_mem_singleton, and_left_comm]

/-- The tree of a declaration is well formed if the declaration is. -/
theorem wellFormedBelow_decl_iff {d : Decl} (h : s.DeclIn root n d id) :
    s.WellFormedBelow fits root id ↔ d.WellFormed fits m.item? := by
  cases d with
  | struct name fields =>
    obtain ⟨nodes, h, hfields⟩ := h
    rw [wellFormedBelow_iff h.has, Decl.WellFormed, Construct.children,
      nodes_zip hfields.length_eq.symm]
    exact (and_iff_right trivial).trans (wellFormedBelow_params_iff hm hfields)
  | global type name value => exact wellFormedBelow_global_iff hm h
  | external attributes proto =>
    obtain ⟨attrs, prototype, nodes, h, hattributes, hproto⟩ := h
    have hattrs : ∀ child ∈ attrs, s.WellFormedBelow fits root child :=
      wellFormedBelow_attributes hattributes
    have hprototype : s.WellFormedBelow fits root prototype ↔ _ :=
      wellFormedBelow_proto_iff hm hproto
    rw [wellFormedBelow_iff h.has, Decl.WellFormed, ← hprototype, Construct.children,
      List.forall_mem_append, and_iff_right hattrs, List.forall_mem_singleton]
    exact and_iff_right trivial
  | function attributes proto body => exact wellFormedBelow_function_iff hm h

/-! ## Modules -/

/-- The tree of a module is well formed if its declarations are, each with what all of them
together mean by their names. -/
theorem wellFormedBelow_module_iff (hnamed : m.WellNamed) :
    s.WellFormedBelow fits root root ↔ ∀ d ∈ m.decls, d.WellFormed fits m.item? := by
  have hdecls : ∀ {ds nodes}, List.Forall₂ (s.DeclIn root s.size) ds nodes →
      ((∀ id ∈ nodes, s.WellFormedBelow fits root id) ↔ ∀ d ∈ ds, d.WellFormed fits m.item?) := by
    intro ds nodes h
    induction h with
    | nil => simp
    | cons hhead _ ih =>
      rw [List.forall_mem_cons, List.forall_mem_cons, wellFormedBelow_decl_iff hm hhead, ih]
  rw [wellFormedBelow_iff hm.root, Construct.children, hdecls (hm.standing hnamed (by omega))]
  exact and_iff_right trivial

end Lowering

end FrontEnd
