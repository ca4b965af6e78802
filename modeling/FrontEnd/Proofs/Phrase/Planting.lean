import FrontEnd.Proofs.Phrase.Placement

/-!
# Adding phrases to a store

A phrase is planted when a store has grown by its nodes: the old nodes are as they
were, and the new ones hold the phrase as a tree whose root has no parent yet.  There
is one lemma for each construct.  It takes the parts that were planted one after the
other and plants the whole, in the order in which a parser adds the nodes.

Blocks and modules are nodes before their contents are.  `OpenBlock` and `OpenModule`
say what they hold while they are being filled.

## Main definitions

* `Store.Grown`, `Store.Planted`, `Store.PlantedList`.
* `Store.OpenBlock`, `Store.OpenModule`.
-/

namespace FrontEnd.Store

open Phrase

variable {α : Type} {s s' s'' s₁ s₂ s₃ : Store} {p q : Option NodeId} {id : NodeId}
  {lo mid hi : Nat} {c : Construct} {span : Option Span} {ids : List NodeId}

/-! ## Single nodes -/

theorem index_lt_of_get? {n : Node} (h : s.get? id = some n) : id.index < s.size := by
  by_contra hge
  rw [get?_eq_none_iff.mpr (by omega)] at h
  exact absurd h (by simp)

/-- A store is known by its nodes. -/
theorem ext_get? (h : ∀ id, s.get? id = s'.get? id) : s = s' := by
  cases s
  cases s'
  exact congrArg Store.mk (Array.ext_getElem? fun i => h ⟨i⟩)

theorem get?_setParent (s : Store) (id parent other : NodeId) :
    (s.setParent id parent).get? other =
      if id = other then (s.get? other).map fun n => { n with parent := some parent }
      else s.get? other := get?_modify ..

theorem get?_put (s : Store) (id other : NodeId) (c : Construct) :
    (s.put id c).get? other =
      if id = other then (s.get? other).map fun n => { n with construct := c }
      else s.get? other := get?_modify ..

theorem get?_setSpan (s : Store) (id other : NodeId) (span : Span) :
    (s.setSpan id span).get? other =
      if id = other then (s.get? other).map fun n => { n with span := some span }
      else s.get? other := get?_modify ..

@[simp] theorem size_put (s : Store) (id : NodeId) (c : Construct) :
    (s.put id c).size = s.size := size_modify ..

@[simp] theorem size_setSpan (s : Store) (id : NodeId) (span : Span) :
    (s.setSpan id span).size = s.size := size_modify ..

/-- Linking sets the parent of the listed nodes, and changes no other. -/
theorem get?_link (s : Store) (parent : NodeId) (children : List NodeId) (id : NodeId) :
    (s.link parent children).get? id =
      if id ∈ children then (s.get? id).map fun n => { n with parent := some parent }
      else s.get? id := by
  induction children generalizing s with
  | nil => simp [link]
  | cons c cs ih =>
    have hstep : s.link parent (c :: cs) = (s.setParent c parent).link parent cs := rfl
    rw [hstep, ih, get?_setParent]
    by_cases hc : c = id
    · subst hc
      cases s.get? c <;> simp
    · simp [hc, Ne.symm hc]

/-- A built node is new and has no parent, if none of its children is new. -/
theorem get?_build_fresh (hold : ∀ child ∈ c.children, child.index < s.size) :
    (s.build c span).2.get? s.fresh = some ⟨c, none, span⟩ := by
  have hnew : s.fresh ∉ c.children := fun h => Nat.lt_irrefl _ (hold _ h)
  rw [build, get?_link, if_neg hnew, get?_push, if_pos rfl]

/-! ## Growth -/

/-- A store has further nodes, and its own are unchanged. -/
structure Grown (s s' : Store) : Prop where
  size_le : s.size ≤ s'.size
  agree : Agree s s' 0 s.size

namespace Grown

theorem refl (s : Store) : Grown s s := ⟨Nat.le_refl _, fun _ _ _ => rfl⟩

theorem trans (h : Grown s s') (h' : Grown s' s'') : Grown s s'' where
  size_le := Nat.le_trans h.size_le h'.size_le
  agree id hlo hhi :=
    (h'.agree id hlo (Nat.lt_of_lt_of_le hhi h.size_le)).trans (h.agree id hlo hhi)

theorem get?_eq (h : Grown s s') {n : Node} (hn : s.get? id = some n) : s'.get? id = some n :=
  (h.agree id (Nat.zero_le _) (index_lt_of_get? hn)).trans hn

/-- Changing the parent of nodes that are not old keeps what has grown. -/
theorem build (h : Grown s s') (hnew : ∀ child ∈ c.children, s.size ≤ child.index) :
    Grown s (s'.build c span).2 where
  size_le := by have := h.size_le; simp only [size_build]; omega
  agree id _ hid := by
    have hout : id ∉ c.children := fun hmem => by have := hnew id hmem; omega
    have hne : id ≠ s'.fresh := by
      rintro rfl
      exact absurd h.size_le (Nat.not_le_of_lt hid)
    rw [Store.build, get?_link, if_neg hout, get?_push, if_neg hne]
    exact h.agree id (Nat.zero_le _) hid

theorem setParent (h : Grown s s') {child parent : NodeId} (hnew : s.size ≤ child.index) :
    Grown s (s'.setParent child parent) where
  size_le := by simpa using h.size_le
  agree id _ hid := by
    rw [get?_setParent, if_neg (by rintro rfl; omega)]
    exact h.agree id (Nat.zero_le _) hid

theorem put (h : Grown s s') (hnew : s.size ≤ id.index) : Grown s (s'.put id c) where
  size_le := by simpa using h.size_le
  agree other _ hother := by
    rw [get?_put, if_neg (by rintro rfl; omega)]
    exact h.agree other (Nat.zero_le _) hother

theorem setSpan (h : Grown s s') {span : Span} (hnew : s.size ≤ id.index) :
    Grown s (s'.setSpan id span) where
  size_le := by simpa using h.size_le
  agree other _ hother := by
    rw [get?_setSpan, if_neg (by rintro rfl; omega)]
    exact h.agree other (Nat.zero_le _) hother

end Grown

/-- The listed nodes of a store have parent `q` in another, and its other nodes are the
same. -/
structure Adopted (s s' : Store) (q : NodeId) (children : List NodeId) : Prop where
  get?_eq : ∀ id : NodeId, id.index < s.size → s'.get? id =
    if id ∈ children then (s.get? id).map fun n => { n with parent := some q } else s.get? id

theorem adopted_build (s : Store) (c : Construct) (span : Option Span) :
    Adopted s (s.build c span).2 s.fresh c.children := by
  refine ⟨fun id hid => ?_⟩
  have hne : id ≠ s.fresh := by
    rintro rfl
    exact Nat.lt_irrefl _ hid
  rw [build, get?_link, get?_push, if_neg hne]

/-- The root of a phrase is adopted alone, so the phrase stays in place. -/
theorem Framed.adopt {At : Placing α} [Framed At] {a : α} {q : NodeId}
    {children : List NodeId} (h : At s lo hi none a id) (hsize : hi ≤ s.size)
    (hs : Adopted s s' q children) (hmem : id ∈ children)
    (halone : ∀ child ∈ children, lo ≤ child.index → child.index < hi → child = id) :
    At s' lo hi (some q) a id := by
  have hin := within h
  refine graft h ⟨fun other hlo hhi hne => ?_, ?_⟩
  · rw [hs.get?_eq other (by omega), if_neg fun hc => hne (halone other hc hlo hhi)]
  · rw [hs.get?_eq id (by omega), if_pos hmem]

/-- The roots of a list of phrases are adopted together. -/
theorem Laid.adopt {At : Placing α} [Framed At] {as : List α} {q : NodeId}
    {children : List NodeId} (h : Laid (At s) lo hi none as ids) (hsize : hi ≤ s.size)
    (hs : Adopted s s' q children) (hmem : ∀ i ∈ ids, i ∈ children)
    (halone : ∀ child ∈ children, lo ≤ child.index → child.index < hi → child ∈ ids) :
    Laid (At s') lo hi (some q) as ids := by
  generalize hp : (none : Option NodeId) = p at h
  induction h with
  | nil hle => exact .nil hle
  | cons hhead hrest ih =>
    subst hp
    have hin := Framed.within hhead
    have hle := hrest.le_of_framed
    refine .cons (Framed.adopt hhead (by omega) hs (hmem _ (by simp)) ?_) (ih hsize ?_ ?_ rfl)
    · intro child hc hlo hhi
      rcases List.mem_cons.mp (halone child hc hlo (by omega)) with heq | hlater
      · exact heq
      · have := hrest.within hlater
        omega
    · exact fun i hi => hmem i (by simp [hi])
    · intro child hc hlo hhi
      rcases List.mem_cons.mp (halone child hc (by omega) hhi) with rfl | hlater
      · omega
      · exact hlater

/-! ## Planted phrases -/

/-- A store has grown by a phrase whose root has no parent. -/
structure Planted (At : Placing α) (s s' : Store) (a : α) (id : NodeId) : Prop where
  grown : Grown s s'
  placed : At s' s.size s'.size none a id

/-- A store has grown by some phrases, one after the other. -/
structure PlantedList (At : Placing α) (s s' : Store) (as : List α) (ids : List NodeId) :
    Prop where
  grown : Grown s s'
  placed : Laid (At s') s.size s'.size none as ids

namespace PlantedList

variable {At : Placing α} {as : List α} {ids : List NodeId}

theorem nil (s : Store) : PlantedList At s s [] [] := ⟨.refl s, .nil (Nat.le_refl _)⟩

/-- There may be no phrase. -/
theorem nothing : PlantedList ExprAt s s [] [] := nil s

theorem snoc [Framed At] (h : PlantedList At s s₁ as ids) {a : α}
    (ha : Planted At s₁ s₂ a id) : PlantedList At s s₂ (as ++ [a]) (ids ++ [id]) where
  grown := h.grown.trans ha.grown
  placed := by
    have hold : Laid (At s₂) s.size s₁.size none as ids :=
      h.placed.congr (ha.grown.agree.mono (Nat.zero_le _) (Nat.le_refl _))
    exact hold.append (.cons ha.placed (.nil (Nat.le_refl _)))

/-- One phrase is a list of phrases. -/
theorem single {a : α} (h : Planted At s s₁ a id) : PlantedList At s s₁ [a] [id] :=
  ⟨h.grown, .cons h.placed (.nil (Nat.le_refl _))⟩

end PlantedList

/-- The root of a node without children. -/
theorem planted_leaf (construct : α → Construct) (a : α) (s : Store) (span : Span)
    (hleaf : (construct a).children = []) :
    Planted (LeafAt construct) s (s.build (construct a) (some span)).2 a s.fresh where
  grown := (Grown.refl s).build (by simp [hleaf])
  placed := by
    refine ⟨Nat.le_refl _, ?_, span, get?_build_fresh (by simp [hleaf])⟩
    rw [size_build]
    exact Nat.lt_succ_self _

/-- A built node is planted with its children, which are three lists of planted phrases, in order.
Any of the lists may be empty. -/
theorem Planted.of_parts {β γ δ : Type} {P : Placing δ} {d : δ} {A : Placing α} {B : Placing β}
    {C : Placing γ} [Framed A] [Framed B] [Framed C] {as : List α} {bs : List β} {cs : List γ}
    {is js ks : List NodeId} (ha : PlantedList A s s₁ as is) (hb : PlantedList B s₁ s₂ bs js)
    (hc : PlantedList C s₂ s₃ cs ks) {span : Span} (hchildren : c.children = is ++ js ++ ks)
    (hplace : ∀ {t : Store}, t.Has none s₃.fresh c → s₃.fresh.index < t.size →
      Laid (A t) s.size s₁.size (some s₃.fresh) as is →
      Laid (B t) s₁.size s₂.size (some s₃.fresh) bs js →
      Laid (C t) s₂.size s₃.size (some s₃.fresh) cs ks → P t s.size t.size none d s₃.fresh) :
    Planted P s (s₃.build c (some span)).2 d s₃.fresh := by
  have hsa := ha.grown.size_le
  have hsb := hb.grown.size_le
  have hsc := hc.grown.size_le
  have hia := fun i hi => ha.placed.within (i := i) hi
  have hib := fun i hi => hb.placed.within (i := i) hi
  have hic := fun i hi => hc.placed.within (i := i) hi
  have hmem : ∀ {i : NodeId}, i ∈ c.children ↔ i ∈ is ∨ i ∈ js ∨ i ∈ ks := by
    intro i
    rw [hchildren, List.mem_append, List.mem_append, or_assoc]
  have hrange : ∀ i ∈ c.children, s.size ≤ i.index ∧ i.index < s₃.size := by
    intro i hi
    rcases hmem.mp hi with h | h | h
    · have := hia i h; omega
    · have := hib i h; omega
    · have := hic i h; omega
  have hA : Laid (A s₃) s.size s₁.size none as is := ha.placed.congr
    ((hb.grown.trans hc.grown).agree.mono (Nat.zero_le _) (Nat.le_refl _))
  have hB : Laid (B s₃) s₁.size s₂.size none bs js := hb.placed.congr
    (hc.grown.agree.mono (Nat.zero_le _) (Nat.le_refl _))
  have hadopt := adopted_build s₃ c (some span)
  refine ⟨((ha.grown.trans hb.grown).trans hc.grown).build fun i hi => (hrange i hi).1,
    hplace ⟨span, get?_build_fresh fun i hi => (hrange i hi).2⟩ ?_
      (hA.adopt (by omega) hadopt (fun i hi => hmem.mpr (.inl hi)) ?_)
      (hB.adopt (by omega) hadopt (fun i hi => hmem.mpr (.inr (.inl hi))) ?_)
      (hc.placed.adopt (by omega) hadopt (fun i hi => hmem.mpr (.inr (.inr hi))) ?_)⟩
  · rw [size_build]
    exact Nat.lt_succ_self _
  all_goals
    intro i hi hlo hhi
    rcases hmem.mp hi with h | h | h
    · first | exact h | have := hia i h; omega
    · first | exact h | have := hib i h; omega
    · first | exact h | have := hic i h; omega

/-! ## Expressions -/

theorem planted_reference (s : Store) (name : Ident) (span : Span) :
    Planted ExprAt s (s.build (.reference name) (some span)).2 (.reference name) s.fresh :=
  have h := planted_leaf Construct.reference name s span rfl
  ⟨h.grown, .reference h.placed.1 h.placed.2.1 h.placed.2.2⟩

theorem planted_call {arguments : List Expr} (h : PlantedList ExprAt s s₁ arguments ids)
    (callee : Ident) (span : Span) :
    Planted ExprAt s (s₁.build (.call ⟨callee, ids⟩) (some span)).2 (.call callee arguments)
      s₁.fresh :=
  .of_parts h .nothing .nothing (by simp [Construct.children]) fun hn hlt hargs _ _ =>
    .call hargs (Nat.le_refl _) hlt hn

theorem planted_binary {lhs rhs : Expr} {l r : NodeId} (hl : Planted ExprAt s s₁ lhs l)
    (hr : Planted ExprAt s₁ s₂ rhs r) (op : Operator) (span : Span) :
    Planted ExprAt s (s₂.build (.binary ⟨op, l, r⟩) (some span)).2 (.binary op lhs rhs)
      s₂.fresh :=
  .of_parts (.single hl) (.single hr) .nothing rfl fun hn hlt hleft hright _ =>
    .binary hleft.single hright.single (Nat.le_refl _) hlt hn

/-! ## Statements -/

theorem planted_varDecl {type : Option TypeName} {t : Option NodeId} {value : Expr} {v : NodeId}
    (ht : PlantedList TypeAt s s₁ type.toList t.toList) (hv : Planted ExprAt s₁ s₂ value v)
    (name : Ident) (span : Span) :
    Planted StmtAt s (s₂.build (.varDecl ⟨name, t, v⟩) (some span)).2 (.varDecl name type value)
      s₂.fresh :=
  .of_parts ht (.single hv) .nothing (by simp [Construct.children]) fun hn hlt htype hvalue _ =>
    .varDecl htype hvalue.single (Nat.le_refl _) hlt hn

theorem planted_ret {value : Option Expr} {v : Option NodeId}
    (h : PlantedList ExprAt s s₁ value.toList v.toList) (span : Span) :
    Planted StmtAt s (s₁.build (.ret v) (some span)).2 (.ret value) s₁.fresh :=
  .of_parts h .nothing .nothing (by simp [Construct.children]) fun hn hlt hvalue _ _ =>
    .ret hvalue (Nat.le_refl _) hlt hn

theorem planted_exprStatement {value : Expr} {v : NodeId} (h : Planted ExprAt s s₁ value v)
    (span : Span) :
    Planted StmtAt s (s₁.build (.exprStatement v) (some span)).2 (.exprStatement value)
      s₁.fresh :=
  .of_parts (.single h) .nothing .nothing rfl fun hn hlt hvalue _ _ =>
    .exprStatement hvalue.single (Nat.le_refl _) hlt hn

/-! ## Declarations -/

theorem PlantedList.nodes_zip {params : List Param} (h : PlantedList ParamAt s s₁ params ids) :
    (Scope.mk ((params.map Param.name).zip ids)).nodes = ids :=
  List.map_snd_zip (by simp [h.placed.length_eq])

theorem planted_arguments {params : List Param} (h : PlantedList ParamAt s s₁ params ids)
    (variadic : Bool) (span : Span) : Planted ArgumentsAt s
      (s₁.build (.arguments ⟨⟨(params.map Param.name).zip ids⟩, variadic⟩) (some span)).2
      (params, variadic) s₁.fresh :=
  .of_parts h .nothing .nothing (by simpa [Construct.children] using h.nodes_zip)
    fun hn hlt hparams _ _ => .mk hparams (Nat.le_refl _) hlt hn

theorem planted_proto {params : List Param} {variadic : Bool} {list result : NodeId}
    {type : TypeName} (ha : Planted ArgumentsAt s s₁ (params, variadic) list)
    (hr : Planted TypeAt s₁ s₂ type result) (name : Ident) (span : Span) :
    Planted ProtoAt s (s₂.build (.prototype ⟨name, list, result⟩) (some span)).2
      ⟨name, params, variadic, type⟩ s₂.fresh :=
  .of_parts (.single ha) (.single hr) .nothing rfl fun hn hlt hlist hresult _ =>
    .mk hlist.single hresult.single (Nat.le_refl _) hlt hn

theorem planted_struct {fields : List Param} (h : PlantedList ParamAt s s₁ fields ids)
    (name : Ident) (span : Span) : Planted DeclAt s
      (s₁.build (.struct ⟨name, ⟨(fields.map Param.name).zip ids⟩⟩) (some span)).2
      (.struct name fields) s₁.fresh :=
  .of_parts h .nothing .nothing (by simpa [Construct.children] using h.nodes_zip)
    fun hn hlt hfields _ _ => .struct hfields (Nat.le_refl _) hlt hn

theorem planted_global {type : TypeName} {t : NodeId} {value : Option Lit} {v : Option NodeId}
    (ht : Planted TypeAt s s₁ type t) (hv : PlantedList LitAt s₁ s₂ value.toList v.toList)
    (name : Ident) (span : Span) :
    Planted DeclAt s (s₂.build (.global ⟨name, t, v⟩) (some span)).2 (.global type name value)
      s₂.fresh :=
  .of_parts (.single ht) hv .nothing (by simp [Construct.children]) fun hn hlt htype hvalue _ =>
    .global htype.single hvalue (Nat.le_refl _) hlt hn

theorem planted_external {attributes : List Ident} {proto : Proto} {f : NodeId}
    (ha : PlantedList AttrAt s s₁ attributes ids) (hf : Planted ProtoAt s₁ s₂ proto f)
    (span : Span) :
    Planted DeclAt s (s₂.build (.external ⟨ids, f⟩) (some span)).2 (.external attributes proto)
      s₂.fresh :=
  .of_parts ha (.single hf) .nothing (by simp [Construct.children]) fun hn hlt hattrs hproto _ =>
    .external hattrs hproto.single (Nat.le_refl _) hlt hn

theorem planted_function {attributes : List Ident} {proto : Proto} {body : List Stmt} {f b : NodeId}
    (ha : PlantedList AttrAt s s₁ attributes ids) (hf : Planted ProtoAt s₁ s₂ proto f)
    (hb : Planted StmtAt s₂ s₃ (.block body) b) (span : Span) :
    Planted DeclAt s (s₃.build (.function ⟨ids, f, b⟩) (some span)).2
      (.function attributes proto body) s₃.fresh :=
  .of_parts ha (.single hf) (.single hb) (by simp [Construct.children])
    fun hn hlt hattrs hproto hbody => .function hattrs hproto.single hbody.single (Nat.le_refl _)
      hlt hn

/-! ## Scopes -/

/-- A name is missing in a scope exactly if no entry has it. -/
theorem scope_lookup_eq_none_iff {entries : List (Ident × NodeId)} {name : Ident} :
    (Scope.mk entries).lookup name = none ↔
      ∀ n ∈ entries.map Prod.fst, n.same name = false := by
  simp only [Scope.lookup, Option.map_eq_none_iff, List.find?_eq_none, List.forall_mem_map,
    Bool.not_eq_true]

/-- The scope of parameters or fields that are planted. -/
structure OpenScope (s s' : Store) (params : List Param) (scope : Scope) : Prop where
  planted : ∃ ids, PlantedList ParamAt s s' params ids ∧
    scope = ⟨(params.map Param.name).zip ids⟩

namespace OpenScope

variable {params : List Param} {scope : Scope}

theorem empty (s : Store) : OpenScope s s [] .empty := ⟨[], .nil s, rfl⟩

/-- A scope takes a parameter in exactly if its name is new. -/
theorem lookup_eq_none_iff (h : OpenScope s s' params scope) {name : Ident} :
    scope.lookup name = none ↔ ∀ n ∈ params.map Param.name, n.same name = false := by
  obtain ⟨ids, hplanted, rfl⟩ := h.planted
  rw [scope_lookup_eq_none_iff, List.map_fst_zip (by simp [hplanted.placed.length_eq])]

theorem append (h : OpenScope s s₁ params scope) {type : TypeName}
    (ht : Planted TypeAt s₁ s₂ type id) (name : Ident) :
    OpenScope s s₂ (params ++ [⟨type, name⟩]) (scope.append name id) := by
  obtain ⟨ids, hplanted, rfl⟩ := h.planted
  have hparam : Planted ParamAt s₁ s₂ ⟨type, name⟩ id := ⟨ht.grown, ht.placed⟩
  refine ⟨ids ++ [id], hplanted.snoc hparam, ?_⟩
  rw [Scope.append, List.map_append,
    List.zip_append (by rw [List.length_map, hplanted.placed.length_eq])]
  rfl

/-- A scope that takes a parameter in still has distinct names. -/
theorem insert {scope' : Scope} {param : Param} (h : OpenScope s s₁ params scope)
    (hdistinct : DistinctNames (params.map Param.name)) (ht : Planted TypeAt s₁ s₂ param.type id)
    (hinsert : scope.insert param.name id = .ok scope') :
    OpenScope s s₂ (params ++ [param]) scope' ∧
      DistinctNames ((params ++ [param]).map Param.name) := by
  obtain ⟨hlookup, rfl⟩ := Scope.insert_eq_ok_iff.mp hinsert
  refine ⟨h.append ht param.name, ?_⟩
  rw [List.map_append]
  exact distinctNames_append_singleton.mpr ⟨hdistinct, h.lookup_eq_none_iff.mp hlookup⟩

end OpenScope

/-! ## Blocks -/

/-- The node of a statement tells which variable it declares. -/
theorem StmtAt.declared?_eq {st : Stmt} (h : StmtAt s lo hi p st id) :
    s.declared? id = st.declared? := by
  cases h with
  | block _ _ hn | varDecl _ _ _ _ hn | ret _ _ _ hn | exprStatement _ _ _ hn =>
    obtain ⟨span, hspan⟩ := hn
    simp [Store.declared?, hspan, Stmt.declared?]

/-- A node in the making: a root without a span that holds some phrases. -/
structure OpenNode (At : Placing α) (c : Construct) (s s' : Store) (as : List α)
    (ids : List NodeId) (root : NodeId) : Prop where
  grown : Grown s s'
  index_eq : root.index = s.size
  node : s'.get? root = some ⟨c, none, none⟩
  placed : Laid (At s') (root.index + 1) s'.size (some root) as ids

namespace OpenNode

variable {At : Placing α} {as : List α} {root : NodeId}

theorem empty (s : Store) (hc : c.children = []) :
    OpenNode At c s (s.build c none).2 [] [] s.fresh where
  grown := (Grown.refl s).build (by simp [hc])
  index_eq := rfl
  node := get?_build_fresh (by simp [hc])
  placed := .nil (by rw [size_build]; exact Nat.le_refl _)

variable [Framed At]

/-- A node in the making stays as it is while the store grows. -/
theorem grow (h : OpenNode At c s s₁ as ids root) (hgrown : Grown s₁ s₂) :
    OpenNode At c s s₂ as ids root where
  grown := h.grown.trans hgrown
  index_eq := h.index_eq
  node := hgrown.get?_eq h.node
  placed := (h.placed.congr (hgrown.agree.mono (Nat.zero_le _) (Nat.le_refl _))).extend
    hgrown.size_le

/-- The node takes in a planted phrase. -/
theorem put (h : OpenNode At c s s₁ as ids root) {a : α} (ha : Planted At s₁ s₂ a id)
    (c' : Construct) : OpenNode At c' s ((s₂.put root c').setParent id root) (as ++ [a])
      (ids ++ [id]) root := by
  have hopen := h.grow ha.grown
  have hindex := h.index_eq
  have hsize := h.grown.size_le
  have hin := Framed.within ha.placed
  have hroot : root.index < s₁.size := index_lt_of_get? h.node
  have hne : id ≠ root := by rintro rfl; omega
  have hget : ∀ other : NodeId, other ≠ root → other ≠ id →
      ((s₂.put root c').setParent id root).get? other = s₂.get? other := by
    intro other hb hi
    rw [get?_setParent, if_neg (Ne.symm hi), get?_put, if_neg (Ne.symm hb)]
  refine ⟨(hopen.grown.put (by omega)).setParent (by omega), hindex, ?_, ?_⟩
  · rw [get?_setParent, if_neg hne, get?_put, if_pos rfl, hopen.node]
    rfl
  · rw [size_setParent, size_put]
    refine Laid.append (h.placed.congr fun other hlo hhi => ?_)
      (.cons (Framed.graft ha.placed ⟨fun other hlo _ hother => hget other ?_ hother, ?_⟩)
        (.nil (Nat.le_refl _)))
    · rw [hget other (by rintro rfl; omega) (by rintro rfl; omega)]
      exact ha.grown.agree other (Nat.zero_le _) hhi
    · rintro rfl
      omega
    · rw [get?_setParent, if_pos rfl, get?_put, if_neg (Ne.symm hne)]

/-- The node gets its span. -/
theorem close (h : OpenNode At c s s₁ as ids root) (span : Span) :
    Has (s₁.setSpan root span) none root c ∧
      Laid (At (s₁.setSpan root span)) (root.index + 1) s₁.size (some root) as ids := by
  refine ⟨⟨span, ?_⟩, h.placed.congr fun other hlo _ => ?_⟩
  · rw [get?_setSpan, if_pos rfl, h.node]
    rfl
  · rw [get?_setSpan, if_neg (by rintro rfl; omega)]

end OpenNode

/-- A block in the making. -/
abbrev OpenBlock (s s' : Store) (body : List Stmt) (ids : List NodeId) (block : NodeId) : Prop :=
  OpenNode StmtAt (.block ⟨ids, ⟨declaredEntries body ids⟩⟩) s s' body ids block

namespace OpenBlock

variable {body : List Stmt} {ids : List NodeId} {block : NodeId}

theorem empty (s : Store) : OpenBlock s (s.build .emptyBlock none).2 [] [] s.fresh :=
  OpenNode.empty s rfl

/-- A statement repeats a variable of the block exactly if the block declares it. -/
theorem redeclared?_eq_none_iff (h : OpenBlock s s₁ body ids block) {st : Stmt}
    (hst : Planted StmtAt s₁ s₂ st id) :
    s₂.redeclared? block id = none ↔
      ∀ name ∈ st.declared?, ∀ n ∈ declaredNames body, n.same name = false := by
  have hnode := (h.grow hst.grown).node
  have hnames := map_fst_declaredEntries h.placed.length_eq
  simp only [redeclared?, hst.placed.declared?_eq, hnode]
  cases st.declared? with
  | none => simp
  | some name =>
    simp only [Option.map_eq_none_iff, scope_lookup_eq_none_iff, hnames, Option.mem_def,
      Option.some.injEq, forall_eq']

/-- Appending a planted statement. -/
theorem append (h : OpenBlock s s₁ body ids block) {st : Stmt}
    (hst : Planted StmtAt s₁ s₂ st id) :
    OpenBlock s (s₂.extend block id) (body ++ [st]) (ids ++ [id]) block := by
  have hextend : s₂.extend block id =
      (s₂.put block (.block ⟨ids ++ [id], ⟨declaredEntries (body ++ [st]) (ids ++ [id])⟩⟩)).setParent
        id block := by
    simp only [extend, (h.grow hst.grown).node, hst.placed.declared?_eq, BlockNode.snoc,
      declaredEntries_snoc h.placed.length_eq]
    cases st.declared? <;> simp [Scope.append]
  rw [hextend]
  exact h.put hst _

/-- A closed block is a planted statement. -/
theorem close (h : OpenBlock s s₁ body ids block) (span : Span) :
    Planted StmtAt s (s₁.setSpan block span) (.block body) block := by
  have hindex := h.index_eq
  obtain ⟨hnode, hlaid⟩ := OpenNode.close h span
  refine ⟨h.grown.setSpan (by omega), .block (by omega) ?_ hnode⟩
  rwa [size_setSpan]

end OpenBlock

/-! ## Modules -/

/-- A module in the making.  Other nodes may stand between its declarations. -/
abbrev OpenModule (s s' : Store) (m : Module) (ids : List NodeId) (root : NodeId) : Prop :=
  OpenNode DeclAt (.module ⟨m.name, ids, ⟨(m.decls.map Decl.name).zip ids⟩⟩) s s' m.decls ids root

namespace OpenModule

variable {m : Module} {ids : List NodeId} {root : NodeId}

theorem empty (s : Store) (name : Ident) :
    OpenModule s (s.build (.emptyModule name) none).2 ⟨name, []⟩ [] s.fresh :=
  OpenNode.empty s rfl

/-- A name is free in the module exactly if no declaration has it. -/
theorem itemNamed?_eq_none_iff (h : OpenModule s s₁ m ids root) (name : Ident) :
    s₁.itemNamed? root name = none ↔ ∀ d ∈ m.decls, d.name.same name = false := by
  have hlength := h.placed.length_eq
  simp only [itemNamed?, h.node, scope_lookup_eq_none_iff]
  rw [List.map_fst_zip (by simp [hlength]), List.forall_mem_map]

/-- Enlisting a planted declaration. -/
theorem enlist (h : OpenModule s s₁ m ids root) {d : Decl} (hd : Planted DeclAt s₁ s₂ d id) :
    OpenModule s (s₂.enlist root d.name id) ⟨m.name, m.decls ++ [d]⟩ (ids ++ [id]) root := by
  have henlist : s₂.enlist root d.name id =
      (s₂.put root (.module ⟨m.name, ids ++ [id],
        ⟨((m.decls ++ [d]).map Decl.name).zip (ids ++ [id])⟩⟩)).setParent id root := by
    simp only [Store.enlist, (h.grow hd.grown).node, Scope.append, List.map_append]
    rw [List.zip_append (by simp [h.placed.length_eq])]
    simp
  rw [henlist]
  exact h.put hd _

/-- A closed module. -/
theorem close (h : OpenModule s s₁ m ids root) (span : Span) :
    ModuleAt (s₁.setSpan root span) m root ids := by
  obtain ⟨hnode, hlaid⟩ := OpenNode.close h span
  exact ⟨hnode, by rwa [size_setSpan]⟩

end OpenModule

/-- A module is where it was in a store that has grown. -/
theorem ModuleAt.grow {m : Module} {root : NodeId} (h : ModuleAt s m root ids)
    (hgrown : Grown s s') : ModuleAt s' m root ids where
  root := by
    obtain ⟨span, hget⟩ := h.root
    exact ⟨span, hgrown.get?_eq hget⟩
  decls := (h.decls.congr
    (hgrown.agree.mono (Nat.zero_le _) (Nat.le_refl _))).extend hgrown.size_le

end FrontEnd.Store
