import FrontEnd.Proofs.Phrase.Basic
import FrontEnd.Tree.Block

/-!
# Where a store holds a phrase

`Store.ExprAt s lo hi p e id` says that node `id` of `s` is the root of the expression
`e`: it has parent `p`, and the whole tree under it has numbers from `lo` up to, and not
including, `hi`.  The other phrases have such a relation each.  Sibling trees lie in
ranges one after the other, so no node belongs to two of them.

A placed phrase stays in place under every change outside of its range
(`ExprAt.congr`), and it stays a tree when its root gets another parent
(`ExprAt.graft`).  Every relation has these two laws; `Framed` names them, and the laws
of lists of phrases (`Laid`) follow from those of their elements.

## Main definitions

* `Store.TypeAt`, `Store.ExprAt`, `Store.StmtAt`, `Store.DeclAt`, `Store.ModuleAt`.
-/

namespace FrontEnd.Store

open Phrase

variable {α : Type} {s s' s'' t : Store} {p q : Option NodeId} {id : NodeId} {lo mid hi : Nat}

/-! ## Nodes and ranges of nodes -/

/-- A node has a construct, a parent and some span. -/
def Has (s : Store) (p : Option NodeId) (id : NodeId) (c : Construct) : Prop :=
  ∃ span, s.get? id = some ⟨c, p, some span⟩

/-- Two stores have the same nodes from `lo` up to `hi`. -/
def Agree (s s' : Store) (lo hi : Nat) : Prop :=
  ∀ id : NodeId, lo ≤ id.index → id.index < hi → s'.get? id = s.get? id

/-- Two stores have the same nodes from `lo` up to `hi`, except that `id` has parent `q`
in the second. -/
structure Grafted (s s' : Store) (q : Option NodeId) (lo hi : Nat) (id : NodeId) : Prop where
  others : ∀ other : NodeId, lo ≤ other.index → other.index < hi → other ≠ id →
    s'.get? other = s.get? other
  root : s'.get? id = (s.get? id).map fun n => { n with parent := q }

theorem Has.unique {c c' : Construct} (h : s.Has p id c) (h' : s.Has q id c') : c' = c := by
  obtain ⟨span, hget⟩ := h
  obtain ⟨span', hget'⟩ := h'
  simp_all

theorem Has.graft {c : Construct} (h : s.Has p id c) (hs : Grafted s s' q lo hi id) :
    s'.Has q id c := by
  obtain ⟨span, hspan⟩ := h
  exact ⟨span, by rw [hs.root, hspan]; rfl⟩

theorem Agree.mono (h : Agree s s' lo hi) {lo' hi' : Nat} (hlo : lo ≤ lo') (hhi : hi' ≤ hi) :
    Agree s s' lo' hi' :=
  fun id hl hh => h id (by omega) (by omega)

/-- The ranges beside a grafted root are the same in both stores. -/
theorem Grafted.agree (h : Grafted s s' q lo hi id) {lo' hi' : Nat} (hlo : lo ≤ lo')
    (hhi : hi' ≤ hi) (hout : id.index < lo' ∨ hi' ≤ id.index) : Agree s s' lo' hi' := by
  intro other hl hh
  refine h.others other (by omega) (by omega) ?_
  rintro rfl
  omega

/-- A range that is the same in both stores may be taken for one with a grafted root. -/
theorem Agree.grafted (h : Agree s s' lo hi) {c : Construct} (hroot : s.Has p id c)
    (hin : lo ≤ id.index ∧ id.index < hi) : Grafted s s' p lo hi id := by
  obtain ⟨span, hget⟩ := hroot
  refine ⟨fun other hlo hhi _ => h other hlo hhi, ?_⟩
  rw [h id hin.1 hin.2, hget]
  rfl

/-! ## Families of phrases -/

/-- A relation that places phrases of one kind in a store. -/
abbrev Placing (α : Type) := Store → Nat → Nat → Option NodeId → α → NodeId → Prop

/-- Phrases placed one after the other, each with the same parent. -/
inductive Laid {α : Type} (At : Nat → Nat → Option NodeId → α → NodeId → Prop) :
    Nat → Nat → Option NodeId → List α → List NodeId → Prop
  | nil {p : Option NodeId} {lo hi : Nat} : lo ≤ hi → Laid At lo hi p [] []
  | cons {p : Option NodeId} {lo mid hi : Nat} {a : α} {rest : List α} {id : NodeId}
      {ids : List NodeId} : At lo mid p a id → Laid At mid hi p rest ids →
      Laid At lo hi p (a :: rest) (id :: ids)

/-- The laws of a placing relation. -/
class Framed (At : Placing α) : Prop where
  within : ∀ {s p lo hi a id}, At s lo hi p a id → lo ≤ id.index ∧ id.index < hi
  widen : ∀ {s p lo hi a id lo' hi'}, At s lo hi p a id → lo' ≤ lo → hi ≤ hi' →
    At s lo' hi' p a id
  rooted : ∀ {s p lo hi a id}, At s lo hi p a id → ∃ c, s.Has p id c
  graft : ∀ {s s' p q lo hi a id}, At s lo hi p a id → Grafted s s' q lo hi id →
    At s' lo hi q a id

/-- A placed phrase depends on the nodes of its range only. -/
theorem Framed.congr {At : Placing α} [Framed At] {a : α} (h : At s lo hi p a id)
    (hs : Agree s s' lo hi) : At s' lo hi p a id := by
  obtain ⟨c, hroot⟩ := rooted h
  exact graft h (hs.grafted hroot (within h))

namespace Laid

variable {At : Placing α} {as bs : List α} {ids : List NodeId}

theorem le (h : Laid (At s) lo hi p as ids)
    (hwithin : ∀ a ∈ as, ∀ {lo hi id}, At s lo hi p a id → lo ≤ id.index ∧ id.index < hi) :
    lo ≤ hi := by
  induction h with
  | nil hle => exact hle
  | cons hhead _ ih =>
    have hmid := hwithin _ (by simp) hhead
    have hrest := ih fun b hb => hwithin b (by simp [hb])
    omega

/-- What holds of each placed phrase for its own range carries over to the list. -/
theorem imp {At' : Placing α} (h : Laid (At s) lo hi p as ids)
    (hwithin : ∀ a ∈ as, ∀ {lo hi id}, At s lo hi p a id → lo ≤ id.index ∧ id.index < hi)
    (himp : ∀ a ∈ as, ∀ {lo' hi' id}, lo ≤ lo' → hi' ≤ hi → At s lo' hi' p a id →
      At' s' lo' hi' p a id) :
    Laid (At' s') lo hi p as ids := by
  induction h with
  | nil hle => exact .nil hle
  | cons hhead hrest ih =>
    have hmid := hwithin _ (by simp) hhead
    have hle := hrest.le fun b hb => hwithin b (by simp [hb])
    refine .cons (himp _ (by simp) (by omega) (by omega) hhead) ?_
    exact ih (fun b hb => hwithin b (by simp [hb]))
      fun b hb _ _ _ hlo hhi => himp b (by simp [hb]) (by omega) hhi

theorem length_eq (h : Laid (At s) lo hi p as ids) : ids.length = as.length := by
  induction h with
  | nil _ => rfl
  | cons _ _ ih => simp [ih]

/-- The range of a list may end later. -/
theorem extend (h : Laid (At s) lo hi p as ids) {hi' : Nat} (hhi : hi ≤ hi') :
    Laid (At s) lo hi' p as ids := by
  induction h with
  | nil hle => exact .nil (by omega)
  | cons hhead _ ih => exact .cons hhead (ih hhi)

variable [Framed At]

theorem le_of_framed (h : Laid (At s) lo hi p as ids) : lo ≤ hi := h.le fun _ _ => Framed.within

theorem congr (h : Laid (At s) lo hi p as ids) (hs : Agree s s' lo hi) :
    Laid (At s') lo hi p as ids :=
  h.imp (fun _ _ => Framed.within) fun _ _ _ _ _ hlo hhi hat => Framed.congr hat (hs.mono hlo hhi)

/-- Every listed root lies in the range of the list. -/
theorem within (h : Laid (At s) lo hi p as ids) {i : NodeId} (hi' : i ∈ ids) :
    lo ≤ i.index ∧ i.index < hi := by
  induction h with
  | nil _ => simp at hi'
  | cons hhead hrest ih =>
    have hmid := Framed.within hhead
    have hle := hrest.le_of_framed
    rcases List.mem_cons.mp hi' with rfl | hmem
    · omega
    · have := ih hmem; omega

/-- No root is listed twice. -/
theorem nodup (h : Laid (At s) lo hi p as ids) : ids.Nodup := by
  induction h with
  | nil _ => exact List.nodup_nil
  | cons hhead hrest ih =>
    refine List.nodup_cons.mpr ⟨fun hmem => ?_, ih⟩
    have hmid := Framed.within hhead
    have := hrest.within hmem
    omega

theorem widen (h : Laid (At s) lo hi p as ids) {lo' hi' : Nat} (hlo : lo' ≤ lo)
    (hhi : hi ≤ hi') : Laid (At s) lo' hi' p as ids := by
  cases h with
  | nil hle => exact .nil (by omega)
  | cons hhead hrest => exact .cons (Framed.widen hhead hlo (Nat.le_refl _)) (hrest.extend hhi)

/-- A list of one phrase places that phrase. -/
theorem single {a : α} (h : Laid (At s) lo hi p [a] [id]) : At s lo hi p a id := by
  cases h with
  | cons hhead hrest => exact Framed.widen hhead (Nat.le_refl _) (hrest.le_of_framed)

/-- A phrase that may be left out is placed or left out. -/
theorem option_cases {o : Option α} {v : Option NodeId}
    (h : Laid (At s) lo hi p o.toList v.toList) :
    (o = none ∧ v = none) ∨ ∃ a id, o = some a ∧ v = some id ∧ At s lo hi p a id := by
  cases o with
  | none =>
    cases v with
    | none => exact .inl ⟨rfl, rfl⟩
    | some id => cases h
  | some a =>
    cases v with
    | none => cases h
    | some id => exact .inr ⟨a, id, rfl, rfl, h.single⟩

theorem append (h : Laid (At s) lo mid p as ids) {ids' : List NodeId}
    (h' : Laid (At s) mid hi p bs ids') : Laid (At s) lo hi p (as ++ bs) (ids ++ ids') := by
  induction h with
  | nil hle => exact h'.widen hle (Nat.le_refl _)
  | cons hhead _ ih => exact .cons hhead (ih h')

end Laid

/-! ## The placing relations -/

/-- A node without children that holds a phrase. -/
def LeafAt (construct : α → Construct) : Placing α := fun s lo hi p a id =>
  lo ≤ id.index ∧ id.index < hi ∧ s.Has p id (construct a)

/-- A written type at a node. -/
abbrev TypeAt : Placing TypeName := LeafAt fun type => .typeRef type.ref

/-- The type of a parameter or a field at a node. -/
abbrev ParamAt : Placing Param := LeafAt fun param => .typeRef param.type.ref

/-- A literal at a node. -/
abbrev LitAt : Placing Lit := LeafAt fun l => .literal l.sized

/-- An attribute at a node. -/
abbrev AttrAt : Placing Ident := LeafAt .attr

/-- An expression at a node, which comes after its operands. -/
inductive ExprAt (s : Store) : Nat → Nat → Option NodeId → Expr → NodeId → Prop
  | literal {p lo hi l id} : lo ≤ id.index → id.index < hi → s.Has p id (.literal l.sized) →
      ExprAt s lo hi p (.literal l) id
  | reference {p lo hi name id} : lo ≤ id.index → id.index < hi → s.Has p id (.reference name) →
      ExprAt s lo hi p (.reference name) id
  | call {p lo mid hi callee arguments ids id} :
      Laid (ExprAt s) lo mid (some id) arguments ids → mid ≤ id.index → id.index < hi →
      s.Has p id (.call ⟨callee, ids⟩) → ExprAt s lo hi p (.call callee arguments) id
  | binary {p lo mid top hi op lhs rhs l r id} :
      ExprAt s lo mid (some id) lhs l → ExprAt s mid top (some id) rhs r → top ≤ id.index →
      id.index < hi → s.Has p id (.binary ⟨op, l, r⟩) → ExprAt s lo hi p (.binary op lhs rhs) id

/-- The names that statements declare, with their nodes. -/
def declaredEntries (body : List Stmt) (ids : List NodeId) : List (Ident × NodeId) :=
  (body.zip ids).filterMap fun e => e.1.declared?.map (·, e.2)

theorem map_fst_declaredEntries {body : List Stmt} {ids : List NodeId}
    (hlength : ids.length = body.length) :
    (declaredEntries body ids).map Prod.fst = declaredNames body := by
  induction body generalizing ids with
  | nil => rfl
  | cons st body ih =>
    obtain ⟨i, ids, rfl⟩ := List.exists_cons_of_length_eq_add_one hlength
    have hrest := ih (by simpa using hlength : ids.length = body.length)
    simp only [declaredEntries, declaredNames] at hrest ⊢
    cases hd : st.declared? <;> simp [hd, hrest]

theorem declaredEntries_append {body : List Stmt} {ids : List NodeId}
    (hlength : ids.length = body.length) (rest : List Stmt) (more : List NodeId) :
    declaredEntries (body ++ rest) (ids ++ more) =
      declaredEntries body ids ++ declaredEntries rest more := by
  rw [declaredEntries, List.zip_append hlength.symm, List.filterMap_append]
  rfl

/-- A statement after others adds its own variable to the entries. -/
theorem declaredEntries_snoc {body : List Stmt} {ids : List NodeId}
    (hlength : ids.length = body.length) (st : Stmt) (id : NodeId) :
    declaredEntries (body ++ [st]) (ids ++ [id]) =
      declaredEntries body ids ++ (st.declared?.map (·, id)).toList := by
  rw [declaredEntries_append hlength]
  cases hd : st.declared? <;> simp [declaredEntries, hd]

/-- The entries name some of the statements. -/
theorem mem_of_mem_declaredEntries {body : List Stmt} {ids : List NodeId} {e : Ident × NodeId}
    (h : e ∈ declaredEntries body ids) : e.2 ∈ ids := by
  rw [declaredEntries, List.mem_filterMap] at h
  obtain ⟨⟨st, i⟩, hmem, hmap⟩ := h
  obtain ⟨name, -, rfl⟩ := Option.map_eq_some_iff.mp hmap
  exact (List.of_mem_zip hmem).2

/-- A statement at a node.  A block comes before its statements, any other statement
after its parts. -/
inductive StmtAt (s : Store) : Nat → Nat → Option NodeId → Stmt → NodeId → Prop
  | block {p lo hi body ids id} : lo ≤ id.index →
      Laid (StmtAt s) (id.index + 1) hi (some id) body ids →
      s.Has p id (.block ⟨ids, ⟨declaredEntries body ids⟩⟩) → StmtAt s lo hi p (.block body) id
  | varDecl {p lo mid top hi name type value t v id} :
      Laid (TypeAt s) lo mid (some id) type.toList t.toList →
      ExprAt s mid top (some id) value v → top ≤ id.index → id.index < hi →
      s.Has p id (.varDecl ⟨name, t, v⟩) → StmtAt s lo hi p (.varDecl name type value) id
  | ret {p lo mid hi value v id} : Laid (ExprAt s) lo mid (some id) value.toList v.toList →
      mid ≤ id.index → id.index < hi → s.Has p id (.ret v) → StmtAt s lo hi p (.ret value) id
  | exprStatement {p lo mid hi value v id} : ExprAt s lo mid (some id) value v →
      mid ≤ id.index → id.index < hi → s.Has p id (.exprStatement v) →
      StmtAt s lo hi p (.exprStatement value) id

/-- Parameters, and whether more arguments may follow, at the node of their list. -/
inductive ArgumentsAt (s : Store) : Nat → Nat → Option NodeId → List Param × Bool → NodeId → Prop
  | mk {p lo mid hi params variadic ids id} :
      Laid (ParamAt s) lo mid (some id) params ids → mid ≤ id.index → id.index < hi →
      s.Has p id (.arguments ⟨⟨(params.map Param.name).zip ids⟩, variadic⟩) →
      ArgumentsAt s lo hi p (params, variadic) id

/-- A prototype at a node, after its argument list and its result. -/
inductive ProtoAt (s : Store) : Nat → Nat → Option NodeId → Proto → NodeId → Prop
  | mk {p lo mid top hi proto list result id} :
      ArgumentsAt s lo mid (some id) (proto.params, proto.variadic) list →
      TypeAt s mid top (some id) proto.result result → top ≤ id.index → id.index < hi →
      s.Has p id (.prototype ⟨proto.name, list, result⟩) → ProtoAt s lo hi p proto id

/-- A declaration at a node, after its parts. -/
inductive DeclAt (s : Store) : Nat → Nat → Option NodeId → Decl → NodeId → Prop
  | struct {p lo mid hi name fields ids id} :
      Laid (ParamAt s) lo mid (some id) fields ids → mid ≤ id.index → id.index < hi →
      s.Has p id (.struct ⟨name, ⟨(fields.map Param.name).zip ids⟩⟩) →
      DeclAt s lo hi p (.struct name fields) id
  | global {p lo m₁ m₂ hi type name value t v id} : TypeAt s lo m₁ (some id) type t →
      Laid (LitAt s) m₁ m₂ (some id) value.toList v.toList → m₂ ≤ id.index → id.index < hi →
      s.Has p id (.global ⟨name, t, v⟩) → DeclAt s lo hi p (.global type name value) id
  | external {p lo m₁ m₂ hi attributes proto ids f id} :
      Laid (AttrAt s) lo m₁ (some id) attributes ids → ProtoAt s m₁ m₂ (some id) proto f →
      m₂ ≤ id.index → id.index < hi → s.Has p id (.external ⟨ids, f⟩) →
      DeclAt s lo hi p (.external attributes proto) id
  | function {p lo m₁ m₂ m₃ hi attributes proto body ids f b id} :
      Laid (AttrAt s) lo m₁ (some id) attributes ids → ProtoAt s m₁ m₂ (some id) proto f →
      StmtAt s m₂ m₃ (some id) (.block body) b → m₃ ≤ id.index → id.index < hi →
      s.Has p id (.function ⟨ids, f, b⟩) → DeclAt s lo hi p (.function attributes proto body) id

/-- A module at a node without a parent, before its declarations. -/
structure ModuleAt (s : Store) (m : Module) (id : NodeId) (ids : List NodeId) : Prop where
  root : s.Has none id (.module ⟨m.name, ids, ⟨(m.decls.map Decl.name).zip ids⟩⟩)
  decls : Laid (DeclAt s) (id.index + 1) s.size (some id) m.decls ids

/-! ## Every relation is framed -/

instance framed_leafAt (construct : α → Construct) : Framed (LeafAt construct) where
  within h := ⟨h.1, h.2.1⟩
  widen h hlo hhi := ⟨Nat.le_trans hlo h.1, Nat.lt_of_lt_of_le h.2.1 hhi, h.2.2⟩
  rooted h := ⟨_, h.2.2⟩
  graft h hs := ⟨h.1, h.2.1, h.2.2.graft hs⟩

namespace ExprAt

variable {e : Expr}

theorem within (h : ExprAt s lo hi p e id) : lo ≤ id.index ∧ id.index < hi := by
  induction e generalizing lo hi p id with
  | literal _ => cases h with | literal hlo hhi _ => exact ⟨hlo, hhi⟩
  | reference _ => cases h with | reference hlo hhi _ => exact ⟨hlo, hhi⟩
  | call _ _ ih =>
    cases h with
    | call hargs hmid hhi _ =>
      have hle := hargs.le fun a ha => ih a ha
      omega
  | binary _ _ _ ihl ihr =>
    cases h with
    | binary hl hr htop hhi _ =>
      have hleft := ihl hl
      have hright := ihr hr
      omega

theorem widen (h : ExprAt s lo hi p e id) {lo' hi' : Nat} (hlo : lo' ≤ lo) (hhi : hi ≤ hi') :
    ExprAt s lo' hi' p e id := by
  induction e generalizing lo hi lo' hi' p id with
  | literal _ => cases h with | literal h₁ h₂ hn => exact .literal (by omega) (by omega) hn
  | reference _ => cases h with | reference h₁ h₂ hn => exact .reference (by omega) (by omega) hn
  | call _ args ih =>
    cases h with
    | call hargs hmid hup hn =>
      refine .call ?_ hmid (by omega) hn
      cases hargs with
      | nil hle => exact .nil (by omega)
      | cons hhead hrest => exact .cons (ih _ (by simp) hhead hlo (Nat.le_refl _)) hrest
  | binary _ _ _ ihl _ =>
    cases h with
    | binary hl hr htop hup hn => exact .binary (ihl hl hlo (Nat.le_refl _)) hr htop (by omega) hn

theorem rooted (h : ExprAt s lo hi p e id) : ∃ c, s.Has p id c := by
  cases h <;> exact ⟨_, by assumption⟩

theorem grafted (h : ExprAt s lo hi p e id) (hs : Agree s s' lo hi) : Grafted s s' p lo hi id :=
  have ⟨_, hroot⟩ := h.rooted
  hs.grafted hroot h.within

/-- An expression stays one if its root gets another parent. -/
theorem graft (h : ExprAt s lo hi p e id) (hs : Grafted s s' q lo hi id) :
    ExprAt s' lo hi q e id := by
  induction e generalizing lo hi p q id with
  | literal _ => cases h with | literal h₁ h₂ hn => exact .literal h₁ h₂ (hn.graft hs)
  | reference _ => cases h with | reference h₁ h₂ hn => exact .reference h₁ h₂ (hn.graft hs)
  | call _ args ih =>
    cases h with
    | call hargs hmid hup hn =>
      refine .call (hargs.imp (fun _ _ => within) ?_) hmid hup (hn.graft hs)
      intro a ha lo' hi' i hlo hhi hat
      exact ih a ha hat (hat.grafted (hs.agree hlo (by omega) (by omega)))
  | binary _ _ _ ihl ihr =>
    cases h with
    | binary hl hr htop hup hn =>
      have hleft := hl.within
      have hright := hr.within
      exact .binary (ihl hl (hl.grafted (hs.agree (by omega) (by omega) (by omega))))
        (ihr hr (hr.grafted (hs.agree (by omega) (by omega) (by omega)))) htop hup (hn.graft hs)

end ExprAt

instance framed_exprAt : Framed ExprAt :=
  ⟨fun h => h.within, fun h => h.widen, fun h => h.rooted, fun h => h.graft⟩

namespace StmtAt

variable {st : Stmt}

theorem within (h : StmtAt s lo hi p st id) : lo ≤ id.index ∧ id.index < hi := by
  induction st generalizing lo hi p id with
  | block _ ih =>
    cases h with
    | block hlo hbody _ =>
      have hle := hbody.le fun b hb => ih b hb
      omega
  | varDecl _ _ _ =>
    cases h with
    | varDecl ht hv htop hhi _ =>
      have htype := ht.le_of_framed
      have hvalue := hv.within
      omega
  | ret _ =>
    cases h with
    | ret hv hmid hhi _ =>
      have hle := hv.le_of_framed
      omega
  | exprStatement _ =>
    cases h with
    | exprStatement hv hmid hhi _ =>
      have hvalue := hv.within
      omega

theorem widen (h : StmtAt s lo hi p st id) {lo' hi' : Nat} (hlo : lo' ≤ lo) (hhi : hi ≤ hi') :
    StmtAt s lo' hi' p st id := by
  cases h with
  | block h₁ hbody hn => exact .block (by omega) (hbody.extend hhi) hn
  | varDecl ht hv htop hup hn =>
    exact .varDecl (ht.widen hlo (Nat.le_refl _)) hv htop (by omega) hn
  | ret hv hmid hup hn => exact .ret (hv.widen hlo (Nat.le_refl _)) hmid (by omega) hn
  | exprStatement hv hmid hup hn =>
    exact .exprStatement (hv.widen hlo (Nat.le_refl _)) hmid (by omega) hn

theorem rooted (h : StmtAt s lo hi p st id) : ∃ c, s.Has p id c := by
  cases h <;> exact ⟨_, by assumption⟩

/-- A statement stays one if its root gets another parent. -/
theorem graft (h : StmtAt s lo hi p st id) (hs : Grafted s s' q lo hi id) :
    StmtAt s' lo hi q st id := by
  induction st generalizing lo hi p q id with
  | block _ ih =>
    cases h with
    | block hlo hbody hn =>
      refine .block hlo (hbody.imp (fun _ _ => within) ?_) (hn.graft hs)
      intro b hb lo' hi' i hlo' hhi' hat
      obtain ⟨c, hroot⟩ := hat.rooted
      exact ih b hb hat ((hs.agree (by omega) hhi' (by omega)).grafted hroot hat.within)
  | varDecl _ _ _ =>
    cases h with
    | varDecl ht hv htop hup hn =>
      have htype := ht.le_of_framed
      have hvalue := hv.within
      exact .varDecl (ht.congr (hs.agree (Nat.le_refl _) (by omega) (by omega)))
        (Framed.congr hv (hs.agree (by omega) (by omega) (by omega))) htop hup (hn.graft hs)
  | ret _ =>
    cases h with
    | ret hv hmid hup hn =>
      exact .ret (hv.congr (hs.agree (Nat.le_refl _) (by omega) (by omega))) hmid hup (hn.graft hs)
  | exprStatement _ =>
    cases h with
    | exprStatement hv hmid hup hn =>
      exact .exprStatement (Framed.congr hv (hs.agree (Nat.le_refl _) (by omega) (by omega))) hmid
        hup (hn.graft hs)

end StmtAt

instance framed_stmtAt : Framed StmtAt :=
  ⟨fun h => h.within, fun h => h.widen, fun h => h.rooted, fun h => h.graft⟩

instance framed_argumentsAt : Framed ArgumentsAt where
  within h := by
    cases h with
    | mk hparams hmid hhi _ =>
      have hle := hparams.le_of_framed
      omega
  widen h hlo hhi := by
    cases h with
    | mk hparams hmid hup hn =>
      exact .mk (hparams.widen hlo (Nat.le_refl _)) hmid (by omega) hn
  rooted h := by cases h with | mk _ _ _ hn => exact ⟨_, hn⟩
  graft h hs := by
    cases h with
    | mk hparams hmid hup hn =>
      exact .mk (hparams.congr (hs.agree (Nat.le_refl _) (by omega) (by omega))) hmid hup
        (hn.graft hs)

instance framed_protoAt : Framed ProtoAt where
  within h := by
    cases h with
    | mk hlist hresult htop hhi _ =>
      have hargs := Framed.within hlist
      have htype := Framed.within hresult
      omega
  widen h hlo hhi := by
    cases h with
    | mk hlist hresult htop hup hn =>
      exact .mk (Framed.widen hlist hlo (Nat.le_refl _)) hresult htop (by omega) hn
  rooted h := by cases h with | mk _ _ _ _ hn => exact ⟨_, hn⟩
  graft h hs := by
    cases h with
    | mk hlist hresult htop hup hn =>
      have hargs := Framed.within hlist
      have htype := Framed.within hresult
      exact .mk (Framed.congr hlist (hs.agree (Nat.le_refl _) (by omega) (by omega)))
        (Framed.congr hresult (hs.agree (by omega) (by omega) (by omega))) htop hup (hn.graft hs)

namespace DeclAt

variable {d : Decl}

theorem within (h : DeclAt s lo hi p d id) : lo ≤ id.index ∧ id.index < hi := by
  cases h with
  | struct hfields hmid hhi _ =>
    have hle := hfields.le_of_framed
    omega
  | global ht hv hmid hhi _ =>
    have htype := Framed.within ht
    have hle := hv.le_of_framed
    omega
  | external hattrs hproto hmid hhi _ =>
    have hle := hattrs.le_of_framed
    have hin := Framed.within hproto
    omega
  | function hattrs hproto hbody hmid hhi _ =>
    have hle := hattrs.le_of_framed
    have hin := Framed.within hproto
    have hblock := hbody.within
    omega

theorem widen (h : DeclAt s lo hi p d id) {lo' hi' : Nat} (hlo : lo' ≤ lo) (hhi : hi ≤ hi') :
    DeclAt s lo' hi' p d id := by
  have hle := Nat.le_refl
  cases h with
  | struct hfields hmid hup hn => exact .struct (hfields.widen hlo (hle _)) hmid (by omega) hn
  | global ht hv hmid hup hn => exact .global (Framed.widen ht hlo (hle _)) hv hmid (by omega) hn
  | external hattrs hproto hmid hup hn =>
    exact .external (hattrs.widen hlo (hle _)) hproto hmid (by omega) hn
  | function hattrs hproto hbody hmid hup hn =>
    exact .function (hattrs.widen hlo (hle _)) hproto hbody hmid (by omega) hn

/-- A declaration stays one if its root gets another parent. -/
theorem graft (h : DeclAt s lo hi p d id) (hs : Grafted s s' q lo hi id) :
    DeclAt s' lo hi q d id := by
  have hin := h.within
  have hparts : ∀ {lo' hi' : Nat}, lo ≤ lo' → hi' ≤ id.index → Agree s s' lo' hi' :=
    fun hlo hhi => hs.agree hlo (by omega) (by omega)
  cases h with
  | struct hfields hmid hhi hn =>
    exact .struct (hfields.congr (hparts (Nat.le_refl _) hmid)) hmid hhi (hn.graft hs)
  | global ht hv hmid hhi hn =>
    have htype := Framed.within ht
    have hle := hv.le_of_framed
    exact .global (Framed.congr ht (hparts (Nat.le_refl _) (by omega)))
      (hv.congr (hparts (by omega) hmid)) hmid hhi (hn.graft hs)
  | external hattrs hproto hmid hhi hn =>
    have hle := hattrs.le_of_framed
    have hin := Framed.within hproto
    exact .external (hattrs.congr (hparts (Nat.le_refl _) (by omega)))
      (Framed.congr hproto (hparts hle hmid)) hmid hhi (hn.graft hs)
  | function hattrs hproto hbody hmid hhi hn =>
    have hle := hattrs.le_of_framed
    have hin := Framed.within hproto
    have hblock := hbody.within
    exact .function (hattrs.congr (hparts (Nat.le_refl _) (by omega)))
      (Framed.congr hproto (hparts hle (by omega))) (Framed.congr hbody (hparts (by omega) hmid))
      hmid hhi (hn.graft hs)

end DeclAt

instance framed_declAt : Framed DeclAt :=
  ⟨fun h => h.within, fun h => h.widen, fun h => by cases h <;> exact ⟨_, by assumption⟩,
    fun h => h.graft⟩

end FrontEnd.Store
