import FrontEnd.Proofs.Tree.Descent

/-!
# Phrases in a module

A phrase that is placed in the tree of a module stands somewhere: its nodes have locations and a
module, and names mean something there.  The relations here say so of every node of a phrase at
once, and how many levels of nodes the phrase has.  The ranges of numbers that all this follows
from have no part in them.

## Main definitions

* `Situated`: a node of a module, and what names mean there.
* `ExprIn`, `StmtIn`, `ProtoIn`, `DeclIn`: phrases that stand in a module.

## Main statements

* `ModuleAt.standing`: the declarations of a placed module stand in it.
-/

namespace FrontEnd

/-- The construct is a local of a function: a variable, or the type of an argument. -/
def Construct.isLocal : Construct → Bool
  | .varDecl _ | .typeRef _ => true
  | _ => false

/-- The kind of the node of a declaration. -/
def Phrase.Decl.kind : Phrase.Decl → Kind
  | .struct _ _ => .struct
  | .global _ _ _ => .global
  | .external _ _ => .external
  | .function _ _ _ => .function

/-! ## Lists that correspond -/

section Lists

variable {α β γ κ : Type} {R : α → β → Prop} {R' : α → γ → Prop} {S : β → γ → Prop}
  {as as' : List α} {bs bs' : List β} {cs : List γ}

theorem exists_of_forall₂_mem {b : β} (h : List.Forall₂ R as bs) (hb : b ∈ bs) :
    ∃ a ∈ as, R a b := by
  induction h with
  | nil => cases hb
  | @cons a b' as bs hhead _ ih =>
    rcases List.mem_cons.mp hb with rfl | hb
    · exact ⟨a, by simp, hhead⟩
    · obtain ⟨a', ha', hrelated⟩ := ih hb
      exact ⟨a', by simp [ha'], hrelated⟩

/-- Lists with the same keys in the same order correspond, if what they hold under a key does. -/
theorem forall₂_of_map_eq {f : α → κ} {g : β → κ} (h : as.map f = bs.map g)
    (hrelated : ∀ a ∈ as, ∀ b ∈ bs, f a = g b → R a b) : List.Forall₂ R as bs := by
  rw [← List.forall₂_eq_eq_eq, List.forall₂_map_left_iff, List.forall₂_map_right_iff] at h
  refine List.forall₂_iff_zip.mpr ⟨h.length_eq, fun hzip => ?_⟩
  have hmem := List.of_mem_zip hzip
  exact hrelated _ hmem.1 _ hmem.2 (List.forall₂_zip h hzip)

/-- Lists that correspond to one list correspond. -/
theorem forall₂_of_forall₂ (h : List.Forall₂ R as bs) (h' : List.Forall₂ R' as cs)
    (hrelated : ∀ a, ∀ b ∈ bs, ∀ c ∈ cs, R a b → R' a c → S b c) : List.Forall₂ S bs cs := by
  induction h generalizing cs with
  | nil =>
    cases h'
    exact .nil
  | @cons a b as bs hhead _ ih =>
    cases h' with
    | @cons _ c _ cs hhead' hrest' =>
      refine .cons (hrelated a b (by simp) c (by simp) hhead hhead') (ih hrest' ?_)
      exact fun a b hb c hc => hrelated a b (by simp [hb]) c (by simp [hc])

theorem eq_of_forall₂ {R' : α → β → Prop} (h : List.Forall₂ R as bs) (h' : List.Forall₂ R' as bs')
    (hrelated : ∀ a b c, R a b → R' a c → b = c) : bs = bs' :=
  List.forall₂_eq_eq_eq ▸ forall₂_of_forall₂ h h' fun a b _ c _ => hrelated a b c

/-- What corresponds to a list and to the list in another order corresponds, up to the order. -/
theorem exists_perm_of_forall₂ (hperm : as.Perm as') (h : List.Forall₂ R as bs)
    (h' : List.Forall₂ R' as' cs) (hrelated : ∀ a b c, R a b → R' a c → S b c) :
    ∃ cs', List.Forall₂ S bs cs' ∧ cs'.Perm cs := by
  obtain ⟨cs', hcs', horder⟩ := List.perm_comp_forall₂ hperm h'
  exact ⟨cs', forall₂_of_forall₂ h hcs' fun a b _ c _ => hrelated a b c, horder⟩

theorem perm_of_forall₂ {R' : α → β → Prop} (hperm : as.Perm as') (h : List.Forall₂ R as bs)
    (h' : List.Forall₂ R' as' bs') (hrelated : ∀ a b c, R a b → R' a c → b = c) :
    bs.Perm bs' := by
  obtain ⟨cs', heq, horder⟩ := exists_perm_of_forall₂ hperm h h' hrelated
  rw [List.forall₂_eq_eq_eq] at heq
  exact heq ▸ horder

end Lists

namespace Store

open Phrase

variable {α : Type} {s : Store} {root id : NodeId} {names : List (Ident × NodeId)} {lo hi n : Nat}
  {p : Option NodeId} {c : Construct} {d : Decl} {ids nodes : List NodeId} {params : List Param}

/-! ## Nodes -/

/-- Local names are those of variables and arguments. -/
def AllLocal (s : Store) (names : List (Ident × NodeId)) : Prop :=
  ∀ e ∈ names, ∃ c, s.construct e.2 = .ok c ∧ c.isLocal = true

/-- A node of a module, and what names mean there. -/
structure Situated (s : Store) (root : NodeId) (names : List (Ident × NodeId)) (p : Option NodeId)
    (id : NodeId) (c : Construct) : Prop where
  has : s.Has p id c
  below : s.Below root id
  span : ∃ span, s.nearestSpan id = .ok span
  moduleOf : s.moduleOf id = .ok (some root)
  lookup : c.isScope = false → ∀ name, s.lookup id name = .ok (s.meaning root names name)
  locals : s.AllLocal names

theorem Around.situated (h : Around s root names lo hi p id) (hnode : s.Has p id c)
    (hlocal : s.AllLocal names) (hlo : lo ≤ id.index := by omega) (hhi : id.index < hi := by omega)
    (hkind : c.kind ≠ .module := by simp [Construct.kind]) : s.Situated root names p id c where
  has := hnode
  below := h.below
  span := h.nearestSpan_eq hnode hlo hhi
  moduleOf := h.moduleOf_eq hnode hlo hhi hkind
  lookup hscope := h.lookup_eq hnode hlo hhi fun name => by
    cases c with
    | module _ | function _ | block _ => cases hscope
    | _ => rfl
  locals := hlocal

/-! ## Phrases -/

/-- A phrase at a node without children. -/
def LeafIn (construct : α → Construct) (s : Store) (root : NodeId) (names : List (Ident × NodeId))
    (a : α) (id : NodeId) : Prop :=
  ∃ p, s.Situated root names p id (construct a)

abbrev TypeIn : Store → NodeId → List (Ident × NodeId) → TypeName → NodeId → Prop :=
  LeafIn fun type => .typeRef type.ref

abbrev ParamIn : Store → NodeId → List (Ident × NodeId) → Param → NodeId → Prop :=
  LeafIn fun param => .typeRef param.type.ref

abbrev LitIn : Store → NodeId → List (Ident × NodeId) → Lit → NodeId → Prop :=
  LeafIn fun l => .literal l.sized

/-- An expression at a node, of at most `n` levels.  A use of a name comes after the nodes that the
names around it stand for. -/
def ExprIn (s : Store) (root : NodeId) (names : List (Ident × NodeId)) :
    Nat → Expr → NodeId → Prop
  | 0, _, _ => False
  | _ + 1, .literal l, id => s.LitIn root names l id
  | _ + 1, .reference name, id =>
      s.LeafIn .reference root names name id ∧ ∀ e ∈ names, e.2.index < id.index
  | n + 1, .call callee arguments, id => ∃ p ids,
      s.Situated root names p id (.call ⟨callee, ids⟩) ∧
      List.Forall₂ (s.ExprIn root names n) arguments ids
  | n + 1, .binary op lhs rhs, id => ∃ p l r,
      s.Situated root names p id (.binary ⟨op, l, r⟩) ∧ l.index < id.index ∧
      s.ExprIn root names n lhs l ∧ s.ExprIn root names n rhs r

/-- Statements one after the other, each with the names that those before it declare. -/
inductive BodyIn (Item : List (Ident × NodeId) → Stmt → NodeId → Prop) :
    List (Ident × NodeId) → List Stmt → List NodeId → Prop
  | nil {names : List (Ident × NodeId)} : BodyIn Item names [] []
  | cons {names : List (Ident × NodeId)} {stmt : Stmt} {body : List Stmt} {id : NodeId}
      {ids : List NodeId} : Item names stmt id →
      BodyIn Item ((stmt.declared?.map (·, id)).toList ++ names) body ids →
      BodyIn Item names (stmt :: body) (id :: ids)

/-- A statement at a node, of at most `n` levels.  A variable is none of the names around it. -/
def StmtIn (s : Store) (root : NodeId) :
    Nat → List (Ident × NodeId) → Stmt → NodeId → Prop
  | 0, _, _, _ => False
  | n + 1, names, .block body, id => ∃ p ids,
      s.Situated root names p id (.block ⟨ids, ⟨declaredEntries body ids⟩⟩) ∧
      BodyIn (s.StmtIn root n) names body ids
  | n + 1, names, .varDecl name type value, id => ∃ p t v,
      s.Situated root names p id (.varDecl ⟨name, t, v⟩) ∧ (∀ e ∈ names, e.2 ≠ id) ∧
      v.index < id.index ∧
      Option.Rel (s.TypeIn root names) type t ∧ s.ExprIn root names n value v
  | n + 1, names, .ret value, id => ∃ p v, s.Situated root names p id (.ret v) ∧
      Option.Rel (s.ExprIn root names n) value v
  | n + 1, names, .exprStatement value, id => ∃ p v,
      s.Situated root names p id (.exprStatement v) ∧ s.ExprIn root names n value v

/-- A prototype at a node, with the nodes of its parameters. -/
def ProtoIn (s : Store) (root : NodeId) (names : List (Ident × NodeId)) (proto : Proto)
    (nodes : List NodeId) (id : NodeId) : Prop :=
  ∃ p list result, s.Situated root names p id (.prototype ⟨proto.name, list, result⟩) ∧
    s.Has (some id) list
      (.arguments ⟨⟨(proto.params.map Param.name).zip nodes⟩, proto.variadic⟩) ∧
    List.Forall₂ (s.ParamIn root names) proto.params nodes ∧
    s.TypeIn root names proto.result result

/-- A declaration at a node, of whose body there are at most `n` levels. -/
def DeclIn (s : Store) (root : NodeId) (n : Nat) : Decl → NodeId → Prop
  | .struct name fields, id => ∃ ids,
      s.Situated root [] (some root) id (.struct ⟨name, ⟨(fields.map Param.name).zip ids⟩⟩) ∧
      List.Forall₂ (s.ParamIn root []) fields ids
  | .global type name value, id => ∃ t v,
      s.Situated root [] (some root) id (.global ⟨name, t, v⟩) ∧ s.TypeIn root [] type t ∧
      Option.Rel (s.LitIn root []) value v
  | .external attributes proto, id => ∃ ids f nodes,
      s.Situated root [] (some root) id (.external ⟨ids, f⟩) ∧
      List.Forall₂ (LeafIn .attr s root []) attributes ids ∧ s.ProtoIn root [] proto nodes f
  | .function attributes proto body, id => ∃ ids f b nodes,
      s.Situated root [] (some root) id (.function ⟨ids, f, b⟩) ∧
      let names := (proto.params.map Param.name).zip nodes
      List.Forall₂ (LeafIn .attr s root names) attributes ids ∧ nodes.Nodup ∧
      s.ProtoIn root names proto nodes f ∧ s.StmtIn root n names (.block body) b

/-- The node of a declaration is of its kind. -/
theorem DeclIn.exists_has (h : s.DeclIn root n d id) :
    ∃ c, s.Has (some root) id c ∧ c.kind = d.kind := by
  cases d with
  | struct _ _ =>
    obtain ⟨_, h, -⟩ := h
    exact ⟨_, h.has, rfl⟩
  | global _ _ _ =>
    obtain ⟨_, _, h, -⟩ := h
    exact ⟨_, h.has, rfl⟩
  | external _ _ =>
    obtain ⟨_, _, _, h, -⟩ := h
    exact ⟨_, h.has, rfl⟩
  | function _ _ _ =>
    obtain ⟨_, _, _, _, h, -⟩ := h
    exact ⟨_, h.has, rfl⟩

theorem DeclIn.kind_eq (h : s.DeclIn root n d id) (hc : s.construct id = .ok c) :
    c.kind = d.kind := by
  obtain ⟨c', hnode, hkind⟩ := h.exists_has
  rwa [Except.ok.inj (hc.symm.trans hnode.construct_eq)]

/-! ## Placed phrases -/

theorem Laid.forall₂ {At : Placing α} [Framed At] {R : α → NodeId → Prop} {as : List α}
    (h : Laid (At s) lo hi p as ids)
    (hR : ∀ {a lo' hi' id}, a ∈ as → id ∈ ids → lo ≤ lo' → hi' ≤ hi → At s lo' hi' p a id →
      R a id) : List.Forall₂ R as ids := by
  induction h with
  | nil _ => exact .nil
  | cons hhead hrest ih =>
    have hin := Framed.within hhead
    have hle := hrest.le_of_framed
    refine .cons (hR (by simp) (by simp) (Nat.le_refl _) hle hhead) (ih ?_)
    intro a lo' hi' id ha hid hlo' hhi'
    exact hR (by simp [ha]) (by simp [hid]) (by omega) hhi'

theorem Laid.rel {At : Placing α} [Framed At] {R : α → NodeId → Prop} {o : Option α}
    {v : Option NodeId} (h : Laid (At s) lo hi p o.toList v.toList)
    (hR : ∀ {a id}, v = some id → At s lo hi p a id → R a id) : Option.Rel R o v := by
  rcases h.option_cases with ⟨rfl, rfl⟩ | ⟨a, id, rfl, rfl, hat⟩
  · exact .none
  · exact .some (hR rfl hat)

theorem LeafAt.standing {construct : α → Construct} {a : α} (h : LeafAt construct s lo hi p a id)
    (haround : Around s root names lo hi p id) (hlocal : s.AllLocal names)
    (hkind : (construct a).kind ≠ .module := by simp [Construct.kind]) :
    LeafIn construct s root names a id :=
  ⟨p, haround.situated h.2.2 hlocal h.1 h.2.1 hkind⟩

theorem ExprAt.standing {e : Expr} (h : ExprAt s lo hi p e id)
    (haround : Around s root names lo hi p id) (hlocal : s.AllLocal names)
    (hbefore : ∀ e ∈ names, e.2.index < lo) (hn : hi ≤ n + lo) :
    s.ExprIn root names n e id := by
  induction n generalizing lo hi p e id with
  | zero =>
    have hin := h.within
    omega
  | succ n ih =>
    cases h with
    | literal hlo hhi hnode =>
      exact ⟨p, haround.situated hnode hlocal⟩
    | reference hlo hhi hnode =>
      exact ⟨⟨p, haround.situated hnode hlocal⟩,
        fun e he => Nat.lt_of_lt_of_le (hbefore e he) hlo⟩
    | @call _ _ mid _ _ _ ids _ hargs hmid hhi hnode =>
      have hle := hargs.le_of_framed
      refine ⟨p, ids, haround.situated hnode hlocal, hargs.forall₂ fun _ hmem hlo' hhi' hat => ?_⟩
      exact ih hat (haround.inner hnode hmem)
        (fun e he => Nat.lt_of_lt_of_le (hbefore e he) hlo') (by omega)
    | @binary _ _ mid top _ _ _ _ l r _ hl hr htop hhi hnode =>
      have hin := hl.within
      have hin' := hr.within
      refine ⟨p, l, r, haround.situated hnode hlocal, by omega,
        ih hl (haround.inner hnode) hbefore (by omega),
        ih hr (haround.inner hnode) (fun e he => ?_) (by omega)⟩
      have := hbefore e he
      omega

/-- The variable of a statement is local. -/
theorem AllLocal.declared {stmt : Stmt} (h : StmtAt s lo hi p stmt id) :
    s.AllLocal (stmt.declared?.map (·, id)).toList := by
  cases h with
  | varDecl _ _ _ _ hnode =>
    intro e he
    obtain rfl : e = _ := by simpa [Stmt.declared?] using he
    exact ⟨_, hnode.construct_eq, rfl⟩
  | block _ _ _ | ret _ _ _ _ | exprStatement _ _ _ _ => simp [AllLocal, Stmt.declared?]

/-- The statements of a block stand one after the other.  The nodes of the names that they see come
before them. -/
theorem Succession.standing {block : NodeId} {body : List Stmt}
    {Item : List (Ident × NodeId) → Stmt → NodeId → Prop}
    (h : Succession s root block hi lo names body ids) (hlocal : s.AllLocal names)
    (hbefore : ∀ e ∈ names, e.2.index < lo)
    (hitem : ∀ {stmt lo' hi' child names}, stmt ∈ body → lo ≤ lo' → hi' ≤ hi →
      StmtAt s lo' hi' (some block) stmt child → Around s root names lo' hi' (some block) child →
      s.AllLocal names → (∀ e ∈ names, e.2.index < lo') → Item names stmt child) :
    BodyIn Item names body ids := by
  induction h with
  | nil => exact .nil
  | @cons lo mid names stmt rest child after hhead haround hle _ ih =>
    have hin := Framed.within hhead
    refine .cons (hitem (by simp) (Nat.le_refl _) hle hhead haround hlocal hbefore) (ih ?_ ?_ ?_)
    · exact List.forall_mem_append.mpr ⟨AllLocal.declared hhead, hlocal⟩
    · refine List.forall_mem_append.mpr ⟨fun e he => ?_, fun e he => ?_⟩
      · obtain ⟨name, -, rfl⟩ := Option.map_eq_some_iff.mp (Option.mem_toList.mp he)
        exact hin.2
      · have := hbefore e he
        omega
    · intro stmt lo' hi' child names hmem hlo'
      exact hitem (by simp [hmem]) (by omega)

theorem StmtAt.standing {stmt : Stmt} (h : StmtAt s lo hi p stmt id) (hwell : stmt.WellNamed)
    (haround : Around s root names lo hi p id) (hlocal : s.AllLocal names)
    (hbefore : ∀ e ∈ names, e.2.index < lo) (hn : hi ≤ n + lo) :
    s.StmtIn root n names stmt id := by
  induction n generalizing lo hi p stmt id names with
  | zero =>
    have hin := Framed.within h
    omega
  | succ n ih =>
    cases h with
    | @block _ _ _ body ids _ hlo hlaid hnode =>
      have hle := hlaid.le_of_framed
      refine ⟨p, ids, haround.situated hnode hlocal, ?_⟩
      refine (haround.succession hnode hlo hlaid hwell.1).standing hlocal (fun e he => ?_) ?_
      · have := hbefore e he
        omega
      · intro stmt lo' hi' child names hmem hlo' hhi' hat haround' hlocal' hbefore'
        exact ih hat (stmtsWellNamed_iff.mp hwell.2 stmt hmem) haround' hlocal' hbefore' (by omega)
    | @varDecl _ _ mid top _ name type value t v _ htype hvalue htop hhi hnode =>
      have hle := htype.le_of_framed
      have hin := hvalue.within
      refine ⟨p, t, v, haround.situated hnode hlocal, ?_, by omega,
        htype.rel fun hsome hat => hat.standing ?_ hlocal,
        hvalue.standing (haround.inner hnode) hlocal (fun e he => ?_) (by omega)⟩
      · rintro e he rfl
        have := hbefore e he
        omega
      · exact haround.inner hnode (by simp [Construct.children, hsome])
      · exact Nat.lt_of_lt_of_le (hbefore e he) hle
    | @ret _ _ mid _ value v _ hlaid hmid hhi hnode =>
      have hle := hlaid.le_of_framed
      refine ⟨p, v, haround.situated hnode hlocal,
        hlaid.rel fun hsome hat => hat.standing ?_ hlocal hbefore (by omega)⟩
      exact haround.inner hnode (by simp [Construct.children, hsome])
    | @exprStatement _ _ mid _ value v _ hvalue hmid hhi hnode =>
      have hin := hvalue.within
      exact ⟨p, v, haround.situated hnode hlocal,
        hvalue.standing (haround.inner hnode) hlocal hbefore (by omega)⟩

/-- The nodes of parameters, as their list keeps them. -/
theorem nodes_zip (h : nodes.length = params.length) :
    Scope.nodes ⟨(params.map Param.name).zip nodes⟩ = nodes := by
  rw [Scope.nodes, List.map_snd_zip (by simp [h])]

theorem size_zip (h : nodes.length = params.length) :
    Scope.size ⟨(params.map Param.name).zip nodes⟩ = params.length := by
  rw [Scope.size, List.length_zip, List.length_map, h, Nat.min_self]

theorem ProtoAt.standing {proto : Proto} (h : ProtoAt s lo hi p proto id) (root : NodeId) :
    ∃ list result nodes, s.read .prototype id = .ok ⟨proto.name, list, result⟩ ∧
      s.read .arguments list =
        .ok ⟨⟨(proto.params.map Param.name).zip nodes⟩, proto.variadic⟩ ∧
      Laid (ParamAt s) lo hi (some list) proto.params nodes ∧
      ∀ {names}, Around s root names lo hi p id → s.AllLocal names →
        s.ProtoIn root names proto nodes id := by
  obtain @⟨_, _, mid, top, _, _, list, result, _, hlist, hresult, htop, hhi, hnode⟩ := h
  have hin := Framed.within hlist
  have hin' := Framed.within hresult
  obtain @⟨_, _, mid', _, _, _, nodes, _, hparams, hmid, hup, hlist⟩ := hlist
  have hle := hparams.le_of_framed
  refine ⟨list, result, nodes, hnode.read_eq rfl, hlist.read_eq rfl, hparams.extend (by omega), ?_⟩
  intro names haround hlocal
  have houter : Around s root names lo mid (some id) list := haround.inner hnode
  refine ⟨p, list, result, haround.situated hnode hlocal, hlist,
    hparams.forall₂ fun _ hmem hlo' hhi' hat => ?_,
    hresult.standing (haround.inner hnode) hlocal⟩
  refine hat.standing (houter.inner hlist ?_) hlocal
  rwa [Construct.children, nodes_zip hparams.length_eq]

/-- The nodes of parameters are local. -/
theorem Laid.allLocal {names : List Ident} (h : Laid (ParamAt s) lo hi p params nodes) :
    s.AllLocal (names.zip nodes) := by
  have hnodes : ∀ node ∈ nodes, ∃ c, s.construct node = .ok c ∧ c.isLocal = true :=
    h.forall_mem fun _ _ _ _ _ _ _ hat => ⟨_, hat.2.2.construct_eq, rfl⟩
  exact fun e he => hnodes e.2 (List.of_mem_zip he).2

theorem DeclAt.standing (h : DeclAt s lo hi (some root) d id) (hwell : d.WellNamed)
    (haround : Around s root [] lo hi (some root) id) (hn : hi ≤ n + lo) :
    s.DeclIn root n d id := by
  have hlocal : s.AllLocal [] := by simp [AllLocal]
  cases h with
  | @struct _ _ mid _ _ fields ids _ hfields hmid hhi hnode =>
    have hle := hfields.le_of_framed
    refine ⟨ids, haround.situated hnode hlocal, hfields.forall₂ fun _ hmem hlo' hhi' hat =>
      hat.standing (haround.inner hnode ?_) hlocal⟩
    rwa [Construct.children, nodes_zip hfields.length_eq]
  | @global _ _ mid top _ type name value t v _ htype hvalue htop hhi hnode =>
    have hin := Framed.within htype
    have hle := hvalue.le_of_framed
    refine ⟨t, v, haround.situated hnode hlocal,
      htype.standing (haround.inner hnode) hlocal,
      hvalue.rel fun hsome hat => hat.standing ?_ hlocal⟩
    exact haround.inner hnode (by simp [Construct.children, hsome])
  | @external _ _ mid top _ attributes proto ids f _ hattributes hproto htop hhi hnode =>
    have hle := hattributes.le_of_framed
    have hin := Framed.within hproto
    obtain ⟨_, _, nodes, -, -, -, hstands⟩ := hproto.standing root
    exact ⟨ids, f, nodes, haround.situated hnode hlocal,
      hattributes.forall₂ fun _ hmem hlo' hhi' hat =>
        hat.standing (haround.inner hnode (by simp [Construct.children, hmem])) hlocal,
      hstands (haround.inner hnode) hlocal⟩
  | @function _ _ m₁ m₂ m₃ _ attributes proto body ids f b _ hattributes hproto hbody hmid hhi
      hnode =>
    have hle := hattributes.le_of_framed
    have hin := Framed.within hproto
    have hin' := Framed.within hbody
    obtain ⟨list, result, nodes, hread, hlist, hparams, hstands⟩ := hproto.standing root
    have hinner : ∀ {lo' hi' child}, child ∈ (Construct.function ⟨ids, f, b⟩).children →
        lo ≤ lo' → hi' ≤ id.index → Around s root ((proto.params.map Param.name).zip nodes) lo' hi'
          (some id) child := by
      intro lo' hi' child hchild hlo' hhi'
      simpa using haround.function hnode (by omega) hhi hread hlist hchild hlo' hhi'
    have hlocal' : s.AllLocal ((proto.params.map Param.name).zip nodes) := hparams.allLocal
    refine ⟨ids, f, b, nodes, haround.situated hnode hlocal,
      hattributes.forall₂ fun _ hmem hlo' hhi' hat => ?_, hparams.nodup, hstands ?_ hlocal', ?_⟩
    · exact hat.standing (hinner (by simp [Construct.children, hmem]) hlo' (by omega)) hlocal'
    · exact hinner (by simp [Construct.children]) hle (by omega)
    · refine hbody.standing hwell.2 (hinner (by simp [Construct.children]) (by omega) hmid) hlocal'
        (fun e he => ?_) (by omega)
      exact (hparams.within (List.of_mem_zip he).2).2

/-- The declarations of a placed module stand in it. -/
theorem ModuleAt.standing {m : Module} (h : ModuleAt s m root ids) (hnamed : m.WellNamed)
    (hn : s.size ≤ n + 1) : List.Forall₂ (s.DeclIn root n) m.decls ids :=
  h.decls.forall₂ fun hd hmem hlo hhi hat =>
    hat.standing (hnamed.2 _ hd) (h.around hmem (by omega)) (by omega)

/-- The item of a name is the declaration of that name. -/
theorem ModuleAt.item_cases {m : Module} (h : ModuleAt s m root ids) (hnamed : m.WellNamed)
    (name : Ident) : (m.item? name = none ∧ s.itemNamed? root name = none) ∨
    ∃ d item, m.item? name = some d ∧ s.itemNamed? root name = some item ∧
      s.DeclIn root s.size d item := by
  rcases h.item?_cases name with hnone | ⟨d, item, lo, hi, hdecl, hitem, hat, hhi, haround⟩
  · exact .inl hnone
  · have hwell := hnamed.2 d (List.mem_of_find?_eq_some hdecl)
    exact .inr ⟨d, item, hdecl, hitem, hat.standing hwell haround (by omega)⟩

end Store

end FrontEnd
