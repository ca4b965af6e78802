import FrontEnd.Proofs.Phrase.Placement

/-!
# What a store holds is unique

The nodes of a store determine the phrase under a node: whatever the ranges and the
parents are, no two phrases of a kind have the same root.  So it makes sense to speak of
the module of a store and its root.
-/

namespace FrontEnd

namespace Phrase

theorem Param.ext {param param' : Param} (htype : param.type = param'.type)
    (hname : param.name = param'.name) : param = param' := by
  cases param
  cases param'
  simp_all

theorem Lit.sized_injective : Function.Injective Lit.sized := by
  intro l l' h
  cases l <;> cases l' <;> simp_all [Lit.sized]

theorem TypeName.ref_injective : Function.Injective TypeName.ref := by
  intro type type' h
  cases type <;> cases type' <;> simp_all [TypeName.ref]

end Phrase

namespace Store

open Phrase

variable {α : Type} {s : Store} {p p' : Option NodeId} {id : NodeId} {lo hi lo' hi' : Nat}
  {ids : List NodeId}

/-- Two lists of phrases with the same roots are the same if their elements are. -/
theorem Laid.unique {At : Placing α} {as bs : List α}
    (h : Laid (At s) lo hi p as ids) (h' : Laid (At s) lo' hi' p' bs ids)
    (hunique : ∀ a ∈ as, ∀ {b lo hi lo' hi' id}, At s lo hi p a id → At s lo' hi' p' b id →
      a = b) : as = bs := by
  induction h generalizing lo' bs with
  | nil _ =>
    cases h'
    rfl
  | cons hhead _ ih =>
    cases h' with
    | cons hhead' hrest' =>
      rw [hunique _ (by simp) hhead hhead', ih hrest' fun a ha => hunique a (by simp [ha])]

/-- Two phrases that may be left out, with the same root if any, are the same if they are
where they are not left out. -/
theorem Laid.option_unique {At : Placing α} {o o' : Option α} {v : Option NodeId}
    (h : Laid (At s) lo hi p o.toList v.toList) (h' : Laid (At s) lo' hi' p' o'.toList v.toList)
    (hunique : ∀ {a b lo hi lo' hi' id}, At s lo hi p a id → At s lo' hi' p' b id → a = b) :
    o = o' := by
  have hlist := h.unique h' fun _ _ => hunique
  cases o <;> cases o' <;> simp_all

theorem LeafAt.unique {construct : α → Construct} (hinj : Function.Injective construct) {a b : α}
    (h : LeafAt construct s lo hi p a id) (h' : LeafAt construct s lo' hi' p' b id) : a = b :=
  hinj (h'.2.2.unique h.2.2)

theorem TypeAt.unique {type type' : TypeName} (h : TypeAt s lo hi p type id)
    (h' : TypeAt s lo' hi' p' type' id) : type = type' :=
  LeafAt.unique (fun _ _ heq => TypeName.ref_injective (Construct.typeRef.inj heq)) h h'

theorem LitAt.unique {l l' : Lit} (h : LitAt s lo hi p l id) (h' : LitAt s lo' hi' p' l' id) :
    l = l' :=
  LeafAt.unique (fun _ _ heq => Lit.sized_injective (Construct.literal.inj heq)) h h'

theorem AttrAt.unique {name name' : Ident} (h : AttrAt s lo hi p name id)
    (h' : AttrAt s lo' hi' p' name' id) : name = name' :=
  LeafAt.unique (fun _ _ heq => Construct.attr.inj heq) h h'

/-- Parameters are determined by the nodes of their types and by their entries in the scope
they are declared in. -/
theorem params_unique {params params' : List Param} {ids' : List NodeId}
    (h : Laid (ParamAt s) lo hi p params ids) (h' : Laid (ParamAt s) lo' hi' p' params' ids')
    (hentries : (params.map Param.name).zip ids = (params'.map Param.name).zip ids') :
    params = params' := by
  induction h generalizing lo' params' ids' with
  | nil _ =>
    cases h' with
    | nil _ => rfl
    | cons _ _ => cases hentries
  | cons hhead _ ih =>
    cases h' with
    | nil _ => cases hentries
    | cons hhead' hrest' =>
      simp only [List.map_cons, List.zip_cons_cons, List.cons.injEq, Prod.mk.injEq] at hentries
      obtain ⟨⟨hname, rfl⟩, hrest⟩ := hentries
      rw [Param.ext (TypeAt.unique hhead hhead') hname, ih hrest' hrest]

theorem ExprAt.unique {e e' : Expr} (h : ExprAt s lo hi p e id) (h' : ExprAt s lo' hi' p' e' id) :
    e = e' := by
  induction e generalizing lo hi lo' hi' p p' id e' with
  | literal l =>
    cases h with
    | literal _ _ hn =>
      cases h' with
      | literal _ _ hn' => rw [Lit.sized_injective (Construct.literal.inj (hn'.unique hn))]
      | _ => rename_i hn'; cases hn'.unique hn
  | reference name =>
    cases h with
    | reference _ _ hn =>
      cases h' with
      | reference _ _ hn' => rw [Construct.reference.inj (hn'.unique hn)]
      | _ => rename_i hn'; cases hn'.unique hn
  | call callee arguments ih =>
    cases h with
    | call hargs _ _ hn =>
      cases h' with
      | call hargs' _ _ hn' =>
        cases hn'.unique hn
        rw [hargs.unique hargs' fun a ha => ih a ha]
      | _ => rename_i hn'; cases hn'.unique hn
  | binary op lhs rhs ihl ihr =>
    cases h with
    | binary hl hr _ _ hn =>
      cases h' with
      | binary hl' hr' _ _ hn' =>
        cases hn'.unique hn
        rw [ihl hl hl', ihr hr hr']
      | _ => rename_i hn'; cases hn'.unique hn

theorem StmtAt.unique {st st' : Stmt} (h : StmtAt s lo hi p st id)
    (h' : StmtAt s lo' hi' p' st' id) : st = st' := by
  induction st generalizing lo hi lo' hi' p p' id st' with
  | block body ih =>
    cases h with
    | block _ hbody hn =>
      cases h' with
      | block _ hbody' hn' =>
        obtain ⟨rfl, -⟩ := BlockNode.mk.inj (Construct.block.inj (hn'.unique hn))
        rw [hbody.unique hbody' fun b hb => ih b hb]
      | _ => rename_i hn'; cases hn'.unique hn
  | varDecl name type value =>
    cases h with
    | varDecl ht hv _ _ hn =>
      cases h' with
      | varDecl ht' hv' _ _ hn' =>
        cases hn'.unique hn
        rw [ht.option_unique ht' TypeAt.unique, hv.unique hv']
      | _ => rename_i hn'; cases hn'.unique hn
  | ret value =>
    cases h with
    | ret hv _ _ hn =>
      cases h' with
      | ret hv' _ _ hn' =>
        cases hn'.unique hn
        rw [hv.option_unique hv' ExprAt.unique]
      | _ => rename_i hn'; cases hn'.unique hn
  | exprStatement value =>
    cases h with
    | exprStatement hv _ _ hn =>
      cases h' with
      | exprStatement hv' _ _ hn' =>
        cases hn'.unique hn
        rw [hv.unique hv']
      | _ => rename_i hn'; cases hn'.unique hn

theorem ArgumentsAt.unique {list list' : List Param × Bool} (h : ArgumentsAt s lo hi p list id)
    (h' : ArgumentsAt s lo' hi' p' list' id) : list = list' := by
  cases h with
  | mk hparams _ _ hn =>
    cases h' with
    | mk hparams' _ _ hn' =>
      obtain ⟨hscope, rfl⟩ := ArgumentsNode.mk.inj (Construct.arguments.inj (hn'.unique hn))
      rw [params_unique hparams hparams' (Scope.mk.inj hscope)]

theorem ProtoAt.unique {proto proto' : Proto} (h : ProtoAt s lo hi p proto id)
    (h' : ProtoAt s lo' hi' p' proto' id) : proto = proto' := by
  cases h with
  | mk hlist hresult _ _ hn =>
    cases h' with
    | mk hlist' hresult' _ _ hn' =>
      obtain ⟨hname, rfl, rfl⟩ := PrototypeNode.mk.inj (Construct.prototype.inj (hn'.unique hn))
      have harguments := hlist.unique hlist'
      have htype := TypeAt.unique hresult hresult'
      cases proto
      cases proto'
      simp_all

theorem DeclAt.unique {d d' : Decl} (h : DeclAt s lo hi p d id) (h' : DeclAt s lo' hi' p' d' id) :
    d = d' := by
  cases h with
  | struct hfields _ _ hn =>
    cases h' with
    | struct hfields' _ _ hn' =>
      obtain ⟨rfl, hscope⟩ := StructNode.mk.inj (Construct.struct.inj (hn'.unique hn))
      rw [params_unique hfields hfields' (Scope.mk.inj hscope)]
    | _ => rename_i hn'; cases hn'.unique hn
  | global htype hvalue _ _ hn =>
    cases h' with
    | global htype' hvalue' _ _ hn' =>
      cases hn'.unique hn
      rw [TypeAt.unique htype htype', hvalue.option_unique hvalue' LitAt.unique]
    | _ => rename_i hn'; cases hn'.unique hn
  | external hattributes hproto _ _ hn =>
    cases h' with
    | external hattributes' hproto' _ _ hn' =>
      cases hn'.unique hn
      rw [hattributes.unique hattributes' fun _ _ => AttrAt.unique, hproto.unique hproto']
    | _ => rename_i hn'; cases hn'.unique hn
  | function hattributes hproto hbody _ _ hn =>
    cases h' with
    | function hattributes' hproto' hbody' _ _ hn' =>
      cases hn'.unique hn
      rw [hattributes.unique hattributes' fun _ _ => AttrAt.unique, hproto.unique hproto',
        Stmt.block.inj (hbody.unique hbody')]
    | _ => rename_i hn'; cases hn'.unique hn

/-- A store has one module at a root. -/
theorem ModuleAt.unique {m m' : Module} {ids' : List NodeId} (h : ModuleAt s m id ids)
    (h' : ModuleAt s m' id ids') : m = m' := by
  obtain ⟨hname, rfl, -⟩ := ModuleNode.mk.inj (Construct.module.inj (h'.root.unique h.root))
  have hdecls := h.decls.unique h'.decls fun _ _ => DeclAt.unique
  cases m
  cases m'
  simp_all

end Store

end FrontEnd
