import FrontEnd.Proofs.Grammar.Reprinting
import FrontEnd.Proofs.Lowering.Modules
import FrontEnd.Proofs.Lowering.Inventory
import FrontEnd.Proofs.Lowering.Places

/-!
# The order of declarations does not matter

The declarations of a module may change places.  The module with its declarations in another
order is parsed as well, it is lowered exactly if the module is, and what it is lowered to is the
same program up to the order of its lists.

Whether a declaration is well formed, and what it is lowered to, depends on the other declarations
only through what names mean (`Module.item?`), and that does not depend on their order.  Calls
refer to functions by their places, which do change; so two instructions count as the same if they
call functions of one name.

## Main definitions

* `SameUpToOrder`: two programs hold the same, in perhaps another order.
* `Divides`: the tokens of a module, cut into those of its declarations.

## Main statements

* `sameUpToOrder_lowerModule`: what modules that differ in their order are lowered to.
* `parseModule_assembled`: the tokens of declarations are parsed in any order.
-/

namespace FrontEnd.Lowering

open Code Grammar Phrase Store

variable {m m' : Phrase.Module} {P P' : Program} {s : Store} {root : NodeId}

/-! ## Names in another order -/

/-- What names mean does not depend on the order of the declarations. -/
theorem item?_perm (hnamed : m.WellNamed) (hperm : m'.decls.Perm m.decls) :
    m'.item? = m.item? := by
  funext name
  cases hitem' : m'.item? name with
  | none =>
    symm
    rw [Module.item?, List.find?_eq_none] at hitem' ⊢
    exact fun d hd => hitem' d (hperm.mem_iff.mpr hd)
  | some d =>
    obtain ⟨hd, hsame⟩ := mem_of_item? hitem'
    cases hitem : m.item? name with
    | none =>
      exact absurd hsame (List.find?_eq_none.mp hitem d (hperm.mem_iff.mp hd))
    | some d' =>
      obtain ⟨hd', hsame'⟩ := mem_of_item? hitem
      refine congrArg some (eq_of_same_name hnamed (hperm.mem_iff.mp hd) hd' ?_)
      rw [Ident.same_iff] at hsame hsame' ⊢
      rw [hsame, hsame']

theorem wellNamed_perm (hnamed : m.WellNamed) (hperm : m'.decls.Perm m.decls) : m'.WellNamed := by
  refine ⟨?_, fun d hd => hnamed.2 d (hperm.mem_iff.mp hd)⟩
  exact (((hperm.map Decl.name).map Ident.key).nodup_iff).mpr hnamed.1

/-! ## Programs in another order -/

/-- Two programs hold the same, in perhaps another order. -/
structure SameUpToOrder (P P' : Program) : Prop where
  structs : P.structs.Perm P'.structs
  globals : P.globals.Perm P'.globals
  functions : ∃ functions, List.Forall₂ (SameFunction P P') P.functions functions ∧
    functions.Perm P'.functions

/-- The function for its declaration, with the code for its body if it has one there. -/
inductive CompiledFor (m : Phrase.Module) (P : Program) : Decl → Func → Prop
  | external {attributes : List Ident} {proto : Proto} {F : Func} : FunctionOf m proto F →
      F.body = none → CompiledFor m P (.external attributes proto) F
  | function {attributes : List Ident} {proto : Proto} {body : List Stmt} {F : Func}
      {code : List Instr} : FunctionOf m proto F → F.body = some code →
      FunctionCode m P proto body code → CompiledFor m P (.function attributes proto body) F

/-! ## Code where names mean the same -/

section Code

variable {locals locals₁ locals₁' : Locals} {n k k' : Nat} {code code' : List Instr}

/-- The code of arguments is the same. -/
theorem Chained.same {arguments : List Expr} {operands operands' : List Operand}
    (h : Chained (ExprCode m P locals) n arguments code operands k)
    (h' : Chained (ExprCode m' P' locals) n arguments code' operands' k')
    (hsame : ∀ a ∈ arguments, ∀ {n k k' code code' op op'}, ExprCode m P locals n a code op k →
      ExprCode m' P' locals n a code' op' k' → SameCode P P' code code' ∧ op = op' ∧ k = k') :
    SameCode P P' code code' ∧ operands = operands' ∧ k = k' := by
  induction h generalizing code' operands' k' with
  | nil n =>
    cases h'
    exact ⟨.nil, rfl, rfl⟩
  | cons hhead _ ih =>
    cases h' with
    | cons hhead' hrest' =>
      obtain ⟨hcode, rfl, rfl⟩ := hsame _ (by simp) hhead hhead'
      obtain ⟨hcodes, rfl, rfl⟩ := ih hrest' fun a ha => hsame a (by simp [ha])
      exact ⟨List.rel_append hcode hcodes, rfl, rfl⟩

/-- The code of statements one after the other is the same. -/
theorem Threaded.same {body : List Stmt}
    (h : Threaded (StmtCode m P) locals n body code locals₁ k)
    (h' : Threaded (StmtCode m' P') locals n body code' locals₁' k')
    (hsame : ∀ st ∈ body, ∀ {locals locals₁ locals₁' n k k' code code'},
      StmtCode m P locals n st code locals₁ k → StmtCode m' P' locals n st code' locals₁' k' →
      SameCode P P' code code' ∧ locals₁ = locals₁' ∧ k = k') :
    SameCode P P' code code' ∧ locals₁ = locals₁' ∧ k = k' := by
  induction h generalizing code' locals₁' k' with
  | nil locals n =>
    cases h'
    exact ⟨.nil, rfl, rfl⟩
  | cons hhead _ ih =>
    cases h' with
    | cons hhead' hrest' =>
      obtain ⟨hcode, rfl, rfl⟩ := hsame _ (by simp) hhead hhead'
      obtain ⟨hcodes, rfl, rfl⟩ := ih hrest' fun st hst => hsame st (by simp [hst])
      exact ⟨List.rel_append hcode hcodes, rfl, rfl⟩

variable (hitems : m'.item? = m.item?) {d : Decl} {proto : Proto}
include hitems

/-- The prototype of what is called is the same. -/
theorem proto_unique {callee : Ident} {d' : Decl} {proto' : Proto} (hitem : m.item? callee = some d)
    (hproto : d.proto? = some proto) (hitem' : m'.item? callee = some d')
    (hproto' : d'.proto? = some proto') : proto = proto' := by
  rw [hitems] at hitem'
  cases hitem.symm.trans hitem'
  exact Option.some.inj (hproto.symm.trans hproto')

/-- The code of an expression is the same. -/
theorem ExprCode.same {e : Expr} {op op' : Operand} (h : ExprCode m P locals n e code op k)
    (h' : ExprCode m' P' locals n e code' op' k') :
    SameCode P P' code code' ∧ op = op' ∧ k = k' := by
  induction e generalizing n code op k code' op' k' with
  | literal l =>
    cases h
    cases h'
    exact ⟨.nil, rfl, rfl⟩
  | reference name =>
    cases h with
    | inSlot hslot =>
      cases h' with
      | inSlot hslot' =>
        obtain rfl := Option.some.inj (hslot.symm.trans hslot')
        exact ⟨.nil, rfl, rfl⟩
      | global hnone' _ => exact absurd (hslot.symm.trans hnone') (by simp)
    | global hnone hitem =>
      cases h' with
      | inSlot hslot' => exact absurd (hnone.symm.trans hslot') (by simp)
      | global _ hitem' =>
        rw [hitems] at hitem'
        cases hitem.symm.trans hitem'
        exact ⟨.cons (.load _ _) .nil, rfl, rfl⟩
  | call callee arguments ih =>
    cases h with
    | call hitem hproto hresult hcalls harguments =>
      cases h' with
      | call hitem' hproto' _ hcalls' harguments' =>
        obtain rfl := proto_unique hitems hitem hproto hitem' hproto'
        obtain ⟨hcode, rfl, rfl⟩ := harguments.same harguments' fun a ha => ih a ha
        exact ⟨List.rel_append hcode (.cons (.call hcalls hcalls') .nil), rfl, rfl⟩
      | callVoid hitem' hproto' hvoid _ _ =>
        obtain rfl := proto_unique hitems hitem hproto hitem' hproto'
        exact absurd hvoid hresult
    | callVoid hitem hproto hvoid hcalls harguments =>
      cases h' with
      | call hitem' hproto' hresult _ _ =>
        obtain rfl := proto_unique hitems hitem hproto hitem' hproto'
        exact absurd hvoid hresult
      | callVoid hitem' hproto' _ hcalls' harguments' =>
        obtain rfl := proto_unique hitems hitem hproto hitem' hproto'
        obtain ⟨hcode, rfl, rfl⟩ := harguments.same harguments' fun a ha => ih a ha
        exact ⟨List.rel_append hcode (.cons (.call hcalls hcalls') .nil), rfl, rfl⟩
  | binary op lhs rhs ihl ihr =>
    cases h with
    | binary hl hr =>
      cases h' with
      | binary hl' hr' =>
        obtain ⟨hleft, rfl, rfl⟩ := ihl hl hl'
        obtain ⟨hright, rfl, rfl⟩ := ihr hr hr'
        exact ⟨List.rel_append (List.rel_append hleft hright) (.cons (.binary _ _ _ _) .nil),
          rfl, rfl⟩

/-- The code of a statement is the same. -/
theorem StmtCode.same {st : Stmt} (h : StmtCode m P locals n st code locals₁ k)
    (h' : StmtCode m' P' locals n st code' locals₁' k') :
    SameCode P P' code code' ∧ locals₁ = locals₁' ∧ k = k' := by
  induction st generalizing locals n code locals₁ k code' locals₁' k' with
  | block body ih =>
    cases h with
    | block hbody =>
      cases h' with
      | block hbody' =>
        obtain ⟨hcode, -, rfl⟩ := hbody.same hbody' fun st hst => ih st hst
        exact ⟨hcode, rfl, rfl⟩
  | varDecl name type value =>
    cases h with
    | varDecl hvalue =>
      cases h' with
      | varDecl hvalue' =>
        obtain ⟨hcode, rfl, rfl⟩ := hvalue.same hitems hvalue'
        exact ⟨List.rel_append hcode (.cons (.move _ _) .nil), rfl, rfl⟩
  | ret value =>
    cases h with
    | retNone =>
      cases h'
      exact ⟨.cons (.ret _) .nil, rfl, rfl⟩
    | ret hvalue =>
      cases h' with
      | ret hvalue' =>
        obtain ⟨hcode, rfl, rfl⟩ := hvalue.same hitems hvalue'
        exact ⟨List.rel_append hcode (.cons (.ret _) .nil), rfl, rfl⟩
  | exprStatement value =>
    cases h with
    | exprStatement hvalue =>
      cases h' with
      | exprStatement hvalue' =>
        obtain ⟨hcode, -, rfl⟩ := hvalue.same hitems hvalue'
        exact ⟨hcode, rfl, rfl⟩

theorem FunctionCode.same {body : List Stmt} (h : FunctionCode m P proto body code)
    (h' : FunctionCode m' P' proto body code') : SameCode P P' code code' := by
  obtain ⟨main, locals, k, hmain, rfl⟩ := h
  obtain ⟨main', locals', k', hmain', rfl⟩ := h'
  obtain ⟨hcode, -, -⟩ := hmain.same hmain' fun _ _ _ _ _ _ _ _ _ _ => StmtCode.same hitems
  split
  · exact hcode
  · exact List.rel_append hcode (.cons (.ret _) .nil)

/-! ## Entries where names mean the same -/

theorem TypeOf.unique {type : TypeName} {ty ty' : Code.Ty} (h : TypeOf m type ty)
    (h' : TypeOf m' type ty') : ty = ty' := by
  cases type with
  | prim prim => exact h.trans h'.symm
  | named name =>
    obtain ⟨own, fields, hitem, rfl⟩ := h
    obtain ⟨own', fields', hitem', rfl⟩ := h'
    rw [hitems] at hitem'
    cases hitem.symm.trans hitem'
    rfl

theorem StructFor.unique {type type' : StructType} (h : StructFor m d type)
    (h' : StructFor m' d type') : type = type' := by
  obtain ⟨hfields⟩ := h
  obtain ⟨hfields'⟩ := h'
  refine congrArg _ (eq_of_forall₂ hfields hfields' fun field entry entry' hentry hentry' => ?_)
  exact Prod.ext (hentry.1.trans hentry'.1.symm) (hentry.2.unique hitems hentry'.2)

theorem GlobalFor.unique {g g' : GlobalVar} (h : GlobalFor m d g) (h' : GlobalFor m' d g') :
    g = g' := by
  obtain @⟨type, name, value, ty, init, htype, hinit⟩ := h
  obtain @⟨_, _, _, ty', init', htype', hinit'⟩ := h'
  obtain rfl := htype.unique hitems htype'
  cases value with
  | none =>
    obtain rfl : init = none := hinit
    obtain rfl : init' = none := hinit'
    rfl
  | some l =>
    obtain ⟨value, hvalue, rfl⟩ := hinit
    obtain ⟨value', hvalue', rfl⟩ := hinit'
    obtain rfl := Except.ok.inj (hvalue.symm.trans hvalue')
    rfl

theorem FunctionOf.unique {F F' : Func} (h : FunctionOf m proto F) (h' : FunctionOf m' proto F') :
    F.name = F'.name ∧ F.signature = F'.signature := by
  refine ⟨h.name.trans h'.name.symm, ?_⟩
  have hparameters := eq_of_forall₂ h.parameters h'.parameters fun _ _ _ => TypeOf.unique hitems
  have hresult := h.result.unique hitems h'.result
  have hvariadic := h.variadic.trans h'.variadic.symm
  calc F.signature
    _ = ⟨F.signature.parameters, F.signature.variadic, F.signature.returnType⟩ := rfl
    _ = F'.signature := by rw [hparameters, hvariadic, hresult]

/-- Functions for one declaration, with the code for its body, are the same. -/
theorem CompiledFor.same {F F' : Func} (h : CompiledFor m P d F) (h' : CompiledFor m' P' d F') :
    SameFunction P P' F F' := by
  cases h with
  | external hF hbody =>
    cases h' with
    | external hF' hbody' =>
      obtain ⟨hname, hsignature⟩ := hF.unique hitems hF'
      refine ⟨hname, hsignature, ?_⟩
      rw [hbody, hbody']
      exact .none
  | function hF hbody hcode =>
    cases h' with
    | function hF' hbody' hcode' =>
      obtain ⟨hname, hsignature⟩ := hF.unique hitems hF'
      refine ⟨hname, hsignature, ?_⟩
      rw [hbody, hbody']
      exact .some (hcode.same hitems hcode')

end Code

/-! ## Programs of a module and of one in another order -/

/-- A run that ends well leaves code for the body of each function. -/
theorem exists_compiled (h : Inventory m P) (htracks : Tracks s root m m.decls P) :
    ∃ ds, ds.Perm (m.decls.filter fun d => d.proto?.isSome) ∧
      List.Forall₂ (CompiledFor m P) ds P.functions := by
  obtain ⟨ds, hperm, hds⟩ := h.functions
  refine ⟨ds, hperm, ?_⟩
  rw [List.forall₂_iff_zip] at hds ⊢
  refine ⟨hds.1, fun {d F} hmem => ?_⟩
  obtain ⟨hd, hF⟩ := List.of_mem_zip hmem
  have hd : d ∈ m.decls := List.mem_of_mem_filter (hperm.mem_iff.mp hd)
  cases hds.2 hmem with
  | external hfunction hbody => exact .external hfunction hbody
  | @function attributes proto body _ code hfunction hbody =>
    -- The function that has the code is the one at this place, as no other has its name.
    obtain ⟨i, F', code', hF', hname, hbody', hcode⟩ := htracks.compiled hd
    obtain rfl : F' = F := by
      refine List.inj_on_of_nodup_map (List.Nodup.of_map _ htracks.distinct)
        (List.mem_of_getElem? hF') hF ?_
      rw [hname, hfunction.name]
    exact .function hfunction hbody' hcode

/-- What a module and the same module in another order are lowered to holds the same. -/
theorem sameUpToOrder_lowerModule {s' : Store} {root' : NodeId} {ids ids' : List NodeId}
    (hm : ModuleAt s m root ids) (hm' : ModuleAt s' m' root' ids') (hnamed : m.WellNamed)
    (hperm : m'.decls.Perm m.decls) (name : String)
    (hlower : ((lowerModule root).runOn ⟨s, true⟩ (.empty name)).result = .ok ())
    (hlower' : ((lowerModule root').runOn ⟨s', true⟩ (.empty name)).result = .ok ()) :
    SameUpToOrder ((lowerModule root).runOn ⟨s, true⟩ (.empty name)).program
      ((lowerModule root').runOn ⟨s', true⟩ (.empty name)).program := by
  have hitems := item?_perm hnamed hperm
  have hnamed' := wellNamed_perm hnamed hperm
  have hinventory := inventory_lowerModule hm hnamed name hlower
  have hinventory' := inventory_lowerModule hm' hnamed' name hlower'
  obtain ⟨ds, hds, hcompiled⟩ := exists_compiled hinventory
    (tracks_lowerModule hm hnamed name hlower).1
  obtain ⟨ds', hds', hcompiled'⟩ := exists_compiled hinventory'
    (tracks_lowerModule hm' hnamed' name hlower').1
  constructor
  · exact perm_of_forall₂ (hperm.symm.filter _) hinventory.structs hinventory'.structs
      fun _ _ _ => StructFor.unique hitems
  · exact perm_of_forall₂ (hperm.symm.filter _) hinventory.globals hinventory'.globals
      fun _ _ _ => GlobalFor.unique hitems
  · exact exists_perm_of_forall₂ ((hds.trans (hperm.symm.filter _)).trans hds'.symm)
      hcompiled hcompiled' fun _ _ _ => CompiledFor.same hitems

/-! ## The tokens of declarations -/

/-- The tokens of a module, from those of its declarations. -/
def assembled (name : Ident) (pieces : List (List Token)) : List Token :=
  .keyword .module :: .ident name :: .symbol .openCurly ::
    (pieces.flatten ++ [.symbol .closeCurly, .eof])

/-- Tokens are those of a module, cut into those of each of its declarations. -/
structure Divides (tokens : List (Located Token)) (m : Phrase.Module)
    (pieces : List (List Token)) : Prop where
  tokens_eq : tokens.map Located.value = assembled m.name pieces
  declarations : List.Forall₂ (DeclarationTokens maxNesting) pieces m.decls

/-- A sequence is cut into its items. -/
theorem exists_division {α : Type} {Item : List Token → α → Prop} {ts : List Token} {as : List α}
    (h : Sequence Item ts as) : ∃ pieces, pieces.flatten = ts ∧ List.Forall₂ Item pieces as := by
  induction h with
  | nil => exact ⟨[], rfl, .nil⟩
  | @cons ts us a as hhead _ ih =>
    obtain ⟨pieces, rfl, hpieces⟩ := ih
    exact ⟨ts :: pieces, List.flatten_cons, .cons hhead hpieces⟩

theorem sequence_flatten {α : Type} {Item : List Token → α → Prop} {pieces : List (List Token)}
    {as : List α} (h : List.Forall₂ Item pieces as) : Sequence Item pieces.flatten as := by
  induction h with
  | nil => exact .nil
  | cons hhead _ ih => exact .cons hhead ih

/-- Declarations are parsed in any order. -/
theorem parseModule_assembled {tokens : List (Located Token)} {pieces : List (List Token)}
    (store : Store) (notices : Notices)
    (hpieces : List.Forall₂ (DeclarationTokens maxNesting) pieces m.decls) (hnamed : m.WellNamed)
    (htokens : tokens.map Located.value = assembled m.name pieces) :
    ∃ parsed root ids, parseModule tokens store notices = .ok parsed ∧ parsed.result = .ok root ∧
      ModuleAt parsed.store m root ids ∧
      ∀ notice ∈ parsed.notices.toList.drop notices.size, notice.isError = false := by
  have hts : ModuleTokens maxNesting _ m := .mk (sequence_flatten hpieces) hnamed.1
  obtain ⟨parsed, root, ids, hparse, hroot, hm, new, hnew, hclean, -⟩ :=
    parseModule_of_tokens store notices hts (htokens.trans (by simp [assembled]))
  refine ⟨parsed, root, ids, hparse, hroot, hm, ?_⟩
  rwa [hnew, ← Array.length_toList, List.drop_left]

/-- The declarations of a module that is parsed without errors may be written in any order: each
order is parsed without errors, is lowered exactly if the module is, and to the same program up to
the order of its lists. -/
theorem lowerModule_reordered {tokens : List (Located Token)} {store : Store} {notices : Notices}
    {parsed : Parsed} {root : NodeId} (hparse : parseModule tokens store notices = .ok parsed)
    (hroot : parsed.result = .ok root) (hend : ∀ t ∈ tokens.dropLast, t.value ≠ .eof)
    (hclean : ∀ notice ∈ parsed.notices.toList.drop notices.size, notice.isError = false) :
    ∃ m ids, ModuleAt parsed.store m root ids ∧ (∃ pieces, Divides tokens m pieces) ∧
      ∀ pieces order, Divides tokens m pieces → order.Perm pieces →
      ∀ (tokens' : List (Located Token)) (store' : Store) (notices' : Notices),
        tokens'.map Located.value = assembled m.name order →
        ∃ parsed' root', parseModule tokens' store' notices' = .ok parsed' ∧
          parsed'.result = .ok root' ∧
          (∀ notice ∈ parsed'.notices.toList.drop notices'.size, notice.isError = false) ∧
          ∀ name,
            let lowered := (lowerModule root).runOn ⟨parsed.store, true⟩ (.empty name)
            let lowered' := (lowerModule root').runOn ⟨parsed'.store, true⟩ (.empty name)
            (lowered'.result = .ok () ↔ lowered.result = .ok ()) ∧
              (lowered.result = .ok () → SameUpToOrder lowered.program lowered'.program) := by
  obtain ⟨m, ids, ts, hm, htokens, hts⟩ := moduleTokens_of_parseModule hparse hroot hend hclean
  obtain ⟨hdecls, hdistinct⟩ := hts
  obtain ⟨pieces, rfl, hpieces⟩ := exists_division hdecls
  have hdivides : Divides tokens m pieces := ⟨htokens.trans (by simp [assembled]), hpieces⟩
  have hnamed : m.WellNamed := ⟨hdistinct, fun d hd => by
    obtain ⟨ts, -, hts⟩ := exists_of_forall₂_mem hpieces hd
    exact hts.wellNamed⟩
  refine ⟨m, ids, hm, ⟨pieces, hdivides⟩, fun pieces order hpieces horder tokens' store' notices'
    htokens' => ?_⟩
  obtain ⟨decls, hdecls, hperm⟩ := List.perm_comp_forall₂ horder hpieces.declarations
  have hnamed' : Module.WellNamed ⟨m.name, decls⟩ := wellNamed_perm hnamed hperm
  obtain ⟨parsed', root', ids', hparse', hroot', hm', hclean'⟩ :=
    parseModule_assembled store' notices' hdecls hnamed' htokens'
  refine ⟨parsed', root', hparse', hroot', hclean', fun name => ?_⟩
  have hiff : ((lowerModule root').runOn ⟨parsed'.store, true⟩ (.empty name)).result = .ok () ↔
      ((lowerModule root).runOn ⟨parsed.store, true⟩ (.empty name)).result = .ok () := by
    -- The conditions on a declaration know the other ones only by what names mean.
    rw [lowerModule_ok_iff_wellFormed hm hnamed, lowerModule_ok_iff_wellFormed hm' hnamed',
      item?_perm hnamed hperm]
    exact forall_congr' fun d => imp_congr_left hperm.mem_iff
  exact ⟨hiff, fun hlower =>
    sameUpToOrder_lowerModule hm hm' hnamed hperm name hlower (hiff.mpr hlower)⟩

theorem lowerModule_reordered_nested :
    let pieces := nested.decls.map Decl.tokens
    let tokens : List (Located Token) := (assembled nested.name pieces).map fun t => ⟨t, default⟩
    let tokens' : List (Located Token) :=
      (assembled nested.name pieces.reverse).map fun t => ⟨t, default⟩
    ∃ parsed root parsed' root', parseModule tokens .empty #[] = .ok parsed ∧
      parsed.result = .ok root ∧ parseModule tokens' .empty #[] = .ok parsed' ∧
      parsed'.result = .ok root' ∧
      let lowered := (lowerModule root).runOn ⟨parsed.store, true⟩ (.empty "")
      let lowered' := (lowerModule root').runOn ⟨parsed'.store, true⟩ (.empty "")
      lowered.result = .ok () ∧ lowered'.result = .ok () ∧
        SameUpToOrder lowered.program lowered'.program := by
  intro pieces tokens tokens'
  have hvalues : ∀ ts : List Token,
      (ts.map fun t => (⟨t, default⟩ : Located Token)).map Located.value = ts := by
    simp [Function.comp_def]
  have hpieces : List.Forall₂ (DeclarationTokens maxNesting) pieces nested.decls := by
    have hdecls : ∀ d ∈ nested.decls, d.nesting ≤ maxNesting ∧ d.WellNamed := by decide
    rw [List.forall₂_map_left_iff, List.forall₂_same]
    exact fun d hd => declarationTokens_tokens (hdecls d hd).1 (hdecls d hd).2
  obtain ⟨parsed, root, ids, hparse, hroot, hm, hclean⟩ :=
    parseModule_assembled .empty #[] hpieces (by decide) (hvalues _)
  obtain ⟨m, ids', hm', -, hreordered⟩ := lowerModule_reordered hparse hroot (by decide) hclean
  obtain rfl : nested = m := hm.unique hm'
  obtain ⟨parsed', root', hparse', hroot', -, hsame⟩ := hreordered pieces pieces.reverse
    ⟨hvalues _, hpieces⟩ (List.reverse_perm _) tokens' .empty #[] (hvalues _)
  refine ⟨parsed, root, parsed', root', hparse, hroot, hparse', hroot', ?_⟩
  obtain ⟨hiff, hsame⟩ := hsame ""
  have hlower : ((lowerModule root).runOn ⟨parsed.store, true⟩ (.empty "")).result = .ok () := by
    have hlowers : lowers tokens "" = true := by decide +kernel
    obtain ⟨found, root₁, hfound, hroot₁, hlower⟩ := exists_of_lowers hlowers
    obtain rfl : parsed = found := Except.ok.inj (hparse.symm.trans hfound)
    obtain rfl : root = root₁ := Except.ok.inj (hroot.symm.trans hroot₁)
    exact hlower
  exact ⟨hlower, hiff.mpr hlower, hsame hlower⟩

end FrontEnd.Lowering
