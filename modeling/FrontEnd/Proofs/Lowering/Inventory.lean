import FrontEnd.Proofs.Lowering.Growth
import FrontEnd.Proofs.Lowering.Linking

/-!
# Lowering loses and duplicates no declaration

After a run into an empty program that ends well, the program holds one struct, one global or one
function for each declaration, and nothing else.  Structs and globals are in the order of their
declarations, functions in the order in which they are needed.

What each entry of the program is stems from a declaration (`Stems`), and no declaration is
without an entry (`Realizes`); the order of the entries then tells which is which.

## Main definitions

* `StructFor`, `GlobalFor`, `FunctionFor`: the entry of a program for a declaration.
* `Inventory`: a program holds the entries for the declarations of a module.

## Main statements

* `inventory_lowerModule`: what a run that ends well leaves.
-/

namespace FrontEnd.Lowering

open Code Grammar Phrase Store

variable {m : Phrase.Module} {P : Program} {F : Func} {d : Decl}

/-! ## Entries for declarations -/

/-- The struct for its declaration: its name, and its fields in order. -/
inductive StructFor (m : Phrase.Module) : Decl → StructType → Prop
  | mk {name : Ident} {fields : List Param} {entries : List (Ident × Code.Ty)} :
      List.Forall₂ (FieldOf m) fields entries → StructFor m (.struct name fields) ⟨name, entries⟩

/-- The global for its declaration: its name, its type and its initial value. -/
inductive GlobalFor (m : Phrase.Module) : Decl → GlobalVar → Prop
  | mk {type : TypeName} {name : Ident} {value : Option Lit} {ty : Code.Ty}
      {init : Option Constant} : TypeOf m type ty → InitialOf value ty init →
      GlobalFor m (.global type name value) ⟨name, ty, init⟩

/-- The function for its declaration: its name and its signature, and a body exactly if it has one
there. -/
inductive FunctionFor (m : Phrase.Module) : Decl → Func → Prop
  | external {attributes : List Ident} {proto : Proto} {F : Func} : FunctionOf m proto F →
      F.body = none → FunctionFor m (.external attributes proto) F
  | function {attributes : List Ident} {proto : Proto} {body : List Stmt} {F : Func}
      {code : List Instr} : FunctionOf m proto F → F.body = some code →
      FunctionFor m (.function attributes proto body) F

/-- A program holds one entry for each declaration of a module, and nothing else. -/
structure Inventory (m : Phrase.Module) (P : Program) : Prop where
  structs : List.Forall₂ (StructFor m) (m.decls.filter fun d => (structName? d).isSome) P.structs
  globals : List.Forall₂ (GlobalFor m) (m.decls.filter fun d => (globalName? d).isSome) P.globals
  functions : ∃ ds, ds.Perm (m.decls.filter fun d => d.proto?.isSome) ∧
    List.Forall₂ (FunctionFor m) ds P.functions
  /-- Functions are in the order in which their names are first needed. -/
  order : InOrder m.needs P

theorem FunctionFor.proto?_eq (h : FunctionFor m d F) :
    ∃ proto, d.proto? = some proto ∧ FunctionOf m proto F := by
  cases h with
  | external hF _ => exact ⟨_, rfl, hF⟩
  | function hF _ => exact ⟨_, rfl, hF⟩

theorem FunctionFor.name_eq (h : FunctionFor m d F) : d.name = F.name := by
  obtain ⟨proto, hproto, hF⟩ := h.proto?_eq
  rw [name_eq_of_proto? hproto, hF.name]

/-- The names of some of the declarations are those that a function picks. -/
theorem map_name_filter {pick : Decl → Option Ident}
    (h : ∀ d name, pick d = some name → d.name = name) (ds : List Decl) :
    (ds.filter fun d => (pick d).isSome).map Decl.name = ds.filterMap pick := by
  induction ds with
  | nil => rfl
  | cons d ds ih =>
    cases hd : pick d with
    | none => simp [hd, ih]
    | some name => simp [hd, ih, h d name hd]

/-! ## Structs and globals -/

section Inventory

variable (hnamed : m.WellNamed) (hstems : Stems m P)
include hnamed hstems

theorem Listed.forall₂_structs (h : Listed m.decls P) :
    List.Forall₂ (StructFor m) (m.decls.filter fun d => (structName? d).isSome) P.structs := by
  have hpick : ∀ d name, structName? d = some name → d.name = name := by
    intro d name hd
    cases d with
    | struct _ _ => exact Option.some.inj hd
    | _ => cases hd
  refine forall₂_of_map_eq ((map_name_filter hpick m.decls).trans h.structs.symm) ?_
  intro d hd ty hty hname
  obtain ⟨fields, hd', hfields⟩ := hstems.structs ty hty
  obtain rfl := eq_of_same_name hnamed (List.mem_of_mem_filter hd) hd'
    (Ident.same_iff.mpr (congrArg Ident.key hname))
  exact .mk hfields

theorem Listed.forall₂_globals (h : Listed m.decls P) :
    List.Forall₂ (GlobalFor m) (m.decls.filter fun d => (globalName? d).isSome) P.globals := by
  have hpick : ∀ d name, globalName? d = some name → d.name = name := by
    intro d name hd
    cases d with
    | global _ _ _ => exact Option.some.inj hd
    | _ => cases hd
  refine forall₂_of_map_eq ((map_name_filter hpick m.decls).trans h.globals.symm) ?_
  intro d hd g hg hname
  obtain ⟨type, value, hd', hty, hinit⟩ := hstems.globals g hg
  obtain rfl := eq_of_same_name hnamed (List.mem_of_mem_filter hd) hd'
    (Ident.same_iff.mpr (congrArg Ident.key hname))
  exact .mk hty hinit

/-! ## Functions -/

variable (hrealizes : ∀ d ∈ m.decls, Realizes P d)
  (hdistinct : DistinctNames (P.functions.map Func.name))
include hrealizes hdistinct

/-- A function has a body exactly if its declaration has one. -/
theorem Stems.functionFor (hF : F ∈ P.functions) : ∃ d ∈ m.decls, FunctionFor m d F := by
  obtain ⟨d, hd, proto, hproto, hfunction⟩ := hstems.functions F hF
  refine ⟨d, hd, ?_⟩
  cases d with
  | struct _ _ | global _ _ _ => cases hproto
  | external attributes proto =>
    cases hproto
    refine .external hfunction ?_
    -- A body stems from a declaration with one, which has another name.
    rw [Option.eq_none_iff_forall_ne_some]
    intro code hcode
    obtain ⟨⟨_, _, _, hd', hsame⟩, -⟩ := hstems.bodies F hF code hcode
    rw [hfunction.name] at hsame
    have heq := eq_of_same_name hnamed hd hd' hsame
    cases heq
  | function attributes proto body =>
    cases hproto
    obtain ⟨F', hF', hsame, code, hcode, -⟩ := hrealizes _ hd
    obtain rfl : F' = F := by
      rw [DistinctNames, List.map_map] at hdistinct
      refine List.inj_on_of_nodup_map hdistinct hF' hF ?_
      rw [Function.comp_apply, Function.comp_apply, hfunction.name]
      exact Ident.same_iff.mp hsame
    exact .function hfunction hcode

/-- There is one function for each declaration of one. -/
theorem Stems.exists_functions : ∃ ds, ds.Perm (m.decls.filter fun d => d.proto?.isSome) ∧
    List.Forall₂ (FunctionFor m) ds P.functions := by
  have hfunctions : ∀ F ∈ P.functions, ∃ d, d ∈ m.decls ∧ FunctionFor m d F := fun F hF =>
    hstems.functionFor hnamed hrealizes hdistinct hF
  have : Nonempty Decl := ⟨.struct default []⟩
  choose! pick hpick using hfunctions
  have hds : List.Forall₂ (fun d F => d ∈ m.decls ∧ FunctionFor m d F)
      (P.functions.map pick) P.functions :=
    List.forall₂_map_left_iff.mpr (List.forall₂_same.mpr hpick)
  refine ⟨P.functions.map pick, ?_, hds.imp fun _ _ h => h.2⟩
  have hnodup : ∀ {l : List Decl}, DistinctNames (l.map Decl.name) → l.Nodup := fun h =>
    (List.Nodup.of_map _ h).of_map
  -- Neither list has duplicates, so they are the same up to their order if their members are.
  have hnames : (P.functions.map pick).map Decl.name = P.functions.map Func.name := by
    rw [List.map_map]
    exact List.map_congr_left fun F hF => (hpick F hF).2.name_eq
  refine (List.perm_ext_iff_of_nodup (hnodup (hnames ▸ hdistinct))
    ((hnodup hnamed.1).filter _)).mpr fun d => ?_
  rw [List.mem_filter]
  constructor
  · intro hd
    obtain ⟨F, hF, hmem, hfor⟩ := exists_of_forall₂_mem (List.Forall₂.flip hds) hd
    obtain ⟨proto, hproto, -⟩ := hfor.proto?_eq
    exact ⟨hmem, by simp [hproto]⟩
  · rintro ⟨hd, hproto⟩
    have hrealized : ∃ F ∈ P.functions, F.name.same d.name = true := by
      cases d with
      | struct _ _ | global _ _ _ => cases hproto
      | external _ _ => exact hrealizes _ hd
      | function _ _ _ =>
        obtain ⟨F, hF, hsame, -⟩ := hrealizes _ hd
        exact ⟨F, hF, hsame⟩
    obtain ⟨F, hF, hsame⟩ := hrealized
    obtain ⟨d', hd', hmem, hfor⟩ := exists_of_forall₂_mem hds hF
    rw [← hfor.name_eq] at hsame
    exact eq_of_same_name hnamed hmem hd hsame ▸ hd'

end Inventory

/-! ## Modules that are parsed and lowered -/

/-- What a run that ends well leaves is the inventory of the module. -/
theorem inventory_lowerModule {s : Store} {root : NodeId} {ids : List NodeId}
    (hm : ModuleAt s m root ids) (hnamed : m.WellNamed) (name : String)
    (hlower : ((lowerModule root).runOn ⟨s, true⟩ (.empty name)).result = .ok ()) :
    Inventory m ((lowerModule root).runOn ⟨s, true⟩ (.empty name)).program := by
  obtain ⟨hchanges, hrealizes⟩ := changes_lowerModule hm hnamed (.empty name)
  have hstems := hchanges.invariant (.empty m name) Change.stems
  have hdistinct := hchanges.invariant (namesDistinct_empty name) Change.namesDistinct
  have hlisted := listed_lowerModule hm hnamed name hlower
  exact ⟨hlisted.forall₂_structs hnamed hstems, hlisted.forall₂_globals hnamed hstems,
    hstems.exists_functions hnamed (hrealizes hlower) hdistinct.functions, hlisted.functions⟩

/-- A parsed module that is lowered into an empty program leaves one entry for each of its
declarations, in order, and nothing else. -/
theorem lowerModule_inventory {tokens : List (Located Token)} {store : Store} {notices : Notices}
    {parsed : Parsed} {root : NodeId} (hparse : parseModule tokens store notices = .ok parsed)
    (hroot : parsed.result = .ok root) (name : String)
    (hlower : ((lowerModule root).runOn ⟨parsed.store, true⟩ (.empty name)).result = .ok ()) :
    ∃ m ids, ModuleAt parsed.store m root ids ∧
      Inventory m ((lowerModule root).runOn ⟨parsed.store, true⟩ (.empty name)).program := by
  obtain ⟨m, ids, hm, hnamed, -⟩ := parseModule_sound hparse hroot
  exact ⟨m, ids, hm, inventory_lowerModule hm hnamed name hlower⟩

/-- A module that fits is written, parsed and lowered. -/
theorem exists_lowered {tokens : List (Located Token)} (name : String) (hnames : m.WellNamed)
    (hfits : m.Fits maxNesting) (htokens : tokens.map Located.value = m.tokens ++ [.eof])
    (hlowers : lowers tokens name = true) :
    ∃ parsed root ids, parseModule tokens .empty #[] = .ok parsed ∧ parsed.result = .ok root ∧
      ModuleAt parsed.store m root ids ∧
      ((lowerModule root).runOn ⟨parsed.store, true⟩ (.empty name)).result = .ok () := by
  obtain ⟨parsed, root, ids, hparse, hroot, hm, -⟩ := parseModule_of_tokens .empty #[]
    (moduleTokens_tokens hnames hfits) htokens
  obtain ⟨parsed', root', hparse', hroot', hlower⟩ := exists_of_lowers hlowers
  obtain rfl : parsed = parsed' := Except.ok.inj (hparse.symm.trans hparse')
  obtain rfl : root = root' := Except.ok.inj (hroot.symm.trans hroot')
  exact ⟨parsed, root, ids, hparse, hroot, hm, hlower⟩

/-- A module in which no function is needed where it is declared, nor where it is called. -/
def nested : Phrase.Module where
  name := ⟨"m"⟩
  decls :=
    [.external [] ⟨⟨"last"⟩, [], true, .prim .void⟩,
      .function [] ⟨⟨"main"⟩, [], false, .prim .void⟩
        [.exprStatement (.call ⟨"Outer"⟩
          [.call ⟨"inner"⟩ [.reference ⟨"seed"⟩], .call ⟨"INNER"⟩ [.literal (.int 2)]])],
      .struct ⟨"pair"⟩ [⟨.prim .bool, ⟨"left"⟩⟩, ⟨.named ⟨"PAIR"⟩, ⟨"right"⟩⟩],
      .external [] ⟨⟨"inner"⟩, [⟨.prim (.int .w8), ⟨"v"⟩⟩], false, .prim (.int .w8)⟩,
      .global (.prim (.int .w8)) ⟨"seed"⟩ (some (.int 1)),
      .function [] ⟨⟨"outer"⟩, [⟨.prim (.int .w8), ⟨"v"⟩⟩], true, .named ⟨"Pair"⟩⟩
        [.ret (some (.reference ⟨"v"⟩))]]

theorem lowerModule_inventory_nested :
    let tokens : List (Located Token) := (nested.tokens ++ [Token.eof]).map fun t => ⟨t, default⟩
    ∃ parsed root, parseModule tokens .empty #[] = .ok parsed ∧ parsed.result = .ok root ∧
      let lowered := (lowerModule root).runOn ⟨parsed.store, true⟩ (.empty "")
      lowered.result = .ok () ∧ Inventory nested lowered.program ∧
        lowered.program.functions.map (fun F => String.ofList F.name.key) =
          ["last", "main", "outer", "inner"] := by
  intro tokens
  have htokens : tokens.map Located.value = nested.tokens ++ [.eof] := by
    simp [tokens, Function.comp_def]
  obtain ⟨parsed, root, ids, hparse, hroot, hm, hlower⟩ :=
    exists_lowered "" (by decide) (by decide) htokens (by decide +kernel)
  refine ⟨parsed, root, hparse, hroot, hlower, ?_⟩
  obtain ⟨m, ids', hm', hinventory⟩ := lowerModule_inventory hparse hroot "" hlower
  obtain rfl : nested = m := hm.unique hm'
  have horder := congrArg (List.map String.ofList) hinventory.order
  rw [List.map_map] at horder
  exact ⟨hinventory, horder.trans (by decide)⟩

end FrontEnd.Lowering
