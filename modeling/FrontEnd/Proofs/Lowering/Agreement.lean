import FrontEnd.Proofs.Lowering.Inventory
import FrontEnd.Proofs.Lowering.Occurrences

/-!
# Types agree with code

The type of an expression is found in the tree, and its code is emitted without a look at types.
Both follow the same names, so that in a module that is lowered every expression has a type, and
the code does with its value what the type tells: the constant of a literal is of the type of the
literal, and the result of a call is kept exactly if its type is not void.

The initial value of a global is no operand.  It is the constant of a literal, adapted to the type
of the global, so that its type may be another than that of the literal.

## Main definitions

* `CallFor`, `ConstantFor`: the instruction for a call and the constant for a literal, with types.
* `CodeAgrees`: the types in the body of a function agree with its code.
* `Agrees`: the types of a module agree with a program.

## Main statements

* `typeOf_lowerModule`: types are always found, and agree with the program of a module.
-/

namespace FrontEnd.Lowering

open Code Grammar Phrase Store

variable {s : Store} {m : Phrase.Module} {P : Program} {root id : NodeId} {ids : List NodeId}
  {lo mid hi n : Nat} {p : Option NodeId} {c : Construct}

/-! ## Types in code -/

theorem codeType_eq_void_iff (ty : FrontEnd.Ty) : codeType ty = .void ↔ ty = .prim .void := by
  cases ty with
  | prim prim => cases prim <;> simp [codeType]
  | struct name item => simp [codeType]

theorem ty_constantOf (l : Literal) : (constantOf l).ty = codeType l.ty := by
  cases l <;> rfl

/-- What a written type is in the code is what it resolves to in the tree. -/
theorem exists_resolve (hm : ModuleAt s m root ids) (hmodule : s.moduleOf id = .ok (some root))
    {type : TypeName} {ty : Code.Ty} (h : TypeOf m type ty) :
    ∃ found, s.resolve type.ref id = .ok found ∧ codeType found = ty := by
  cases type with
  | prim prim => exact ⟨_, rfl, h.symm⟩
  | named name =>
    obtain ⟨own, fields, hdecl, rfl⟩ := h
    rcases resolve_cases hm hmodule name with
      ⟨-, own', fields', item, hdecl', hresolve⟩ | ⟨hnone, -⟩
    · cases hdecl.symm.trans hdecl'
      exact ⟨_, hresolve, rfl⟩
    · rcases hm.item?_cases name with ⟨hnone', -⟩ | ⟨d, item, _, _, hdecl', hitem, hat, -⟩
      · cases hdecl.symm.trans hnone'
      · cases hdecl.symm.trans hdecl'
        cases hat with
        | struct _ _ _ hnode => exact absurd ((namesStruct_iff hitem hnode).mpr ⟨_, rfl⟩) hnone

/-- Wherever a literal is visited for its operand, that is its constant. -/
theorem goes_operand_literal {l : Literal} {reuse : Bool}
    (h : s.construct id = .ok (.literal l)) (n : Nat) (st : State) :
    Goes (operand (visit (n + 1)) id) ⟨s, reuse⟩ st (.const (constantOf l)) st := by
  have hvisit : Goes (visit (n + 1) id) ⟨s, reuse⟩ st (.operand (.const (constantOf l))) st := by
    refine Goes.then (goes_ask h st) ?_
    rfl
  exact (ends_operand (hvisit.ends ⟨_, rfl, rfl, rfl⟩)).goes

/-! ## Calls in code -/

/-- The instruction for a call: it goes to the function of that name with as many operands, what
that returns is the type of the call, and there is no output exactly if that is void. -/
inductive CallFor (s : Store) (P : Program) : NodeId → Instr → Prop
  | mk {id : NodeId} {c : CallNode} {target : Nat} {operands : List Operand}
      {output : Option Nat} {F : Func} {ty : FrontEnd.Ty} : s.construct id = .ok (.call c) →
      P.functions[target]? = some F → F.name.same c.callee = true →
      operands.length = c.arguments.length → s.typeOf id = .ok ty →
      codeType ty = F.signature.returnType → (ty = .prim .void ↔ output = none) →
      CallFor s P id (.call target operands output)

/-- An instruction that is a written call is the one for the node of the call. -/
theorem callFor_of_targets (hm : ModuleAt s m root ids) (hnamed : m.WellNamed)
    (hstems : Stems m P) (hwell : s.WellFormedBelow Coerces root root) (hbelow : s.Below root id)
    (hkind : s.HasKind [.call] id) {written : Ident × Nat} (hcall : CallsAt s id written)
    {instr : Instr} (htargets : Targets P written instr) (hlinked : Linked P instr) :
    CallFor s P id instr := by
  have hexpression : s.HasKind Kind.expressions id := hkind.mono (by simp [Kind.expressions])
  obtain ⟨hmodule, -⟩ := (answeredBelow_module hm hnamed id hbelow
    (hexpression.mono (List.subset_cons_self _ _))).expression hexpression
  cases instr with
  | move _ _ | load _ _ | binary _ _ _ _ | ret _ => exact htargets.elim
  | call target operands output =>
    obtain ⟨c, hc, hname, hcount⟩ := hcall
    obtain ⟨⟨F, hF, hsame⟩, hlength⟩ := htargets
    obtain ⟨F', hF', -, houtput⟩ := hlinked
    obtain rfl := Option.some.inj (hF.symm.trans hF')
    rw [← hname] at hsame
    rw [← hcount] at hlength
    rcases calleePrototype_cases hm hnamed hmodule c.callee with
      ⟨d, proto, prototype, hcallee, hcallable⟩ | ⟨hnone, -⟩
    · -- The function at the target stems from the declaration that is called.
      obtain ⟨d', hd', proto', hproto', hfunction⟩ := hstems.functions F (List.mem_of_getElem? hF)
      obtain ⟨hd, hdsame⟩ := mem_of_item? hcallable.item
      obtain rfl : d' = d := by
        refine eq_of_same_name hnamed hd' hd ?_
        rw [name_eq_of_proto? hproto', ← hfunction.name]
        exact Ident.same_trans hsame (by rwa [Ident.same_comm])
      obtain rfl := Option.some.inj (hproto'.symm.trans hcallable.proto?_eq)
      obtain ⟨node, names, hread, hmodule', q, hresult⟩ := hcallable.result
      obtain ⟨ty, hresolve, hty⟩ := exists_resolve hm hmodule' hfunction.result
      refine .mk hc hF hsame hlength ?_ hty ?_
      · rw [typeOf, typeWithin_call hc hcallee hread, resolveAt_eq hresult.has, hresolve]
      · rw [houtput, ← hty, codeType_eq_void_iff]
    · obtain ⟨node, hget, hnode⟩ := exists_of_construct hc
      have hat := hwell id node hbelow hget
      rw [hnode] at hat
      obtain ⟨a, ha, -⟩ := hat
      exact absurd ha (hnone a)

/-- The constant for a literal is of its type. -/
def ConstantFor (s : Store) (id : NodeId) (value : Constant) : Prop :=
  ∃ l ty, s.construct id = .ok (.literal l) ∧ value = constantOf l ∧ s.typeOf id = .ok ty ∧
    value.ty = codeType ty

theorem constantFor_constantOf {l : Literal} (h : s.construct id = .ok (.literal l)) :
    ConstantFor s id (constantOf l) :=
  ⟨l, l.ty, h, rfl, typeWithin_literal h _, ty_constantOf l⟩

/-! ## Agreement -/

/-- The types in a body agree with its code. -/
structure CodeAgrees (s : Store) (P : Program) (body : NodeId) (code : List Instr) : Prop where
  /-- There is one instruction for each call, in order. -/
  calls : ∃ nodes, (∀ id, id ∈ nodes ↔ s.Below body id ∧ s.HasKind [.call] id) ∧
    nodes.Pairwise (fun a b => a.index < b.index) ∧
    List.Forall₂ (CallFor s P) nodes (code.filter isCall)
  /-- There is one constant for each literal, but for those that are statements of their own. -/
  literals : ∃ nodes values, (∀ id, id ∈ nodes ↔ s.Below body id ∧ s.IsOperand id) ∧
    nodes.Pairwise (fun a b => a.index < b.index) ∧
    List.Forall₂ (ConstantFor s) nodes values ∧ (constants code).Perm values

/-- The types that are found in the tree of a module with these items agree with a program. -/
structure Agrees (s : Store) (root : NodeId) (items : List NodeId) (P : Program) : Prop where
  expression : ∀ id, s.Below root id → s.HasKind Kind.expressions id → ∃ ty, s.typeOf id = .ok ty
  declaration : ∀ id, s.Below root id → s.HasKind [.varDecl] id → ∃ ty, s.declaredType id = .ok ty
  /-- Wherever a literal is visited for its operand, that is its constant. -/
  literal : ∀ id, s.Below root id → s.HasKind [.literal] id → ∃ value, ConstantFor s id value ∧
    ∀ n st, Goes (operand (visit (n + 1)) id) ⟨s, true⟩ st (.const value) st
  /-- The initial value of a global is the constant of its literal, adapted to the type of the
  global. -/
  initial : ∀ item ∈ items, ∀ g value l, s.construct item = .ok (.global g) →
    g.value = some value → s.construct value = .ok (.literal l) → ∃ G ∈ P.globals, ∃ ty init,
      G.name = g.name ∧ s.resolveAt g.type item = .ok ty ∧ G.ty = codeType ty ∧
      G.init = some init ∧ coerce (constantOf l) G.ty = .ok init ∧ init.ty = G.ty
  /-- Calls stand in functions only. -/
  call : ∀ id, s.Below root id → s.HasKind [.call] id →
    ∃ item ∈ items, ∃ f, s.construct item = .ok (.function f) ∧ s.Below f.body id
  function : ∀ item ∈ items, ∀ f, s.construct item = .ok (.function f) →
    ∃ prototype F code, s.read .prototype f.prototype = .ok prototype ∧ F ∈ P.functions ∧
      F.name = prototype.name ∧ F.body = some code ∧ CodeAgrees s P f.body code

section Module

variable (hm : ModuleAt s m root ids) (hnamed : m.WellNamed)
include hm hnamed

/-- Calls stand in the bodies of functions. -/
theorem exists_body_of_call (hbelow : s.Below root id) (hkind : s.HasKind [.call] id) :
    ∃ item ∈ ids, ∃ f, s.construct item = .ok (.function f) ∧ s.Below f.body id := by
  have hroot := hm.root
  obtain ⟨span, hget⟩ := hroot
  rcases hbelow.cases_head hget with rfl | ⟨item, hitem, hbelow⟩
  · have := hm.root.hasKind_iff.mp hkind
    simp [Construct.kind] at this
  · obtain ⟨d, -, hd⟩ := exists_of_forall₂_mem (hm.standing hnamed (Nat.le_succ _)) hitem
    rcases hd.typed_cases _ hbelow (hkind.mono (by simp [Kind.typed, Kind.expressions])) with
      ⟨f, hf, hbody⟩ | ⟨l, p, hl⟩
    · exact ⟨item, hitem, f, hf, hbody⟩
    · have := hl.has.hasKind_iff.mp hkind
      simp [Construct.kind] at this

/-- The global for a declaration with an initial value. -/
theorem exists_initial (hinventory : Inventory m P) {item value : NodeId} (hitem : item ∈ ids)
    {g : GlobalNode} {l : Literal} (hg : s.construct item = .ok (.global g))
    (hvalue : g.value = some value) (hl : s.construct value = .ok (.literal l)) :
    ∃ G ∈ P.globals, ∃ ty init, G.name = g.name ∧ s.resolveAt g.type item = .ok ty ∧
      G.ty = codeType ty ∧ G.init = some init ∧ coerce (constantOf l) G.ty = .ok init ∧
      init.ty = G.ty := by
  obtain ⟨d, hmem, hd⟩ := exists_of_forall₂_mem (hm.standing hnamed (Nat.le_succ _)) hitem
  have hkind := hd.kind_eq hg
  cases d with
  | struct _ _ | external _ _ | function _ _ _ => cases hkind
  | global type own initial =>
    obtain ⟨t, v, hnode, ⟨q, htype⟩, hinitial⟩ := hd
    cases Except.ok.inj (hg.symm.trans hnode.has.construct_eq)
    have hmem' : .global type own initial ∈ m.decls.filter fun d => (globalName? d).isSome :=
      List.mem_filter.mpr ⟨hmem, rfl⟩
    obtain ⟨G, hG, hfor⟩ := exists_of_forall₂_mem (List.Forall₂.flip hinventory.globals) hmem'
    cases hinitial with
    | none => cases hvalue
    | some hlit =>
      cases hvalue
      obtain ⟨r, hlit⟩ := hlit
      cases Except.ok.inj (hl.symm.trans hlit.has.construct_eq)
      cases hfor with
      | @mk _ _ _ ty init hty hinitial =>
        obtain ⟨init, hcoerce, rfl⟩ := hinitial
        obtain ⟨found, hresolve, hfound⟩ := exists_resolve hm hnode.moduleOf hty
        refine ⟨_, hG, found, init, rfl, ?_, hfound.symm, rfl, hcoerce, ty_of_coerce hcoerce⟩
        rw [resolveAt_eq htype.has, hresolve]

/-- A function has code that agrees with the types in its body. -/
theorem exists_codeAgrees (hstems : Stems m P) (htracks : Tracks s root m m.decls P)
    (hwell : s.WellFormedBelow Coerces root root) {item : NodeId} (hitem : item ∈ ids)
    {f : FunctionNode} (hf : s.construct item = .ok (.function f)) :
    ∃ prototype F code, s.read .prototype f.prototype = .ok prototype ∧ F ∈ P.functions ∧
      F.name = prototype.name ∧ F.body = some code ∧ CodeAgrees s P f.body code := by
  obtain ⟨d, hd, lo, hi, hlo, hhi, hat⟩ := hm.decls.exists_of_mem hitem
  cases hat with
  | struct _ _ _ hother | global _ _ _ _ hother | external _ _ _ _ hother =>
    cases hf.symm.trans hother.construct_eq
  | @function _ _ _ _ _ _ attributes proto body attrs prototype block _ _ hproto hbody _ _ hnode =>
    obtain rfl := Construct.function.inj (Except.ok.inj (hf.symm.trans hnode.construct_eq))
    obtain ⟨list, result, params, hread, -⟩ := hproto.read_eq
    obtain ⟨i, F, code, hF, hname, hcode, hmain⟩ := htracks.compiled hd
    have hFmem := List.mem_of_getElem? hF
    have hlinked := (hstems.bodies F hFmem code hcode).2
    obtain ⟨calls, hcalls⟩ := exists_calls hbody
    obtain ⟨literals, hliterals⟩ := exists_literals hbody
    have hbelow : ∀ id, id ∈ calls ↔ s.Below block id ∧ s.HasKind [.call] id := by
      simpa using hcalls.mem_iff
    refine ⟨_, F, code, hread, hFmem, hname, hcode, ⟨calls, hbelow, hcalls.ascending, ?_⟩,
      literals, _, by simpa using hliterals.mem_iff, hliterals.ascending, ?_, hmain.constants_perm⟩
    · refine forall₂_of_forall₂ (List.Forall₂.flip hcalls.related) hmain.resolved.calls
        fun written id hid instr hinstr hcall htargets => ?_
      obtain ⟨hid, hkind⟩ := (hbelow id).mp hid
      obtain ⟨span, hget⟩ := hm.root
      obtain ⟨span', hget'⟩ := hnode
      have hroot : s.Below root id :=
        (hid.head hget' (by simp [Construct.children])).head hget hitem
      exact callFor_of_targets hm hnamed hstems hwell hroot hkind hcall htargets
        (hlinked instr (List.mem_filter.mp hinstr).1)
    · rw [List.forall₂_map_right_iff]
      exact hliterals.related.imp fun id l hl => constantFor_constantOf hl

/-- The types of a module that is lowered into an empty program agree with what it leaves. -/
theorem agrees_lowerModule (name : String)
    (hlower : ((lowerModule root).runOn ⟨s, true⟩ (.empty name)).result = .ok ()) :
    Agrees s root ids ((lowerModule root).runOn ⟨s, true⟩ (.empty name)).program := by
  have hanswered := answeredBelow_module hm hnamed
  obtain ⟨hchanges, -⟩ := changes_lowerModule hm hnamed (.empty name)
  have hstems := hchanges.invariant (.empty m name) Change.stems
  have hinventory := inventory_lowerModule hm hnamed name hlower
  obtain ⟨htracks, hwell⟩ := tracks_lowerModule hm hnamed name hlower
  constructor
  · intro id hbelow hkind
    have hlt := hkind.index_lt
    exact (((hanswered id hbelow (hkind.mono (List.subset_cons_self _ _))).expression hkind).2 _
      (by omega)).exists_ty hwell
  · intro id hbelow hkind
    have hanswer := hanswered id hbelow (hkind.mono (by simp [Kind.typed]))
    exact (hanswer.declaration hkind).exists_ty hwell
  · intro id _ hkind
    obtain ⟨l, hl⟩ := hkind.exists_literal
    exact ⟨_, constantFor_constantOf hl, goes_operand_literal hl⟩
  · intro item hitem g value l hg hvalue hl
    exact exists_initial hm hnamed hinventory hitem hg hvalue hl
  · intro id hbelow hkind
    exact exists_body_of_call hm hnamed hbelow hkind
  · intro item hitem f hf
    exact exists_codeAgrees hm hnamed hstems htracks hwell hitem hf

end Module

/-! ## Modules that are parsed and lowered -/

variable {tokens : List (Located Token)} {store : Store} {notices : Notices} {parsed : Parsed}

/-- In a module that was parsed, questions about types come to an end without a fault, whatever
else was parsed into the store since.  If the module is lowered into an empty program, they have
answers that agree with it. -/
theorem typeOf_lowerModule (hparse : parseModule tokens store notices = .ok parsed)
    (hroot : parsed.result = .ok root) (hfills : Fills parsed.store s) :
    (∀ id, s.Below root id → s.HasKind Kind.expressions id →
      ∀ fault, s.typeOf id ≠ .error (.fault fault)) ∧
    (∀ id, s.Below root id → s.HasKind [.varDecl] id →
      ∀ fault, s.declaredType id ≠ .error (.fault fault)) ∧
    ∀ name, let lowered := (lowerModule root).runOn ⟨s, true⟩ (.empty name)
      lowered.result = .ok () →
        ∃ node, s.read .module root = .ok node ∧ Agrees s root node.items lowered.program := by
  obtain ⟨m, ids, hm, hnamed, -⟩ := parseModule_sound hparse hroot
  have hm' := hm.grow hfills.grown
  have hanswered := answeredBelow_module hm' hnamed
  refine ⟨fun id hbelow hkind => ?_, fun id hbelow hkind => ?_, ?_⟩
  · have hlt := hkind.index_lt
    exact (((hanswered id hbelow (hkind.mono (List.subset_cons_self _ _))).expression hkind).2 _
      (by omega)).ne_fault
  · exact ((hanswered id hbelow (hkind.mono (by simp [Kind.typed]))).declaration hkind).ne_fault
  · intro name lowered hlower
    exact ⟨_, hm'.root.read_eq rfl, agrees_lowerModule hm' hnamed name hlower⟩

/-- A function with variables that have the types of each other, and with calls in each other. -/
def inferring : Phrase.Module where
  name := ⟨"m"⟩
  decls :=
    [.global (.prim (.int .w8)) ⟨"seed"⟩ (some (.int 5)),
      .function [] ⟨⟨"main"⟩, [⟨.named ⟨"point"⟩, ⟨"p"⟩⟩], false, .prim .void⟩
        [.varDecl ⟨"a"⟩ none (.literal (.int 1)),
          .varDecl ⟨"b"⟩ none (.reference ⟨"A"⟩),
          .block [.varDecl ⟨"a"⟩ none (.binary .less (.reference ⟨"b"⟩) (.reference ⟨"seed"⟩)),
            .varDecl ⟨"b"⟩ none (.reference ⟨"a"⟩),
            .exprStatement (.call ⟨"show"⟩ [.call ⟨"Twice"⟩ [.reference ⟨"b"⟩], .reference ⟨"p"⟩])],
          .varDecl ⟨"c"⟩ (some (.named ⟨"Point"⟩)) (.reference ⟨"b"⟩)],
      .external [] ⟨⟨"show"⟩, [], true, .prim .void⟩,
      .function [] ⟨⟨"twice"⟩, [⟨.prim (.int .w32), ⟨"v"⟩⟩], false, .prim (.int .w32)⟩
        [.ret (some (.binary .add (.reference ⟨"v"⟩) (.reference ⟨"v"⟩)))],
      .struct ⟨"point"⟩ [⟨.prim (.int .w64), ⟨"x"⟩⟩]]

theorem typeOf_lowerModule_inferring :
    let tokens : List (Located Token) :=
      (inferring.tokens ++ [Token.eof]).map fun t => ⟨t, default⟩
    ∃ parsed root node, parseModule tokens .empty #[] = .ok parsed ∧ parsed.result = .ok root ∧
      parsed.store.read .module root = .ok node ∧ node.items.length = 5 ∧
      let lowered := (lowerModule root).runOn ⟨parsed.store, true⟩ (.empty "")
      lowered.result = .ok () ∧ Agrees parsed.store root node.items lowered.program := by
  intro tokens
  have htokens : tokens.map Located.value = inferring.tokens ++ [.eof] := by
    simp [tokens, Function.comp_def]
  obtain ⟨parsed, root, ids, hparse, hroot, hm, hlower⟩ :=
    exists_lowered "" (by decide) (by decide) htokens (by decide +kernel)
  obtain ⟨-, -, hagrees⟩ := typeOf_lowerModule hparse hroot .refl
  obtain ⟨node, hnode, hagrees⟩ := hagrees "" hlower
  obtain rfl := Except.ok.inj (hnode.symm.trans (hm.root.read_eq rfl))
  exact ⟨parsed, root, _, hparse, hroot, hnode, hm.decls.length_eq, hlower, hagrees⟩

/-- Tokens are parsed as a module and lowered; the item and the type of the literal at two nodes,
and the globals of the program. -/
def itemAndType (tokens : List (Located Token)) (item literal : NodeId) :
    Option (Construct × FrontEnd.Ty × List GlobalVar) := do
  let parsed ← (parseModule tokens .empty #[]).toOption
  let root ← parsed.result.toOption
  let lowered := (lowerModule root).runOn ⟨parsed.store, true⟩ (.empty "")
  let _ ← lowered.result.toOption
  let c ← (parsed.store.construct item).toOption
  let ty ← (parsed.store.typeOf literal).toOption
  return (c, ty, lowered.program.globals)

/-- A global whose type is not that of its literal. -/
def adapting : Phrase.Module where
  name := ⟨"m"⟩
  decls := [.global (.prim (.int .w8)) ⟨"g"⟩ (some (.int 5))]

theorem typeOf_ne_initial_adapting :
    let tokens : List (Located Token) :=
      (adapting.tokens ++ [Token.eof]).map fun t => ⟨t, default⟩
    ∃ parsed root, parseModule tokens .empty #[] = .ok parsed ∧ parsed.result = .ok root ∧
      let lowered := (lowerModule root).runOn ⟨parsed.store, true⟩ (.empty "")
      lowered.result = .ok () ∧
        parsed.store.construct ⟨3⟩ = .ok (.global ⟨⟨"g"⟩, ⟨1⟩, some ⟨2⟩⟩) ∧
        parsed.store.typeOf ⟨2⟩ = .ok (.prim (.int .w32)) ∧
        lowered.program.globals = [⟨⟨"g"⟩, .int 8, some (.int 5 8)⟩] ∧
        (Constant.int 5 8).ty ≠ codeType (.prim (.int .w32)) := by
  intro tokens
  have hrun : itemAndType tokens ⟨3⟩ ⟨2⟩ = some (.global ⟨⟨"g"⟩, ⟨1⟩, some ⟨2⟩⟩,
      .prim (.int .w32), [⟨⟨"g"⟩, .int 8, some (.int 5 8)⟩]) := by decide +kernel
  rw [itemAndType] at hrun
  simp only [Option.bind_eq_bind, Option.bind_eq_some_iff, toOption_eq_some_iff, Option.pure_def,
    Option.some.injEq, Prod.mk.injEq] at hrun
  obtain ⟨parsed, hparse, root, hroot, _, hlower, c, hc, ty, hty, rfl, rfl, hglobals⟩ := hrun
  exact ⟨parsed, root, hparse, hroot, hlower, hc, hty, hglobals, by decide⟩

end FrontEnd.Lowering
