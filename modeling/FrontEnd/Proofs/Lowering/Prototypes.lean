import FrontEnd.Proofs.Lowering.Conditions
import FrontEnd.Proofs.Lowering.Order
import FrontEnd.Proofs.Lowering.Stacks

/-!
# Lowering types and prototypes

Visiting a written type gives its type in the code, and visiting a prototype gives the place of
its function, which is declared unless the program has it.  Whatever the program holds, nothing
else is added to it.

A program may hold functions of other modules, of which nothing is known but their names.  If it is
known to hold only what the declarations before say, then visiting is refused only where the tree
is not well formed, and the error is about a node of the tree.

## Main definitions

* `Coerces`: the literals that are taken as initial values of a type.
* `Refutes`: what an error tells about the tree.
* `Walks`: a step inside a declaration.
-/

namespace FrontEnd.Lowering

open Code (Func Instr Operand Program Signature)
open Phrase Store

variable {α β : Type} {s : Store} {m : Phrase.Module} {root id : NodeId} {ids nodes : List NodeId}
  {names : List (Ident × NodeId)} {p : Option NodeId} {c : Construct} {st st' : State}
  {step : Lower α} {a : α} {good : α → State → Prop} {known : Prop} {needed more : List Ident}
  {done : List Decl} {d : Decl} {proto : Proto} {P P' : Program} {F : Func} {ty : Code.Ty} {i : Nat}

/-! ## Refusals -/

/-- A literal is taken as the initial value of a global of a type. -/
def Coerces (l : Literal) (ty : Ty) : Prop :=
  ∃ value, coerce (constantOf l) (codeType ty) = .ok value

/-- An initial value has the type of its global. -/
theorem ty_of_coerce {c value : Code.Constant} (h : coerce c ty = .ok value) : value.ty = ty := by
  unfold coerce at h
  split at h <;> split at h <;> cases h
  · rfl
  · assumption

/-- An error is about a construct.  A name is unresolved where it means nothing. -/
def Blames (s : Store) (root id : NodeId) : LoweringError → Construct → Prop
  | .unresolved name, .reference used => used = name ∧ s.lookup id name = .ok none
  | .unresolved name, .call c => c.callee = name ∧ s.itemNamed? root name = none
  | .notAValue name, .reference used => used = name
  | .notAFunction name, .call c => c.callee = name
  | .unknownType name, .typeRef ref => ref = .named name
  | .callArity _ _ found, .call c => found = c.arguments.length
  | .missingReturn _, .function _ => True
  | .initializerMismatch _ _ _, .literal _ => True
  | _, _ => False

/-- An error tells that the tree of a module is not well formed, at a node of it. -/
structure Refutes (s : Store) (root : NodeId) (error : Located LoweringError) : Prop where
  illFormed : ¬ s.WellFormedBelow Coerces root root
  blames : ∃ id c, s.Below root id ∧ s.construct id = .ok c ∧
    s.nearestSpan id = .ok error.span ∧ Blames s root id error.value c

/-- Visiting a node is visiting its construct. -/
theorem ends_visit {bad : Located LoweringError → State → Prop} {good : Yield → State → Prop}
    {n : Nat} (hnode : s.Has p id c)
    (h : Ends (visitConstruct (visit n) id c) ⟨s, true⟩ st good bad) :
    Ends (visit (n + 1) id) ⟨s, true⟩ st good bad :=
  Goes.bind (goes_ask hnode.construct_eq st) h

/-! ## Steps inside a declaration -/

/-- A step declares functions of the module, for the names that it needs if it has a result.  If the
program is known, then a refusal refutes the tree.  The step does not fault. -/
def Walks (s : Store) (root : NodeId) (m : Phrase.Module) (known : Prop) (needed : List Ident)
    (step : Lower α) (st : State) (good : α → State → Prop) : Prop :=
  Ends step ⟨s, true⟩ st
    (fun a st' => (Declares m st.program st'.program ∧ Needs needed st.program st'.program) ∧
      good a st')
    fun error st' => Declares m st.program st'.program ∧ (known → Refutes s root error)

namespace Walks

variable {mid : α → State → Prop} {k : α → Lower β}

theorem bind {good : β → State → Prop}
    (h : Walks s root m known needed step st mid)
    (hk : ∀ a st', Declares m st.program st'.program → mid a st' →
      Walks s root m known more (k a) st' good) :
    Walks s root m known (needed ++ more) (step >>= k) st good := by
  refine Ends.bind h fun a st' hmid => ?_
  obtain ⟨⟨hdeclares, hneeds⟩, hmid⟩ := hmid
  exact (hk a st' hdeclares hmid).mono
    (fun _ _ h => ⟨⟨hdeclares.trans h.1.1, hneeds.trans h.1.2⟩, h.2⟩)
    fun _ _ h => ⟨hdeclares.trans h.1, h.2⟩

/-- A step after one that needs nothing. -/
theorem after {good : β → State → Prop}
    (h : Walks s root m known [] step st mid)
    (hk : ∀ a st', Declares m st.program st'.program → mid a st' →
      Walks s root m known needed (k a) st' good) :
    Walks s root m known needed (step >>= k) st good :=
  h.bind hk

/-- A step before one that needs nothing. -/
theorem before {good : β → State → Prop}
    (h : Walks s root m known needed step st mid)
    (hk : ∀ a st', Declares m st.program st'.program → mid a st' →
      Walks s root m known [] (k a) st' good) :
    Walks s root m known needed (step >>= k) st good := by
  rw [← List.append_nil needed]
  exact h.bind hk

theorem imp {good' : α → State → Prop} (h : Walks s root m known needed step st good)
    (himp : ∀ a st', good a st' → good' a st') : Walks s root m known needed step st good' :=
  Ends.imp h fun a st' h => ⟨h.1, himp a st' h.2⟩

theorem pure (h : good a st) : Walks s root m known [] (pure a) st good := ⟨⟨.refl, .refl _⟩, h⟩

/-- The program has a function of a name that is needed. -/
theorem again {name : Ident} (hF : F ∈ st.program.functions) (hsame : F.name.same name = true)
    (h : Walks s root m known needed step st good) :
    Walks s root m known (name :: needed) step st good :=
  Ends.imp h fun _ _ h => ⟨⟨h.1.1, (Needs.again hF hsame).trans h.1.2⟩, h.2⟩

theorem refuse {error : LoweringError} (h : s.Situated root names p id c)
    (hbad : known → ¬ s.WellFormedBelow Coerces root root ∧ Blames s root id error c) :
    Walks s root m known needed (refuse id error) st good :=
  ends_refuse h.span fun _ hspan => ⟨.refl, fun hknown =>
    ⟨(hbad hknown).1, id, c, h.below, h.has.construct_eq, hspan, (hbad hknown).2⟩⟩

/-- A node that violates its own condition is refused. -/
theorem refuse_at {error : LoweringError} (h : s.Situated root names p id c)
    (hat : known → ¬ s.WellFormedAt Coerces root id c) (hblames : Blames s root id error c) :
    Walks s root m known needed (Lowering.refuse id error) st good :=
  refuse h fun hknown => ⟨not_wellFormedBelow h.below h.has (hat hknown), hblames⟩

/-- What is refused goes no further. -/
theorem stop {good : β → State → Prop} (h : Walks s root m known needed step st fun _ _ => False) :
    Walks s root m known needed (step >>= k) st good :=
  Ends.bind (Ends.imp h fun _ _ h => h.2) fun _ _ h => h.elim

theorem discard {good : Unit → State → Prop}
    (h : Walks s root m known needed step st fun _ => good ()) :
    Walks s root m known needed (discard step) st good :=
  h.before fun _ _ _ hgood => .pure hgood

/-- A step for each element of a list, none of which changes the state. -/
theorem mapM {γ δ : Type} {R : δ → α → Prop} {f : γ → Lower α} {ds : List δ} {xs : List γ}
    (h : List.Forall₂
      (fun d x => Walks s root m known [] (f x) st fun a st' => st' = st ∧ R d a) ds xs) :
    Walks s root m known [] (xs.mapM f) st fun as st' => st' = st ∧ List.Forall₂ R ds as := by
  induction h with
  | nil => exact .pure ⟨rfl, .nil⟩
  | cons hhead _ ih =>
    rw [List.mapM_cons]
    refine hhead.after fun a st₁ _ ha => ?_
    obtain ⟨rfl, ha⟩ := ha
    refine ih.after fun as st₂ _ has => ?_
    obtain ⟨rfl, has⟩ := has
    exact .pure ⟨rfl, .cons ha has⟩

theorem visit {good : Yield → State → Prop} {k : Nat} (hnode : s.Has p id c)
    (h : Walks s root m known needed (visitConstruct (visit k) id c) st good) :
    Walks s root m known needed (visit (k + 1) id) st good :=
  ends_visit hnode h

theorem operand {k : Nat} {good : Operand → State → Prop}
    (h : Walks s root m known needed (Lowering.visit k id) st fun y st' =>
      ∃ op, y = .operand op ∧ good op st') :
    Walks s root m known needed (operand (Lowering.visit k) id) st good := by
  refine ends_operand (Ends.imp h fun y st' hy => ?_)
  obtain ⟨hdeclares, op, rfl, hgood⟩ := hy
  exact ⟨op, rfl, hdeclares, hgood⟩

theorem type {k : Nat} {good : Code.Ty → State → Prop}
    (h : Walks s root m known needed (Lowering.visit k id) st fun y st' =>
      ∃ ty, y = .type ty ∧ good ty st') :
    Walks s root m known needed (type (Lowering.visit k) id) st good := by
  refine ends_type (Ends.imp h fun y st' hy => ?_)
  obtain ⟨hdeclares, ty, rfl, hgood⟩ := hy
  exact ⟨ty, rfl, hdeclares, hgood⟩

theorem statement {k : Nat} {good : Unit → State → Prop}
    (h : Walks s root m known needed (Lowering.visit k id) st fun y st' =>
      y = .nothing ∧ good () st') :
    Walks s root m known needed (statement (Lowering.visit k) id) st good := by
  refine ends_statement (Ends.imp h fun y st' hy => ?_)
  obtain ⟨hdeclares, rfl, hgood⟩ := hy
  exact ⟨rfl, hdeclares, hgood⟩

theorem functionOf {k : Nat} {good : Nat → State → Prop}
    (h : Walks s root m known needed (Lowering.visit k id) st fun y st' =>
      ∃ index, y = .operand (.function index) ∧ good index st') :
    Walks s root m known needed (functionOf (Lowering.visit k) id) st good := by
  refine ends_functionOf (Ends.imp h fun y st' hy => ?_)
  obtain ⟨hdeclares, index, rfl, hgood⟩ := hy
  exact ⟨index, rfl, hdeclares, hgood⟩

/-- A body in progress is taken away at the end, and when the step is refused. -/
theorem withBody {arguments : List NodeId} {step : Lower Unit} {good : Frame → State → Prop}
    (hframe : st.frame = none)
    (h : Walks s root m known needed step { st with frame := some (.ofArguments arguments) }
      fun _ st' => ∃ f, st'.frame = some f ∧ good f { st' with frame := none }) :
    Walks s root m known needed (withBody arguments step) st good := by
  refine ends_withBody hframe (Ends.imp h fun _ st' h => ?_)
  obtain ⟨hdeclares, f, hf, hgood⟩ := h
  exact ⟨f, hf, hdeclares, hgood⟩

end Walks

/-- A step that keeps the program comes first. -/
theorem Goes.walks_bind {k : α → Lower β} {good : β → State → Prop}
    (h : Goes step ⟨s, true⟩ st a st') (hprogram : st'.program = st.program)
    (hk : Walks s root m known needed (k a) st' good) :
    Walks s root m known needed (step >>= k) st good := by
  rw [Walks, hprogram] at hk
  exact Goes.bind h hk

/-! ## Types -/

theorem TypeOf.wellFormed {type : TypeName} (h : TypeOf m type ty) : type.WellFormed m.item? := by
  cases type with
  | prim type => trivial
  | named name =>
    obtain ⟨own, fields, hitem, -⟩ := h
    exact ⟨own, fields, hitem⟩

theorem TypeOf.void_iff {type : TypeName} (h : TypeOf m type ty) :
    ty = .void ↔ type = .prim .void := by
  cases type with
  | named name =>
    obtain ⟨own, fields, -, rfl⟩ := h
    simp
  | prim type =>
    rw [show ty = codeType (.prim type) from h]
    cases type <;> simp [codeType]

theorem wellFormed_of_typeOf {params : List Param} {tys : List Code.Ty}
    (h : List.Forall₂ (fun param ty => TypeOf m param.type ty) params tys) :
    ∀ param ∈ params, param.type.WellFormed m.item? := by
  induction h with
  | nil => simp
  | cons hhead _ ih => exact List.forall_mem_cons.mpr ⟨hhead.wellFormed, ih⟩

variable (hm : ModuleAt s m root ids)
include hm

/-- The name of a struct resolves, and no other name does. -/
theorem resolve_cases (hmodule : s.moduleOf id = .ok (some root)) (name : Ident) :
    (s.NamesStruct root name ∧ ∃ own fields item, m.item? name = some (.struct own fields) ∧
      s.resolve (.named name) id = .ok (.struct own item)) ∨
      (¬ s.NamesStruct root name ∧ ∃ error,
        s.resolve (.named name) id = .error (.unresolved error) ∧ LoweringError.ofResolve error = .unknownType name) := by
  have hread : s.read .module root = .ok _ := hm.root.read_eq rfl
  have hlookup : Scope.lookup ⟨(m.decls.map Decl.name).zip ids⟩ name = s.itemNamed? root name :=
    (hm.itemNamed?_eq name).symm
  simp only [Store.resolve, hmodule, liftM, monadLift,
    MonadLift.monadLift, Except.mapError, bind, Except.bind, hread, pure, Except.pure, hlookup]
  rcases hm.item?_cases name with ⟨-, hnone⟩ | ⟨d, item, lo', hi', hdecl, hitem, hat, -, -⟩
  · rw [hnone]
    refine .inr ⟨fun hstruct => ?_, _, rfl, rfl⟩
    obtain ⟨item, st, hitem, -⟩ := hstruct
    exact absurd (hitem.symm.trans hnone) (by simp)
  · rw [hitem]
    cases hat with
    | struct _ _ _ hn =>
      simp only [hn.construct_eq]
      exact .inl ⟨(namesStruct_iff hitem hn).mpr ⟨_, rfl⟩, _, _, _, hdecl, rfl⟩
    | global _ _ _ _ hn | external _ _ _ _ hn | function _ _ _ _ _ hn =>
      simp only [hn.construct_eq]
      exact .inr ⟨fun hstruct => by simpa using (namesStruct_iff hitem hn).mp hstruct, _, rfl, rfl⟩

theorem walks_type {type : TypeName} (h : s.TypeIn root names type id) (k : Nat) :
    Walks s root m known [] (Lowering.type (visit (k + 1)) id) st fun ty st' =>
      st' = st ∧ TypeOf m type ty := by
  obtain ⟨p, h⟩ := h
  refine .type (.visit h.has ?_)
  cases type with
  | prim type =>
    have hresolve : s.resolve (.known (.prim type)) id = .ok (.prim type) := rfl
    exact Goes.walks_bind (goes_resolveOr hresolve id st) rfl (.pure ⟨_, rfl, rfl, rfl⟩)
  | named name =>
    rcases resolve_cases hm h.moduleOf name with
      ⟨-, own, fields, item, hitem, hresolve⟩ | ⟨hnone, error, hresolve, herror⟩
    · exact Goes.walks_bind (goes_resolveOr hresolve id st) rfl
        (.pure ⟨_, rfl, rfl, own, fields, hitem, rfl⟩)
    · refine .stop (ends_resolveOr hresolve ?_)
      rw [herror]
      exact Walks.refuse_at h (fun _ => hnone) rfl

/-- The types of parameters. -/
theorem walks_params {params : List Param}
    (h : List.Forall₂ (s.ParamIn root names) params nodes) (k : Nat) (st : State) :
    List.Forall₂ (fun param node => Walks s root m known [] (Lowering.type (visit (k + 1)) node) st
      fun ty st' => st' = st ∧ TypeOf m param.type ty) params nodes :=
  h.imp fun _ _ hparam => walks_type hm hparam k

/-! ## Declared functions -/

theorem FunctionOf.registered (h : FunctionOf m proto F) :
    Registered s root F proto where
  name := h.name
  arity := h.parameters.length_eq.symm
  variadic := h.variadic
  void := h.result.void_iff
  params param hparam := (typeNamed_iff hm _).mpr (wellFormed_of_typeOf h.parameters param hparam)
  result := (typeNamed_iff hm _).mpr h.result.wellFormed

theorem Registered.wellFormed (h : Registered s root F proto) :
    proto.WellFormed m.item? :=
  ⟨fun param hparam => (typeNamed_iff hm _).mp (h.params param hparam),
    (typeNamed_iff hm _).mp h.result⟩

/-- What is known of a program is known after functions of the module were declared. -/
theorem Tracks.declares (h : Tracks s root m done P)
    (hdeclares : Declares m P P') : Tracks s root m done P' := by
  induction hdeclares with
  | refl => exact h
  | tail _ hstep ih =>
    obtain ⟨hd, hproto, hF, hbody, hnew⟩ := hstep
    exact ih.addFunction hd hproto (hF.registered hm) hbody hnew

omit hm in
theorem Declares.grows (h : Declares m P P') : Grows P P' := by
  rintro i name ⟨F, hF, hname⟩
  exact ⟨F, h.getElem? hF, hname⟩

/-! ## Prototypes -/

/-- The program has a function under the name of a prototype, without a body and with as many
parameters. -/
def Awaits (proto : Proto) (i : Nat) (P : Program) : Prop :=
  ∃ F : Func, P.functions[i]? = some F ∧ F.name.same proto.name = true ∧ F.body = none ∧
    F.signature.parameters.length = proto.params.length

omit hm in
theorem Awaits.declares (h : Awaits proto i P) (hdeclares : Declares m P P') :
    Awaits proto i P' := by
  obtain ⟨F, hF, h⟩ := h
  exact ⟨F, hdeclares.getElem? hF, h⟩

omit hm in
theorem Awaits.realizes (h : Awaits proto i P) :
    ∃ F ∈ P.functions, F.name.same proto.name = true := by
  obtain ⟨F, hF, hsame, -⟩ := h
  exact ⟨F, List.mem_of_getElem? hF, hsame⟩

omit hm in
/-- A function of any module is taken if it has no body and as many parameters. -/
theorem walks_reusePrototype (h : s.Situated root names p id c)
    (hF : st.program.functions[i]? = some F) (hsame : F.name.same proto.name = true)
    (hknown : known → F.hasBody = false ∧ F.signature.parameters.length = proto.params.length) :
    Walks s root m known [proto.name] (reusePrototype id proto.name proto.params.length i) st
      fun i st' => st'.frame = st.frame ∧ Awaits proto i st'.program := by
  refine Goes.walks_bind (goes_functionAt hF) rfl ?_
  by_cases hbody : F.hasBody = true
  · rw [if_pos hbody]
    refine .stop (Walks.refuse h fun hk => ?_)
    exact absurd hbody (by simp [(hknown hk).1])
  · rw [if_neg hbody]
    by_cases hcount : F.signature.parameters.length = proto.params.length
    · rw [if_neg (by simp [hcount])]
      refine .again (List.mem_of_getElem? hF) hsame (Goes.walks_bind (goes_note _ st _) rfl
        (.pure ⟨rfl, F, hF, hsame, ?_, hcount⟩))
      simpa [Func.hasBody] using hbody
    · rw [if_pos hcount]
      exact .stop (Walks.refuse h fun hk => absurd (hknown hk).2 hcount)

/-- A function whose name is free is declared. -/
theorem walks_registerPrototype {list result : NodeId}
    (hparams : List.Forall₂ (s.ParamIn root names) proto.params nodes)
    (hresult : s.TypeIn root names proto.result result) (hd : d ∈ m.decls)
    (hproto : d.proto? = some proto) (hnew : st.program.function? proto.name = none) (k : Nat) :
    Walks s root m known [proto.name] (registerPrototype (visit (k + 1))
      ⟨proto.name, list, result⟩ ⟨⟨(proto.params.map Param.name).zip nodes⟩, proto.variadic⟩) st
        fun i st' => st'.frame = st.frame ∧ Awaits proto i st'.program := by
  rw [registerPrototype]
  dsimp only
  rw [nodes_zip hparams.length_eq.symm]
  refine (Walks.mapM (walks_params hm hparams k st)).after fun tys st₁ _ htys => ?_
  obtain ⟨rfl, htys⟩ := htys
  refine (walks_type hm hresult k).after fun ty st₂ _ hty => ?_
  obtain ⟨rfl, hty⟩ := hty
  refine Goes.walks_bind (goes_note _ st₂ _) rfl (Goes.walks_bind (goes_get _ _) rfl ?_)
  dsimp only
  rw [declare_eq hnew]
  have hF : FunctionOf m proto ⟨proto.name, ⟨tys, proto.variadic, ty⟩, none⟩ :=
    ⟨rfl, htys, rfl, hty⟩
  have hdeclare : Declare m st₂.program (addFunction st₂.program _) := .mk hd hproto hF rfl hnew
  refine ⟨⟨.single hdeclare, .addFunction ⟨proto.name, _, none⟩ hnew⟩, rfl, _,
    List.getElem?_concat_length, Ident.same_refl _, rfl, ?_⟩
  exact htys.length_eq.symm

/-- Visiting a prototype of the module finds its function or declares it.  If the program is known,
that has no body yet. -/
theorem walks_functionOf (hnamed : m.WellNamed) (h : s.ProtoIn root names proto nodes id)
    (hd : d ∈ m.decls) (hproto : d.proto? = some proto)
    (htracks : known → Tracks s root m done st.program)
    (hbody : known → ∀ i F, st.program.function? proto.name = some i →
      st.program.functions[i]? = some F → F.hasBody = false) (k : Nat) :
    Walks s root m known [proto.name] (functionOf (visit (k + 2)) id) st fun i st' =>
      st'.frame = st.frame ∧ Awaits proto i st'.program := by
  obtain ⟨p, list, result, h, hlist, hparams, hresult⟩ := h
  refine .functionOf (.visit h.has ?_)
  refine Goes.walks_bind (goes_ask (hlist.read_eq rfl) st) rfl
    (Goes.walks_bind (goes_registered? s st _) rfl ?_)
  rw [size_zip hparams.length_eq.symm]
  dsimp only
  -- Whether found or declared, the function takes as many arguments as the prototype.
  rcases function?_cases st.program proto.name with ⟨hnone, -⟩ | ⟨i, F, hi, hF, hsame⟩
  case' inl =>
    rw [hnone]
    refine (walks_registerPrototype hm hparams hresult hd hproto hnone k).before
      fun i st' _ hfunction => ?_
  case' inr =>
    rw [hi]
    refine (walks_reusePrototype h hF hsame fun hk => ⟨hbody hk i F hi hF,
      ((htracks hk).registered_of_same hnamed hd hproto hF hsame).arity⟩).before
      fun i st' _ hfunction => ?_
  all_goals
    obtain ⟨F, hF, -, -, hcount⟩ := hfunction.2
    refine Goes.walks_bind (goes_functionAt hF) rfl ?_
    simp only [hcount, ne_eq, not_true_eq_false, ↓reduceIte]
    exact .pure ⟨i, rfl, hfunction⟩

end FrontEnd.Lowering
