import FrontEnd.Proofs.Lowering.Steps
import FrontEnd.Proofs.Grammar.Rendering
import FrontEnd.Proofs.Tree.Casing

/-!
# Lowering ignores the case of letters

Lowering compares names as names and copies them into the program, into errors and into events.  So
lowering a store in small letters into a program in small letters is lowering the store into the
program, and then putting all that comes of it in small letters.

`Folds f p q` says that `q` does in small letters what `p` does, where `f` is what becomes of the
value of `p`.  One rule for each way to put steps together gives one lemma for each kind of node.

## Main definitions

* `Code.Program.folded`, `LoweringError.folded`: programs and errors in small letters.
* `Folds`.

## Main statements

* `folds_visit`: visiting a node.
* `lowerModule_folded`: lowering a module.
-/

namespace FrontEnd

/-! ## Programs in small letters -/

namespace Code

/-- A type in small letters. -/
def Ty.folded : Ty → Ty
  | .struct name => .struct name.folded
  | ty => ty

/-- A signature in small letters. -/
def Signature.folded (s : Signature) : Signature :=
  { s with parameters := s.parameters.map Ty.folded, returnType := s.returnType.folded }

/-- An instruction in small letters. -/
def Instr.folded : Instr → Instr
  | .load source output => .load source.folded output
  | instr => instr

/-- A function in small letters. -/
def Func.folded (f : Func) : Func :=
  ⟨f.name.folded, f.signature.folded, f.body.map (List.map Instr.folded)⟩

/-- A struct type in small letters. -/
def StructType.folded (s : StructType) : StructType :=
  ⟨s.name.folded, s.fields.map fun field => (field.1.folded, field.2.folded)⟩

/-- A global in small letters. -/
def GlobalVar.folded (g : GlobalVar) : GlobalVar :=
  { g with name := g.name.folded, ty := g.ty.folded }

/-- A program in small letters. -/
def Program.folded (p : Program) : Program :=
  ⟨(Ident.mk p.name).folded.text, p.structs.map StructType.folded,
    p.globals.map GlobalVar.folded, p.functions.map Func.folded⟩

namespace Program

variable (p : Program)

theorem function?_folded (name : Ident) : p.folded.function? name.folded = p.function? name := by
  simp [function?, folded, List.findIdx?_map, Function.comp_def, Func.folded, Ident.same_folded]

theorem hasGlobal_folded (name : Ident) : p.folded.hasGlobal name.folded = p.hasGlobal name := by
  simp [hasGlobal, folded, Function.comp_def, GlobalVar.folded, Ident.same_folded]

theorem struct?_folded (name : Ident) :
    p.folded.struct? name.folded = (p.struct? name).map StructType.folded := by
  simp [struct?, folded, List.find?_map, Function.comp_def, StructType.folded, Ident.same_folded]

theorem function_folded (index : Nat) :
    p.folded.function index = (p.function index).map Func.folded := by
  simp only [function, folded, List.getElem?_map, List.length_map]
  cases p.functions[index]? <;> rfl

theorem declare_folded (name : Ident) (signature : Signature) :
    p.folded.declare name.folded signature.folded =
      ((p.declare name signature).1, (p.declare name signature).2.folded) := by
  rw [declare, declare, function?_folded]
  cases p.function? name with
  | some index => rfl
  | none => simp [folded, Func.folded]

theorem define_folded (index : Nat) (body : List Instr) :
    p.folded.define index (body.map Instr.folded) = (p.define index body).folded := by
  have hmodify : ∀ (fs : List Func) (i : Nat),
      (fs.map Func.folded).modify i (fun f => { f with body := some (body.map Instr.folded) }) =
        (fs.modify i fun f => { f with body := some body }).map Func.folded := by
    intro fs i
    refine List.ext_getElem? fun j => ?_
    simp only [List.getElem?_modify, List.getElem?_map]
    by_cases hij : i = j
    · cases fs[j]? <;> simp [hij, Func.folded]
    · simp [hij]
  exact congrArg (fun functions => Program.mk _ _ _ functions) (hmodify p.functions index)

theorem addStruct_folded (s : StructType) :
    p.folded.addStruct s.folded = (p.addStruct s).folded := by
  rw [addStruct, addStruct, show s.folded.name = s.name.folded from rfl, struct?_folded]
  cases p.struct? s.name with
  | some other => rfl
  | none => simp [folded]

theorem addGlobal_folded (g : GlobalVar) :
    p.folded.addGlobal g.folded = (p.addGlobal g).folded := by
  simp [addGlobal, folded]

theorem claimName_folded (name : Ident) :
    p.folded.claimName name.folded.text = (p.claimName name.text).folded := by
  have hempty : p.folded.name.isEmpty = p.name.isEmpty := by
    rw [Bool.eq_iff_iff, String.isEmpty_iff, String.isEmpty_iff, ← String.toList_inj,
      ← String.toList_inj]
    simp [folded, Ident.folded, Ident.key]
  rw [claimName, claimName, hempty]
  split <;> rfl

end Program

end Code

/-- A lowering error in small letters. -/
def LoweringError.folded : LoweringError → LoweringError
  | .erroneousTree count => .erroneousTree count
  | .redefinition name => .redefinition name.folded
  | .argumentCountMismatch name expected found => .argumentCountMismatch name.folded expected found
  | .unresolved name => .unresolved name.folded
  | .notAValue name => .notAValue name.folded
  | .notAFunction name => .notAFunction name.folded
  | .unknownType name => .unknownType name.folded
  | .callArity name expected found => .callArity name.folded expected found
  | .missingReturn name => .missingReturn name.folded
  | .initializerMismatch name expected found =>
    .initializerMismatch name.folded expected.folded found.folded

theorem LoweringError.ofResolve_folded (error : ResolveError) :
    ofResolve error.folded = (ofResolve error).folded := by
  cases error <;> rfl

/-- An event in small letters. -/
def Event.folded : Event → Event := Event.rename Ident.folded

namespace Lowering

open Code

/-! ## States and outcomes in small letters -/

/-- A body in progress, in small letters. -/
def Frame.folded (f : Frame) : Frame := { f with body := f.body.map Instr.folded }

/-- A state in small letters. -/
def State.folded (st : State) : State where
  program := st.program.folded
  frame := st.frame.map Frame.folded
  values := st.values
  types := st.types.map Code.Ty.folded
  events := st.events.map Event.folded

/-- A scene in small letters. -/
def Scene.folded (scene : Scene) : Scene := { scene with store := scene.store.folded }

/-- Why lowering stopped, in small letters. -/
def Halt.folded : Halt → Halt
  | .fault f => .fault f
  | .refused error => .refused (error.map LoweringError.folded)

/-- What a visit yields, in small letters. -/
def Yield.folded : Yield → Yield
  | .type ty => .type ty.folded
  | yielded => yielded

/-- An outcome in small letters, where `f` is what becomes of its value. -/
def outcome {α : Type} (f : α → α) : EStateM.Result Halt State α → EStateM.Result Halt State α
  | .ok a st => .ok (f a) st.folded
  | .error halt st => .error halt.folded st.folded

/-- A step does in small letters what another one does. -/
def Folds {α : Type} (f : α → α) (p q : Lower α) : Prop :=
  ∀ scene st, q scene.folded st.folded = outcome f (p scene st)

/-! ## Rules -/

section Rules

variable {α β : Type} {f : α → α} {g : β → β} {p q : Lower α} {x y : α → Lower β}

theorem folds_pure (a : α) : Folds f (pure a) (pure (f a)) := fun _ _ => rfl

theorem Folds.bind (hpq : Folds f p q) (hxy : ∀ a, Folds g (x a) (y (f a))) :
    Folds g (p >>= x) (q >>= y) := by
  intro scene st
  have hfirst := hpq scene st
  cases hrun : p scene st with
  | ok a st₁ =>
    rw [hrun] at hfirst
    rw [bind_of_ok hrun, bind_of_ok hfirst]
    exact hxy a scene st₁
  | error halt st₁ =>
    rw [hrun] at hfirst
    rw [bind_of_error hrun, bind_of_error hfirst]
    rfl

theorem folds_ite {c c' : Prop} [Decidable c] [Decidable c'] {p' q' : Lower α} (hc : c' ↔ c)
    (hpq : Folds f p q) (hpq' : Folds f p' q') :
    Folds f (if c then p else p') (if c' then q else q') := by
  by_cases h : c
  · rw [if_pos h, if_pos (hc.mpr h)]
    exact hpq
  · rw [if_neg h, if_neg fun h' => h (hc.mp h')]
    exact hpq'

theorem folds_discard (hpq : Folds f p q) : Folds id (discard p) (discard q) :=
  hpq.bind fun _ => folds_pure ()

theorem folds_mapM {γ : Type} {k : γ → γ} {p q : γ → Lower α} {xs : List γ}
    (h : ∀ a ∈ xs, Folds f (p a) (q (k a))) :
    Folds (List.map f) (xs.mapM p) ((xs.map k).mapM q) := by
  induction xs with
  | nil => exact folds_pure []
  | cons a rest ih =>
    rw [List.map_cons, List.mapM_cons, List.mapM_cons]
    refine (h a (by simp)).bind fun b => (ih fun a' ha' => h a' (by simp [ha'])).bind fun bs => ?_
    exact folds_pure (b :: bs)

theorem folds_mapM_nodes {p q : NodeId → Lower α} {nodes : List NodeId}
    (h : ∀ node, Folds f (p node) (q node)) :
    Folds (List.map f) (nodes.mapM p) (nodes.mapM q) := by
  have hnodes := @folds_mapM α f NodeId id p q nodes fun node _ => h node
  rwa [List.map_id] at hnodes

theorem folds_forM {p q : NodeId → Lower Unit} {xs : List NodeId}
    (h : ∀ a, Folds id (p a) (q a)) : Folds id (xs.forM p) (xs.forM q) := by
  induction xs with
  | nil => exact folds_pure ()
  | cons a rest ih => exact (h a).bind fun _ => ih

theorem folds_fault (fault : Fault) : Folds f (Lowering.fault fault) (Lowering.fault fault) :=
  fun _ _ => rfl

/-- Nothing comes after a fault. -/
theorem folds_fault_bind (fault : Fault) :
    Folds g (Lowering.fault fault >>= x) (Lowering.fault fault >>= y) :=
  fun _ _ => rfl

/-- A store in small letters answers in small letters. -/
theorem folds_ask {question question' : Store → Except Fault α}
    (h : ∀ s : Store, question' s.folded = (question s).map f) :
    Folds f (ask question) (ask question') := by
  intro scene st
  change check (question' scene.store.folded) _ _ = outcome f (check (question scene.store) _ _)
  rw [h]
  cases question scene.store <;> rfl

/-- An answer in which there are no names is the same in small letters. -/
theorem folds_ask_id {question question' : Store → Except Fault α}
    (h : ∀ s : Store, question' s.folded = question s) :
    Folds id (ask question) (ask question') := by
  refine folds_ask fun s => ?_
  rw [h]
  cases question s <;> rfl

theorem folds_refuse (node : NodeId) (error : LoweringError) :
    Folds f (refuse node error) (refuse node error.folded) :=
  (folds_ask_id fun s => s.nearestSpan_folded node).bind fun _ _ _ => rfl

/-- Nothing comes after an error. -/
theorem folds_refuse_bind (node : NodeId) (error : LoweringError) :
    Folds g (refuse node error >>= x) (refuse node error.folded >>= y) := by
  have hstop : ∀ (scene : Scene) (st : State) (error : LoweringError) (z : α → Lower β),
      (refuse node error >>= z) scene st = refuse node error scene st := by
    intro scene st error z
    change EStateM.bind (EStateM.bind (check (scene.store.nearestSpan node) scene) _) _ st =
      EStateM.bind (check (scene.store.nearestSpan node) scene) _ st
    cases scene.store.nearestSpan node <;> rfl
  intro scene st
  rw [hstop, hstop]
  exact folds_refuse node error scene st

theorem folds_resolveOr {question question' : Store → Resolve α} {node : NodeId}
    (h : ∀ s : Store, question' s.folded = Resolve.folded f (question s)) :
    Folds f (resolveOr node question) (resolveOr node question') := by
  intro scene st
  have hquestion := h scene.store
  rw [resolveOr, resolveOr, bind_of_ok (goes_read scene st),
    bind_of_ok (goes_read scene.folded st.folded),
    show scene.folded.store = scene.store.folded from rfl, hquestion]
  cases question scene.store with
  | ok a => rfl
  | error setback =>
    cases setback with
    | fault fault => rfl
    | unresolved error =>
      have hrefuse := @folds_refuse α f node (.ofResolve error) scene st
      rw [← LoweringError.ofResolve_folded] at hrefuse
      exact hrefuse

theorem folds_get : Folds State.folded get get := fun _ _ => rfl

theorem folds_set (st : State) : Folds id (set st : Lower PUnit) (set st.folded) := fun _ _ => rfl

theorem folds_modify {h h' : State → State} (hcommute : ∀ st, h' st.folded = (h st).folded) :
    Folds id (modify h : Lower Unit) (modify h') := by
  intro scene st
  exact congrArg (EStateM.Result.ok ()) (hcommute st)

theorem folds_note (event : Event) : Folds id (note event) (note event.folded) :=
  folds_modify fun st => by simp [State.folded]

theorem folds_modifyProgram {h h' : Program → Program}
    (hcommute : ∀ P : Program, h' P.folded = (h P).folded) :
    Folds id (modifyProgram h) (modifyProgram h') :=
  folds_modify fun st => by simp [State.folded, hcommute]

theorem folds_functionAt (index : Nat) :
    Folds Func.folded (functionAt index) (functionAt index) := by
  refine folds_get.bind fun st => ?_
  rw [show st.folded.program = st.program.folded from rfl, Program.function_folded]
  cases st.program.function index with
  | ok F => exact folds_pure F
  | error fault => exact folds_fault fault

theorem folds_registered? (name : Ident) :
    Folds id (registered? name) (registered? name.folded) := by
  intro scene st
  rw [registered?, registered?, bind_of_ok (goes_read scene st),
    bind_of_ok (goes_read scene.folded st.folded)]
  change (if scene.reuse then _ else _ : Lower _) _ _ = outcome id ((if scene.reuse then _ else _ :
    Lower _) _ _)
  split
  · exact congrArg (EStateM.Result.ok · st.folded) (st.program.function?_folded name)
  · rfl

/-! ### Frames -/

theorem folds_frame : Folds Frame.folded frame frame := by
  refine folds_get.bind fun st => ?_
  rw [show st.folded.frame = st.frame.map Frame.folded from rfl]
  cases st.frame with
  | some f => exact folds_pure f
  | none => exact folds_fault _

theorem folds_setFrame (f : Option Frame) :
    Folds id (setFrame f) (setFrame (f.map Frame.folded)) :=
  folds_modify fun _ => rfl

theorem folds_newSlot : Folds id newSlot newSlot :=
  folds_frame.bind fun f => (folds_setFrame (some { f with next := f.next + 1 })).bind fun _ =>
    folds_pure f.next

theorem folds_emit (instr : Instr) : Folds id (emit instr) (emit instr.folded) := by
  refine folds_frame.bind fun f => ?_
  have hset := folds_setFrame (some { f with body := f.body ++ [instr] })
  simpa [Frame.folded] using hset

theorem folds_bindTo (node : NodeId) (operand : Operand) :
    Folds id (bindTo node operand) (bindTo node operand) :=
  folds_frame.bind fun f =>
    folds_setFrame (some { f with bindings := (node, operand) :: f.bindings })

/-- A step with a body in progress of its own. -/
theorem folds_withBody {p q : Lower Unit} (hpq : Folds id p q) (arguments : List NodeId) :
    Folds Frame.folded (withBody arguments p) (withBody arguments q) := by
  have hdropping : Folds id (tryCatch p fun halt => do setFrame none; throw halt)
      (tryCatch q fun halt => do setFrame none; throw halt) := by
    intro scene st
    have hstep := hpq scene st
    cases hrun : p scene st with
    | ok a st' =>
      rw [hrun] at hstep
      rw [dropping_of_ok hrun, dropping_of_ok hstep]
      rfl
    | error halt st' =>
      rw [hrun] at hstep
      rw [dropping_of_error hrun, dropping_of_error hstep]
      rfl
  refine folds_get.bind fun st => folds_ite (by simp [State.folded]) (folds_fault_bind _) ?_
  exact (folds_setFrame (some (.ofArguments arguments))).bind fun _ => hdropping.bind fun _ =>
    folds_frame.bind fun done => (folds_setFrame none).bind fun _ => folds_pure done

end Rules

/-! ## Stacks -/

section Stacks

variable (node : NodeId) (before : State)

theorem folds_kind : Folds id (ask (·.kind node)) (ask (·.kind node)) :=
  folds_ask_id fun s => s.kind_folded node

theorem folds_popOperand : Folds id (popOperand node before) (popOperand node before.folded) := by
  refine folds_get.bind fun after => ?_
  obtain ⟨program, frame, values, types, events⟩ := after
  cases values with
  | nil => exact (folds_kind node).bind fun _ => folds_fault _
  | cons value values =>
    refine folds_ite Iff.rfl ((folds_kind node).bind fun _ => folds_fault_bind _) ?_
    refine folds_ite (by simp [State.folded])
      ((folds_kind node).bind fun _ => folds_fault_bind _) ?_
    exact (folds_set ⟨program, frame, values, types, events⟩).bind fun _ => folds_pure value

theorem folds_popType :
    Folds Code.Ty.folded (popType node before) (popType node before.folded) := by
  refine folds_get.bind fun after => ?_
  obtain ⟨program, frame, values, types, events⟩ := after
  cases types with
  | nil => exact (folds_kind node).bind fun _ => folds_fault _
  | cons ty types =>
    refine folds_ite (by simp [State.folded])
      ((folds_kind node).bind fun _ => folds_fault_bind _) ?_
    refine folds_ite Iff.rfl ((folds_kind node).bind fun _ => folds_fault_bind _) ?_
    exact (folds_set ⟨program, frame, values, types, events⟩).bind fun _ => folds_pure ty

theorem folds_popNothing : Folds id (popNothing node before) (popNothing node before.folded) :=
  folds_get.bind fun _ =>
    folds_ite Iff.rfl ((folds_kind node).bind fun _ => folds_fault_bind _)
      (folds_ite (by simp [State.folded]) ((folds_kind node).bind fun _ => folds_fault _)
        (folds_pure ()))

end Stacks

/-! ## Types and constants -/

theorem codeType_folded (ty : Ty) : codeType ty.folded = (codeType ty).folded := by
  cases ty with
  | prim type => cases type <;> rfl
  | struct name node => rfl

theorem folded_eq_void (ty : Code.Ty) : ty.folded = .void ↔ ty = .void := by
  cases ty <;> simp [Code.Ty.folded]

theorem ty_folded (constant : Constant) : constant.ty.folded = constant.ty := by
  cases constant <;> rfl

/-- No constant has a name in its type. -/
theorem coerce_folded (constant : Constant) (ty : Code.Ty) :
    coerce constant ty.folded = coerce constant ty := by
  cases constant <;> cases ty <;> simp [coerce, Code.Ty.folded, Constant.ty]

theorem eq_of_coerce_eq_error {constant : Constant} {ty found : Code.Ty}
    (h : coerce constant ty = .error found) : found = constant.ty := by
  unfold coerce at h
  split at h
  all_goals
    split at h
    · cases h
    · exact (Except.error.inj h).symm

theorem folds_initializer (g : GlobalNode) (ty : Code.Ty) :
    Folds id (initializer g ty) (initializer g.folded ty.folded) := by
  obtain ⟨name, type, value⟩ := g
  cases value with
  | none => exact folds_pure none
  | some value =>
    refine (folds_ask_id fun s => s.read_literal_folded value).bind fun l => ?_
    dsimp only [id]
    rw [coerce_folded]
    cases hcoerce : coerce (constantOf l) ty with
    | ok init => exact folds_pure (some init)
    | error found =>
      have hrefuse := @folds_refuse (Option Constant) id value (.initializerMismatch name ty found)
      rw [eq_of_coerce_eq_error hcoerce] at hrefuse ⊢
      rwa [LoweringError.folded, ty_folded] at hrefuse

/-! ## Prototypes and bodies -/

theorem folds_reusePrototype (node : NodeId) (name : Ident) (count index : Nat) :
    Folds id (reusePrototype node name count index)
      (reusePrototype node name.folded count index) := by
  refine (folds_functionAt index).bind fun existing => ?_
  refine folds_ite (by simp [Func.folded, Func.hasBody])
    (folds_refuse_bind node (.redefinition name)) ?_
  have hcount : existing.folded.signature.parameters.length =
      existing.signature.parameters.length := List.length_map _
  rw [hcount]
  refine folds_ite Iff.rfl (folds_refuse_bind node (.argumentCountMismatch name _ count)) ?_
  exact (folds_note (.reusing name)).bind fun _ => folds_pure index

theorem folds_closeBody (node : NodeId) (name : Ident) (index : Nat) (terminated : Bool)
    (body : List Instr) :
    Folds (List.map Instr.folded) (closeBody node name index terminated body)
      (closeBody node name.folded index terminated (body.map Instr.folded)) := by
  have hend : Folds (List.map Instr.folded) (pure (body ++ [Instr.ret none]))
      (pure (body.map Instr.folded ++ [Instr.ret none])) := by
    have hpure := @folds_pure _ (List.map Instr.folded) (body ++ [Instr.ret none])
    rwa [List.map_append] at hpure
  refine folds_ite Iff.rfl (folds_pure body) ((folds_functionAt index).bind fun F => ?_)
  exact folds_ite (not_congr (folded_eq_void _)) (folds_refuse_bind node (.missingReturn name)) hend

theorem folds_endsFlow (block : NodeId) : Folds id (endsFlow block) (endsFlow block) := by
  refine (folds_ask_id fun s => s.lastStatement_folded block).bind fun last => ?_
  cases last with
  | none => exact folds_pure false
  | some last => exact folds_ask_id fun s => s.isTerminal_folded last

/-! ## Visits that have to yield something -/

section Visits

variable {visit : NodeId → Lower Yield} (h : ∀ node, Folds Yield.folded (visit node) (visit node))
  (node : NodeId)
include h

theorem folds_accept : Folds id (accept visit node) (accept visit node) := by
  refine (h node).bind fun yielded => folds_modify fun st => ?_
  cases yielded <;> rfl

theorem folds_operand : Folds id (operand visit node) (operand visit node) :=
  folds_get.bind fun before => (folds_accept h node).bind fun _ => folds_popOperand node before

theorem folds_type :
    Folds Code.Ty.folded (type visit node) (type visit node) :=
  folds_get.bind fun before => (folds_accept h node).bind fun _ => folds_popType node before

theorem folds_statement : Folds id (statement visit node) (statement visit node) :=
  folds_get.bind fun before => (folds_accept h node).bind fun _ => folds_popNothing node before

theorem folds_functionOf (prototype : NodeId) :
    Folds id (functionOf visit prototype) (functionOf visit prototype) := by
  refine (folds_operand h prototype).bind fun value => ?_
  cases value with
  | function index => exact folds_pure index
  | _ => exact folds_fault _

/-! ## One visit for each kind -/

theorem folds_visitModule (m : ModuleNode) :
    Folds Yield.folded (visitModule visit m) (visitModule visit m.folded) := by
  have hname : Folds id (modifyProgram (·.claimName m.name.text))
      (modifyProgram (·.claimName m.name.folded.text)) :=
    folds_modifyProgram fun P => P.claimName_folded m.name
  exact hname.bind fun _ => (folds_forM (folds_statement h)).bind fun _ => folds_pure Yield.nothing

theorem folds_visitStruct (s : StructNode) :
    Folds Yield.folded (visitStruct visit s) (visitStruct visit s.folded) := by
  have hfields : Folds (List.map fun field : Ident × Code.Ty => (field.1.folded, field.2.folded))
      (s.fields.entries.mapM fun e => do return (e.1, ← type visit e.2))
      (s.folded.fields.entries.mapM fun e => do return (e.1, ← type visit e.2)) :=
    folds_mapM fun e _ => (folds_type h e.2).bind fun ty => folds_pure (e.1, ty)
  refine hfields.bind fun fields => ?_
  have hadd : Folds id (modifyProgram (·.addStruct ⟨s.name, fields⟩))
      (modifyProgram (·.addStruct (StructType.folded ⟨s.name, fields⟩))) :=
    folds_modifyProgram fun P => P.addStruct_folded ⟨s.name, fields⟩
  exact hadd.bind fun _ => folds_pure Yield.nothing

theorem folds_visitGlobal (g : GlobalNode) :
    Folds Yield.folded (visitGlobal visit node g) (visitGlobal visit node g.folded) := by
  refine (folds_type h g.type).bind fun ty => (folds_initializer g ty).bind fun init =>
    folds_get.bind fun st => ?_
  have hadd : Folds id (modifyProgram (·.addGlobal ⟨g.name, ty, init⟩))
      (modifyProgram (·.addGlobal (GlobalVar.folded ⟨g.name, ty, init⟩))) :=
    folds_modifyProgram fun P => P.addGlobal_folded ⟨g.name, ty, init⟩
  refine folds_ite ?_ (folds_refuse_bind node (.redefinition g.name))
    (hadd.bind fun _ => folds_pure Yield.nothing)
  rw [show st.folded.program = st.program.folded from rfl,
    show g.folded.name = g.name.folded from rfl, Program.hasGlobal_folded]

theorem folds_registerPrototype (p : PrototypeNode) (arguments : ArgumentsNode) :
    Folds id (registerPrototype visit p arguments)
      (registerPrototype visit p.folded arguments.folded) := by
  have htypes : Folds (List.map Code.Ty.folded) (arguments.scope.nodes.mapM (type visit))
      (arguments.folded.scope.nodes.mapM (type visit)) := by
    rw [show arguments.folded.scope.nodes = arguments.scope.nodes from
      arguments.scope.nodes_folded]
    exact folds_mapM_nodes (folds_type h)
  refine htypes.bind fun parameters => (folds_type h p.returnType).bind fun returnType =>
    (folds_note (.registering p.name)).bind fun _ => folds_get.bind fun st => ?_
  have hdeclare : st.folded.program.declare p.folded.name ⟨parameters.map Code.Ty.folded,
      arguments.folded.variadic, returnType.folded⟩ = _ :=
    st.program.declare_folded p.name ⟨parameters, arguments.variadic, returnType⟩
  rw [hdeclare]
  obtain ⟨index, program⟩ := st.program.declare p.name ⟨parameters, arguments.variadic, returnType⟩
  exact (folds_set { st with program }).bind fun _ => folds_pure index

theorem folds_visitPrototype (p : PrototypeNode) :
    Folds Yield.folded (visitPrototype visit node p) (visitPrototype visit node p.folded) := by
  refine (folds_ask fun s => s.read_arguments_folded p.arguments).bind fun arguments => ?_
  have hsize : arguments.folded.scope.size = arguments.scope.size := arguments.scope.size_folded
  dsimp only
  rw [hsize]
  refine (folds_registered? p.name).bind fun found => ?_
  cases found
  case' some => refine (folds_reusePrototype node p.name _ _).bind fun index => ?_
  case' none => refine (folds_registerPrototype h p arguments).bind fun index => ?_
  all_goals
    refine (folds_functionAt index).bind fun F => ?_
    rw [show F.folded.signature.parameters.length = F.signature.parameters.length from
      List.length_map _]
    exact folds_ite Iff.rfl (folds_refuse_bind node (.argumentCountMismatch p.name _ _))
      (folds_pure (Yield.operand (.function index)))

theorem folds_visitFunction (f : FunctionNode) :
    Folds Yield.folded (visitFunction visit node f) (visitFunction visit node f) := by
  refine (folds_functionOf h f.prototype).bind fun index =>
    (folds_ask fun s => s.read_prototype_folded f.prototype).bind fun p =>
      (folds_ask fun s => s.read_arguments_folded p.arguments).bind fun arguments => ?_
  rw [show arguments.folded.scope.nodes = arguments.scope.nodes from arguments.scope.nodes_folded]
  refine (folds_withBody (folds_statement h f.body) _).bind fun frame =>
    (folds_endsFlow f.body).bind fun terminated =>
      (folds_closeBody node p.name index terminated frame.body).bind fun body => ?_
  rw [List.length_map]
  have hdefine : Folds id (modifyProgram (·.define index body))
      (modifyProgram (·.define index (body.map Instr.folded))) :=
    folds_modifyProgram fun P => P.define_folded index body
  exact (folds_note (.bodyLowered p.name body.length)).bind fun _ => hdefine.bind fun _ =>
    folds_pure Yield.nothing

theorem folds_visitVariable (v : VariableNode) :
    Folds Yield.folded (visitVariable visit node v) (visitVariable visit node v.folded) := by
  have htype : Folds id (v.type.forM fun written => discard (type visit written))
      (v.type.forM fun written => discard (type visit written)) := by
    cases v.type with
    | none => exact folds_pure ()
    | some written => exact folds_discard (folds_type h written)
  exact htype.bind fun _ => (folds_operand h v.value).bind fun value => folds_newSlot.bind
    fun slot => (folds_emit (.move value slot)).bind fun _ => (folds_bindTo node (.slot slot)).bind
      fun _ => folds_pure Yield.nothing

theorem folds_visitReturn (value : Option NodeId) :
    Folds Yield.folded (visitReturn visit value) (visitReturn visit value) := by
  have hvalue : Folds id (value.mapM (operand visit)) (value.mapM (operand visit)) := by
    cases value with
    | none => exact folds_pure none
    | some value => exact (folds_operand h value).bind fun op => folds_pure (some op)
  exact hvalue.bind fun op => (folds_emit (.ret op)).bind fun _ => folds_pure Yield.nothing

theorem folds_visitCall (c : CallNode) :
    Folds Yield.folded (visitCall visit node c) (visitCall visit node c.folded) := by
  refine (folds_resolveOr fun s => s.calleePrototype_folded node c.callee).bind fun prototype =>
    (folds_ask fun s => s.read_prototype_folded prototype).bind fun p => ?_
  have hoperands :
      Folds id (c.arguments.mapM (operand visit)) (c.arguments.mapM (operand visit)) := by
    rw [← List.map_id_fun]
    exact folds_mapM_nodes (folds_operand h)
  refine (folds_registered? p.name).bind fun found => ?_
  cases found
  case' none => refine (folds_functionOf h prototype).bind fun target => ?_
  all_goals
    refine (folds_functionAt _).bind fun F => ?_
    have hcount : F.folded.signature.parameters.length = F.signature.parameters.length :=
      List.length_map _
    have haccepts : accepts F.folded.signature c.arguments.length =
        accepts F.signature c.arguments.length := by
      rw [accepts, accepts, hcount]
      rfl
    refine folds_ite (by rw [← haccepts]; rfl) ?_ ?_
    · refine hoperands.bind fun arguments => folds_ite (folded_eq_void _) ?_ ?_
      · exact (folds_emit (.call _ arguments none)).bind fun _ => folds_pure (Yield.operand .void)
      · exact folds_newSlot.bind fun slot => (folds_emit (.call _ arguments (some slot))).bind
          fun _ => folds_pure (Yield.operand (.slot slot))
    · rw [hcount]
      exact folds_refuse_bind node (.callArity p.name _ _)

theorem folds_visitBinary (b : BinaryNode) :
    Folds Yield.folded (visitBinary visit b) (visitBinary visit b) :=
  (folds_operand h b.lhs).bind fun lhs => (folds_operand h b.rhs).bind fun rhs =>
    folds_newSlot.bind fun slot => (folds_emit (.binary b.op lhs rhs slot)).bind fun _ =>
      folds_pure (Yield.operand (.slot slot))

omit h in
theorem folds_visitReference (name : Ident) :
    Folds Yield.folded (visitReference node name) (visitReference node name.folded) := by
  refine (folds_ask_id fun s => s.lookup_folded node name).bind fun found => ?_
  cases found with
  | none => exact folds_refuse node (.unresolved name)
  | some target =>
    refine (folds_ask fun s => s.construct_folded target).bind fun c => ?_
    cases c with
    | varDecl _ | typeRef _ =>
      refine folds_frame.bind fun f => ?_
      rw [show f.folded.binding? target = f.binding? target from rfl]
      cases f.binding? target with
      | some value => exact folds_pure (Yield.operand value)
      | none => exact folds_refuse node (.unresolved name)
    | global g =>
      exact folds_newSlot.bind fun slot => (folds_emit (.load g.name slot)).bind fun _ =>
        folds_pure (Yield.operand (.slot slot))
    | _ => exact folds_refuse node (.notAValue name)

omit h in
theorem folds_visitTypeRef (ref : TypeRef) :
    Folds Yield.folded (visitTypeRef node ref) (visitTypeRef node ref.folded) := by
  refine (folds_resolveOr fun s => s.resolve_folded ref node).bind fun ty => ?_
  rw [codeType_folded]
  exact folds_pure (Yield.type (codeType ty))

theorem folds_visitConstruct (c : Construct) :
    Folds Yield.folded (visitConstruct visit node c) (visitConstruct visit node c.folded) := by
  cases c with
  | module m => exact folds_visitModule h m
  | function f => exact folds_visitFunction h node f
  | external e =>
    exact (folds_discard (folds_functionOf h e.prototype)).bind fun _ => folds_pure Yield.nothing
  | prototype p => exact folds_visitPrototype h node p
  | arguments a => exact folds_pure Yield.nothing
  | attr name => exact folds_pure Yield.nothing
  | block b =>
    exact (folds_forM (folds_statement h)).bind fun _ => folds_pure Yield.nothing
  | struct s => exact folds_visitStruct h s
  | global g => exact folds_visitGlobal h node g
  | varDecl v => exact folds_visitVariable h node v
  | ret value => exact folds_visitReturn h value
  | exprStatement expression =>
    exact (folds_discard (folds_operand h expression)).bind fun _ => folds_pure Yield.nothing
  | literal l => exact folds_pure (Yield.operand (.const (constantOf l)))
  | reference name => exact folds_visitReference node name
  | call c => exact folds_visitCall h node c
  | binary b => exact folds_visitBinary h b
  | typeRef ref => exact folds_visitTypeRef node ref
  | errorMarker notice => exact folds_fault _

end Visits

/-- **Visiting a node** of a store in small letters is visiting it, in small letters. -/
theorem folds_visit (n : Nat) (node : NodeId) :
    Folds Yield.folded (visit n node) (visit n node) := by
  induction n generalizing node with
  | zero => exact folds_fault _
  | succ n ih =>
    exact (folds_ask fun s => s.construct_folded node).bind fun c => folds_visitConstruct ih node c

/-! ## Modules -/

theorem folds_visitRoot (node : NodeId) :
    Folds Yield.folded (visitRoot node) (visitRoot node) := by
  intro scene st
  rw [visitRoot, bind_of_ok (goes_read scene st), bind_of_ok (goes_read scene.folded st.folded),
    show scene.folded.store = scene.store.folded from rfl, levels, Store.size_folded]
  exact folds_visit _ node scene st

theorem folds_noteModule (node : NodeId) : Folds id (noteModule node) (noteModule node) := by
  intro scene st
  rw [noteModule, bind_of_ok (goes_read scene st), bind_of_ok (goes_read scene.folded st.folded),
    show scene.folded.store = scene.store.folded from rfl, Store.get?_folded]
  cases scene.store.get? node with
  | none => rfl
  | some n =>
    obtain ⟨c, parent, span⟩ := n
    cases c with
    | module m =>
      refine Folds.bind folds_get (fun st => ?_) scene st
      dsimp only [State.folded, Program.folded]
      rw [List.length_map, List.length_map]
      exact folds_note (.moduleLowered m.name _ _)
    | _ => rfl

theorem folds_lowerModule (node : NodeId) : Folds id (lowerModule node) (lowerModule node) := by
  refine (folds_ask_id fun s => s.errorMarkers_folded node).bind fun markers => ?_
  cases markers with
  | nil =>
    exact (folds_accept folds_visitRoot node).bind fun _ => folds_noteModule node
  | cons first rest => exact folds_refuse first.1 (.erroneousTree _)

/-- What lowering leaves behind, in small letters. -/
def Lowered.folded {α : Type} (l : Lowered α) : Lowered α where
  result := match l.result with
    | .ok a => .ok a
    | .error halt => .error halt.folded
  program := l.program.folded
  events := l.events.map Event.folded

/-- **Lowering a module** from a store in small letters, into a program in small letters. -/
theorem lowerModule_folded (root : NodeId) (scene : Scene) (program : Program) :
    (lowerModule root).runOn scene.folded program.folded =
      ((lowerModule root).runOn scene program).folded := by
  have hstart : State.start program.folded = (State.start program).folded := by
    simp [State.start, State.folded]
  rw [Lower.runOn, Lower.runOn, ReaderT.run, ReaderT.run, EStateM.run, EStateM.run, hstart,
    folds_lowerModule root scene]
  cases lowerModule root scene (State.start program) <;> rfl

end Lowering

end FrontEnd
