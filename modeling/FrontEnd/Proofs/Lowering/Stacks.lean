import FrontEnd.Proofs.Lowering.Steps

/-!
# Visits leave the stacks as they were

What a visit yields is pushed and popped by the step that asked for it.  So a visit of any node
of any store, which need not be a tree, leaves the stacks of operands and of types as they were,
and a body is in progress after it exactly if one was before.  That holds of a visit that is
refused, too; only a fault may leave more on a stack.

## Main definitions

* `Steady`: the stacks, and whether a body is in progress, are as they were.
* `Level`: a step that leaves a steady state unless it faults.

## Main statements

* `level_visit`: every visit is level.
* `ends_operand`, `ends_type`, `ends_statement`: what is pushed is popped.
-/

namespace FrontEnd.Lowering

open Code

variable {α β : Type} {scene : Scene} {st st' st'' : State} {step : Lower α} {a : α}

/-- The stacks are as they were, and a body is in progress exactly if one was. -/
structure Steady (st st' : State) : Prop where
  values : st'.values = st.values
  types : st'.types = st.types
  body : st'.frame.isSome = st.frame.isSome

theorem Steady.refl (st : State) : Steady st st := ⟨rfl, rfl, rfl⟩

theorem Steady.trans (h : Steady st st') (h' : Steady st' st'') : Steady st st'' :=
  ⟨h'.values.trans h.values, h'.types.trans h.types, h'.body.trans h.body⟩

/-- A step that has a result or is refused leaves a steady state. -/
def LevelAt (step : Lower α) (scene : Scene) (st : State) : Prop :=
  match step scene st with
  | .ok _ st' => Steady st st'
  | .error (.refused _) st' => Steady st st'
  | .error (.fault _) _ => True

/-- A step leaves a steady state unless it faults, wherever it starts. -/
def Level (step : Lower α) : Prop := ∀ scene st, LevelAt step scene st

/-! ## Steps one after the other -/

theorem LevelAt.bind {k : α → Lower β} (h : LevelAt step scene st)
    (hk : ∀ a st', step scene st = .ok a st' → LevelAt (k a) scene st') :
    LevelAt (step >>= k) scene st := by
  rw [LevelAt] at h ⊢
  cases hstep : step scene st with
  | error halt st' =>
    rw [bind_of_error hstep]
    rw [hstep] at h
    cases halt with
    | fault f => trivial
    | refused error => exact h
  | ok a st' =>
    rw [bind_of_ok hstep]
    rw [hstep] at h
    have hnext := hk a st' hstep
    rw [LevelAt] at hnext
    split at hnext
    · exact h.trans hnext
    · exact h.trans hnext
    · trivial

namespace Level

theorem bind {k : α → Lower β} (h : Level step) (hk : ∀ a, Level (k a)) : Level (step >>= k) :=
  fun scene st => (h scene st).bind fun a st' _ => hk a scene st'

theorem pure (a : α) : Level (pure a) := fun _ st => .refl st

theorem fault (f : Fault) : Level (fault f : Lower α) := fun _ _ => trivial

/-- A step that keeps its state. -/
theorem of_same (h : ∀ scene st, ∃ a, step scene st = .ok a st) : Level step := by
  intro scene st
  obtain ⟨a, hstep⟩ := h scene st
  rw [LevelAt, hstep]
  exact .refl st

theorem read : Level read := of_same fun scene _ => ⟨scene, rfl⟩

theorem get : Level get := of_same fun _ st => ⟨st, rfl⟩

theorem ask (question : Store → Except Fault α) : Level (ask question) := by
  refine read.bind fun scene => ?_
  cases question scene.store with
  | ok a => exact .pure a
  | error f => exact .fault f

theorem refuse (id : NodeId) (error : LoweringError) : Level (refuse id error : Lower α) :=
  (Level.ask _).bind fun _ _ st => Steady.refl st

theorem resolveOr (id : NodeId) (question : Store → Resolve α) :
    Level (resolveOr id question) := by
  refine read.bind fun scene => ?_
  cases question scene.store with
  | ok a => exact .pure a
  | error setback =>
    cases setback with
    | fault f => exact .fault f
    | unresolved error => exact .refuse id _

theorem note (event : Event) : Level (note event) := fun _ _ => ⟨rfl, rfl, rfl⟩

theorem modifyProgram (f : Program → Program) : Level (modifyProgram f) :=
  fun _ _ => ⟨rfl, rfl, rfl⟩

theorem functionAt (index : Nat) : Level (functionAt index) := by
  refine get.bind fun st => ?_
  cases st.program.function index with
  | ok F => exact .pure F
  | error f => exact .fault f

theorem registered? (name : Ident) : Level (registered? name) := by
  refine read.bind fun scene => ?_
  cases scene.reuse with
  | true => exact get.bind fun st => .pure _
  | false => exact .pure _

/-- A refusal under a condition. -/
theorem ite {p : Prop} [Decidable p] {step' : Lower α} (h : Level step) (h' : Level step') :
    Level (if p then step else step') := by
  split
  · exact h
  · exact h'

theorem discard (h : Level step) : Level (discard step) := h.bind fun _ => .pure ()

theorem mapM {γ : Type} {f : γ → Lower α} {xs : List γ} (h : ∀ x, Level (f x)) :
    Level (xs.mapM f) := by
  induction xs with
  | nil => exact .pure []
  | cons x xs ih =>
    rw [List.mapM_cons]
    exact (h x).bind fun a => ih.bind fun as => .pure (a :: as)

theorem forM {γ : Type} {f : γ → Lower PUnit} {xs : List γ} (h : ∀ x, Level (f x)) :
    Level (xs.forM f) := by
  induction xs with
  | nil => exact .pure ()
  | cons x xs ih => exact (h x).bind fun _ => ih

/-! ### Bodies in progress -/

/-- A step that starts from the body in progress. -/
theorem frame_bind {k : Frame → Lower α}
    (hk : ∀ f scene st, st.frame = some f → LevelAt (k f) scene st) : Level (frame >>= k) := by
  intro scene st
  cases hf : st.frame with
  | none =>
    rw [LevelAt, bind_of_error (frame_of_none hf)]
    trivial
  | some f =>
    rw [LevelAt, bind_of_ok (goes_frame hf)]
    exact hk f scene st hf

theorem newSlot : Level newSlot := frame_bind fun _ _ _ hf => ⟨rfl, rfl, by rw [hf]; rfl⟩

theorem emit (instr : Instr) : Level (emit instr) :=
  frame_bind fun _ _ _ hf => ⟨rfl, rfl, by rw [hf]; rfl⟩

theorem bindTo (id : NodeId) (operand : Operand) : Level (bindTo id operand) :=
  frame_bind fun _ _ _ hf => ⟨rfl, rfl, by rw [hf]; rfl⟩

/-- The body that a step is run with is taken away after it. -/
theorem withBody {step : Lower Unit} (arguments : List NodeId) (h : Level step) :
    Level (withBody arguments step) := by
  intro scene st
  rw [LevelAt]
  cases hf : st.frame with
  | some f =>
    have hnested : Lowering.withBody arguments step scene st = .error (.fault .nestedBody) st :=
      (bind_of_ok (goes_get scene st)).trans (by rw [hf]; rfl)
    rw [hnested]
    trivial
  | none =>
    have hsteady := h scene { st with frame := some (.ofArguments arguments) }
    rw [LevelAt] at hsteady
    have hopened : ∀ result,
        (tryCatch step (fun halt => do setFrame none; throw halt) >>= fun _ => do
        let done ← frame
        setFrame none
        return done) scene { st with frame := some (.ofArguments arguments) } = result →
        Lowering.withBody arguments step scene st = result := by
      intro result hresult
      refine (bind_of_ok (goes_get scene st)).trans ?_
      rw [hf]
      exact (bind_of_ok (goes_setFrame scene st _)).trans hresult
    cases hstep : step scene { st with frame := some (.ofArguments arguments) } with
    | ok a st' =>
      rw [hstep] at hsteady
      obtain ⟨f, hf'⟩ : ∃ f, st'.frame = some f := Option.isSome_iff_exists.mp hsteady.body
      have hclosed : Lowering.withBody arguments step scene st =
          .ok f { st' with frame := none } :=
        hopened _ ((bind_of_ok (dropping_of_ok hstep)).trans (bind_of_ok (goes_frame hf')))
      rw [hclosed]
      exact ⟨hsteady.values, hsteady.types, by rw [hf]⟩
    | error halt st' =>
      rw [hstep] at hsteady
      rw [hopened _ (bind_of_error (dropping_of_error hstep))]
      cases halt with
      | fault f => trivial
      | refused error => exact ⟨hsteady.values, hsteady.types, by rw [hf]⟩

end Level

/-! ## Pushing and popping -/

section Pops

variable {visit : NodeId → Lower Yield} {id : NodeId} {y : Yield}

/-- A step has no result and is not refused. -/
def Faults (step : Lower α) (scene : Scene) (st : State) : Prop :=
  ∃ f st', step scene st = .error (.fault f) st'

/-- A fault that asks for a kind, whether or not there is one. -/
theorem faults_ask {k : Kind → Lower α} (id : NodeId) (st : State)
    (hk : ∀ kind, ∃ f, k kind scene st = .error (.fault f) st) :
    Faults (ask (·.kind id) >>= k) scene st := by
  cases hkind : scene.store.kind id with
  | ok kind =>
    obtain ⟨f, hf⟩ := hk kind
    exact ⟨f, st, (bind_of_ok (goes_ask hkind st)).trans hf⟩
  | error f =>
    refine ⟨f, st, bind_of_error ?_⟩
    change check (scene.store.kind id) scene st = _
    rw [hkind]
    rfl

section

variable (h : Steady st st') (scene : Scene) (id : NodeId)
include h

theorem goes_popOperand (value : Operand) :
    Goes (popOperand id st) scene (st'.push (.operand value)) value st' := by
  obtain ⟨program, frame, values, types, events⟩ := st'
  obtain ⟨rfl, rfl, -⟩ := h
  refine Goes.then (goes_get _ _) ?_
  simp only [State.push, ne_eq, not_true_eq_false, ↓reduceIte]
  rfl

theorem goes_popType (ty : Code.Ty) :
    Goes (popType id st) scene (st'.push (.type ty)) ty st' := by
  obtain ⟨program, frame, values, types, events⟩ := st'
  obtain ⟨rfl, rfl, -⟩ := h
  refine Goes.then (goes_get _ _) ?_
  simp only [State.push, ne_eq, not_true_eq_false, ↓reduceIte]
  rfl

theorem goes_popNothing : Goes (popNothing id st) scene st' () st' := by
  refine Goes.then (goes_get _ _) ?_
  simp only [h.values, h.types, ne_eq, not_true_eq_false, ↓reduceIte]
  rfl

theorem faults_popOperand (hy : ∀ value, y ≠ .operand value) :
    Faults (popOperand id st) scene (st'.push y) := by
  have hvalues : (st'.push y).values = st.values := by
    cases y with
    | operand value => exact absurd rfl (hy value)
    | nothing | type _ => exact h.values
  rw [Faults, popOperand, bind_of_ok (goes_get scene _), hvalues]
  cases st.values with
  | nil => exact faults_ask id _ fun _ => ⟨_, rfl⟩
  | cons value values =>
    dsimp only
    rw [if_pos (by simp)]
    exact faults_ask id _ fun _ => ⟨_, rfl⟩

theorem faults_popType (hy : ∀ ty, y ≠ .type ty) :
    Faults (popType id st) scene (st'.push y) := by
  have htypes : (st'.push y).types = st.types := by
    cases y with
    | type ty => exact absurd rfl (hy ty)
    | nothing | operand _ => exact h.types
  rw [Faults, popType, bind_of_ok (goes_get scene _), htypes]
  cases st.types with
  | nil => exact faults_ask id _ fun _ => ⟨_, rfl⟩
  | cons ty types =>
    dsimp only
    rw [if_pos (by simp)]
    exact faults_ask id _ fun _ => ⟨_, rfl⟩

theorem faults_popNothing (hy : y ≠ .nothing) :
    Faults (popNothing id st) scene (st'.push y) := by
  rw [Faults, popNothing, bind_of_ok (goes_get scene _)]
  cases y with
  | nothing => exact absurd rfl hy
  | operand value =>
    rw [if_pos (by simp [State.push, h.values])]
    exact faults_ask id _ fun _ => ⟨_, rfl⟩
  | type ty =>
    rw [if_neg (by simp [State.push, h.values]), if_pos (by simp [State.push, h.types])]
    exact faults_ask id _ fun _ => ⟨_, rfl⟩

end

/-- A node is visited, and what that yields is popped. -/
theorem accept_of_ok (pop : State → Lower α) (h : visit id scene st = .ok y st') :
    (do let before ← get; accept visit id; pop before) scene st = pop st scene (st'.push y) :=
  (bind_of_ok (goes_get scene st)).trans (bind_of_ok (bind_of_ok h))

theorem accept_of_error {halt : Halt} (pop : State → Lower α)
    (h : visit id scene st = .error halt st') :
    (do let before ← get; accept visit id; pop before) scene st = .error halt st' :=
  (bind_of_ok (goes_get scene st)).trans (bind_of_error (bind_of_error h))

/-- A level visit stays level if what it yields is popped, or is not there. -/
theorem level_accept {pop : State → Lower α} (h : Level (visit id))
    (hpop : ∀ scene st st' y, Steady st st' →
      (∃ a, Goes (pop st) scene (st'.push y) a st') ∨ Faults (pop st) scene (st'.push y)) :
    Level (do let before ← get; accept visit id; pop before) := by
  intro scene st
  have hvisit := h scene st
  rw [LevelAt] at hvisit ⊢
  cases hyield : visit id scene st with
  | error halt st' =>
    rw [accept_of_error pop hyield]
    rw [hyield] at hvisit
    cases halt with
    | fault f => trivial
    | refused error => exact hvisit
  | ok y st' =>
    rw [accept_of_ok pop hyield]
    rw [hyield] at hvisit
    rcases hpop scene st st' y hvisit with ⟨a, hgoes⟩ | ⟨f, st'', hfault⟩
    · rw [hgoes]
      exact hvisit
    · rw [hfault]
      trivial

theorem level_operand (h : Level (visit id)) : Level (operand visit id) := by
  refine level_accept h fun scene st st' y hsteady => ?_
  cases y with
  | operand value => exact .inl ⟨value, goes_popOperand hsteady scene id value⟩
  | nothing | type _ => exact .inr (faults_popOperand hsteady scene id (by simp))

theorem level_type (h : Level (visit id)) : Level (type visit id) := by
  refine level_accept h fun scene st st' y hsteady => ?_
  cases y with
  | type ty => exact .inl ⟨ty, goes_popType hsteady scene id ty⟩
  | nothing | operand _ => exact .inr (faults_popType hsteady scene id (by simp))

theorem level_statement (h : Level (visit id)) : Level (statement visit id) := by
  refine level_accept h fun scene st st' y hsteady => ?_
  cases y with
  | nothing => exact .inl ⟨(), goes_popNothing hsteady scene id⟩
  | operand _ | type _ => exact .inr (faults_popNothing hsteady scene id (by simp))

theorem level_functionOf (h : Level (visit id)) : Level (functionOf visit id) := by
  refine (level_operand h).bind fun value => ?_
  cases value with
  | function index => exact .pure index
  | slot _ | const _ | void => exact .fault _

end Pops

/-! ## Visits -/

section Visits

variable {visit : NodeId → Lower Yield} (h : ∀ id, Level (visit id)) (id : NodeId)

theorem level_initializer (g : GlobalNode) (ty : Code.Ty) : Level (initializer g ty) := by
  rw [initializer]
  cases g.value with
  | none => exact .pure _
  | some value =>
    refine (Level.ask _).bind fun literal => ?_
    cases coerce (constantOf literal) ty with
    | ok init => exact .pure _
    | error found => exact .refuse _ _

theorem level_reusePrototype (name : Ident) (count index : Nat) :
    Level (reusePrototype id name count index) := by
  refine (Level.functionAt _).bind fun F => .ite ((Level.refuse _ _).bind fun _ => ?_) ?_
  all_goals
    refine .ite ((Level.refuse _ _).bind fun _ => ?_) ?_
    all_goals exact (Level.note _).bind fun _ => .pure _

theorem level_closeBody (name : Ident) (index : Nat) (terminated : Bool)
    (body : List Instr) : Level (closeBody id name index terminated body) := by
  refine .ite (.pure _) ((Level.functionAt _).bind fun F => ?_)
  exact .ite ((Level.refuse _ _).bind fun _ => .pure _) (.pure _)

theorem level_endsFlow (block : NodeId) : Level (endsFlow block) := by
  refine (Level.ask _).bind fun last => ?_
  cases last with
  | some last => exact .ask _
  | none => exact .pure _

theorem level_visitReference (name : Ident) : Level (visitReference id name) := by
  refine (Level.ask _).bind fun target => ?_
  cases target with
  | none => exact .refuse _ _
  | some target =>
    refine (Level.ask _).bind fun c => ?_
    cases c with
    | varDecl _ | typeRef _ =>
      refine Level.frame_bind fun f scene st _ => ?_
      cases f.binding? target with
      | some value => exact Level.pure _ scene st
      | none => exact Level.refuse _ _ scene st
    | global g => exact Level.newSlot.bind fun slot => (Level.emit _).bind fun _ => .pure _
    | _ => exact .refuse _ _

theorem level_visitTypeRef (ref : TypeRef) : Level (visitTypeRef id ref) :=
  (Level.resolveOr _ _).bind fun _ => .pure _

include h

theorem level_visitModule (m : ModuleNode) : Level (visitModule visit m) :=
  (Level.modifyProgram _).bind fun _ =>
    (Level.forM fun item => level_statement (h item)).bind fun _ => .pure _

theorem level_visitStruct (s : StructNode) : Level (visitStruct visit s) := by
  refine (Level.mapM fun entry => ?_).bind fun _ => (Level.modifyProgram _).bind fun _ => .pure _
  obtain ⟨name, id⟩ := entry
  exact (level_type (h id)).bind fun _ => .pure _

theorem level_visitGlobal (g : GlobalNode) : Level (visitGlobal visit id g) := by
  refine (level_type (h _)).bind fun ty => (level_initializer g ty).bind fun init => ?_
  refine Level.get.bind fun st => .ite ((Level.refuse _ _).bind fun _ => ?_) ?_
  all_goals exact (Level.modifyProgram _).bind fun _ => .pure _

theorem level_registerPrototype (p : PrototypeNode) (arguments : ArgumentsNode) :
    Level (registerPrototype visit p arguments) := by
  refine (Level.mapM fun type => level_type (h type)).bind fun parameters => ?_
  refine (level_type (h _)).bind fun returnType => (Level.note _).bind fun _ => ?_
  exact fun _ _ => ⟨rfl, rfl, rfl⟩

theorem level_visitPrototype (p : PrototypeNode) :
    Level (visitPrototype visit id p) := by
  refine (Level.ask _).bind fun arguments => (Level.registered? _).bind fun found => ?_
  cases found
  case' some index => refine (level_reusePrototype _ _ _ _).bind fun index => ?_
  case' none => refine (level_registerPrototype h p arguments).bind fun index => ?_
  all_goals
    refine (Level.functionAt _).bind fun F => .ite ((Level.refuse _ _).bind fun _ => ?_) ?_
    all_goals exact .pure _

theorem level_visitFunction (f : FunctionNode) :
    Level (visitFunction visit id f) := by
  refine (level_functionOf (h _)).bind fun index => (Level.ask _).bind fun p => ?_
  refine (Level.ask _).bind fun arguments => ?_
  refine (Level.withBody _ (level_statement (h _))).bind fun frame => ?_
  refine (level_endsFlow _).bind fun terminated => (level_closeBody _ _ _ _ _).bind fun body => ?_
  exact (Level.note _).bind fun _ => (Level.modifyProgram _).bind fun _ => .pure _

theorem level_visitVariable (v : VariableNode) :
    Level (visitVariable visit id v) := by
  have hwritten : Level (v.type.forM fun written => discard (type visit written)) := by
    cases v.type with
    | none => exact .pure _
    | some written => exact .discard (level_type (h written))
  refine hwritten.bind fun _ => (level_operand (h _)).bind fun value => ?_
  refine Level.newSlot.bind fun slot => (Level.emit _).bind fun _ => ?_
  exact (Level.bindTo _ _).bind fun _ => .pure _

theorem level_visitReturn (value : Option NodeId) : Level (visitReturn visit value) := by
  have hvalue : Level (value.mapM (operand visit)) := by
    cases value with
    | none => exact .pure _
    | some value => exact (level_operand (h value)).bind fun _ => .pure _
  exact hvalue.bind fun _ => (Level.emit _).bind fun _ => .pure _

/-- The function that a call calls, found in the program or declared for the call. -/
theorem level_target {k : Nat → Lower α} (name : Ident) (prototype : NodeId)
    (hk : ∀ index, Level (k index)) :
    Level (registered? name >>= fun
      | some index => pure index >>= k
      | none => functionOf visit prototype >>= k) := by
  refine (Level.registered? _).bind fun found => ?_
  cases found with
  | some index => exact (Level.pure index).bind hk
  | none => exact (level_functionOf (h _)).bind hk

theorem level_visitCall (c : CallNode) : Level (visitCall visit id c) := by
  refine (Level.resolveOr _ _).bind fun prototype => (Level.ask _).bind fun p => ?_
  refine level_target h _ _ fun target => (Level.functionAt _).bind fun F => ?_
  refine .ite ?_ ((Level.refuse _ _).bind fun _ => ?_)
  all_goals
    refine (Level.mapM fun argument => level_operand (h argument)).bind fun arguments => ?_
    refine .ite ((Level.emit _).bind fun _ => .pure _) ?_
    exact Level.newSlot.bind fun slot => (Level.emit _).bind fun _ => .pure _

theorem level_visitBinary (b : BinaryNode) : Level (visitBinary visit b) :=
  (level_operand (h _)).bind fun _ => (level_operand (h _)).bind fun _ =>
    Level.newSlot.bind fun _ => (Level.emit _).bind fun _ => .pure _

theorem level_visitConstruct (c : Construct) :
    Level (visitConstruct visit id c) := by
  cases c with
  | module m => exact level_visitModule h m
  | function f => exact level_visitFunction h id f
  | external e => exact (Level.discard (level_functionOf (h _))).bind fun _ => .pure _
  | prototype p => exact level_visitPrototype h id p
  | arguments _ | attr _ => exact .pure _
  | block b => exact (Level.forM fun item => level_statement (h item)).bind fun _ => .pure _
  | struct s => exact level_visitStruct h s
  | global g => exact level_visitGlobal h id g
  | varDecl v => exact level_visitVariable h id v
  | ret value => exact level_visitReturn h value
  | exprStatement e => exact (Level.discard (level_operand (h e))).bind fun _ => .pure _
  | literal l => exact .pure _
  | reference name => exact level_visitReference id name
  | call c => exact level_visitCall h id c
  | binary b => exact level_visitBinary h b
  | typeRef ref => exact level_visitTypeRef id ref
  | errorMarker _ => exact .fault _

end Visits

/-- Every visit of a node is level, whatever the store holds. -/
theorem level_visit (n : Nat) (id : NodeId) : Level (visit n id) := by
  induction n generalizing id with
  | zero => exact .fault _
  | succ n ih => exact (Level.ask _).bind fun c => level_visitConstruct ih id c

theorem level_visitRoot (id : NodeId) : Level (visitRoot id) :=
  Level.read.bind fun scene => level_visit (levels scene.store) id

theorem steady_visit {n : Nat} {id : NodeId} {y : Yield} (h : visit n id scene st = .ok y st') :
    Steady st st' := by
  have hlevel := level_visit n id scene st
  rwa [LevelAt, h] at hlevel

/-! ## Visits that yield something -/

section Yields

variable {n : Nat} {id : NodeId} {bad : Located LoweringError → State → Prop}

/-- What a visit yields stays, if nothing pops it. -/
theorem ends_pushed {visit : NodeId → Lower Yield} {good : State → Prop}
    (h : Ends (visit id) scene st (fun y st' => good (st'.push y)) bad) :
    Ends (accept visit id) scene st (fun _ => good) bad :=
  h.bind fun _ _ hgood => Goes.ends rfl hgood

/-- What a visit yields is popped at once. -/
theorem ends_accept {good : α → State → Prop} {pop : State → Lower α}
    (h : Ends (visit n id) scene st (fun y st' => Steady st st' →
      ∃ a, Goes (pop st) scene (st'.push y) a st' ∧ good a st') bad) :
    Ends (do let before ← get; accept (visit n) id; pop before) scene st good bad := by
  rw [Ends] at h ⊢
  rcases hyield : visit n id scene st with ⟨y, st'⟩ | ⟨halt, st'⟩
  · rw [hyield] at h
    obtain ⟨a, hgoes, hgood⟩ := h (steady_visit hyield)
    rw [accept_of_ok pop hyield, show pop st scene (st'.push y) = _ from hgoes]
    exact hgood
  · rw [hyield] at h
    rw [accept_of_error pop hyield]
    cases halt with
    | fault f => exact h
    | refused error => exact h

theorem ends_operand {good : Operand → State → Prop}
    (h : Ends (visit n id) scene st (fun y st' => ∃ value, y = .operand value ∧ good value st')
      bad) : Ends (operand (visit n) id) scene st good bad := by
  refine ends_accept (h.imp fun y st' hy hsteady => ?_)
  obtain ⟨value, rfl, hgood⟩ := hy
  exact ⟨value, goes_popOperand hsteady scene id value, hgood⟩

theorem ends_type {good : Code.Ty → State → Prop}
    (h : Ends (visit n id) scene st (fun y st' => ∃ ty, y = .type ty ∧ good ty st') bad) :
    Ends (type (visit n) id) scene st good bad := by
  refine ends_accept (h.imp fun y st' hy hsteady => ?_)
  obtain ⟨ty, rfl, hgood⟩ := hy
  exact ⟨ty, goes_popType hsteady scene id ty, hgood⟩

theorem ends_statement {good : Unit → State → Prop}
    (h : Ends (visit n id) scene st (fun y st' => y = .nothing ∧ good () st') bad) :
    Ends (statement (visit n) id) scene st good bad := by
  refine ends_accept (h.imp fun y st' hy hsteady => ?_)
  obtain ⟨rfl, hgood⟩ := hy
  exact ⟨(), goes_popNothing hsteady scene id, hgood⟩

theorem ends_functionOf {good : Nat → State → Prop}
    (h : Ends (visit n id) scene st
      (fun y st' => ∃ index, y = .operand (.function index) ∧ good index st') bad) :
    Ends (functionOf (visit n) id) scene st good bad := by
  have hoperand : Ends (operand (visit n) id) scene st
      (fun value st' => ∃ index, value = .function index ∧ good index st') bad := by
    refine ends_operand (h.imp fun y st' hy => ?_)
    obtain ⟨index, rfl, hgood⟩ := hy
    exact ⟨_, rfl, index, rfl, hgood⟩
  refine hoperand.bind fun value st' hvalue => ?_
  obtain ⟨index, rfl, hgood⟩ := hvalue
  exact ends_pure hgood

end Yields

end FrontEnd.Lowering
