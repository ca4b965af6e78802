import FrontEnd.Lowering.Visit

/-!
# How steps of lowering end

A step of lowering ends in one of three ways: with a result, with an error that is located in
the text, or with a fault.  Whichever it is, it leaves a state behind.  `Ends` says what a result
and an error satisfy, each with the state that is left, and that there is no fault.  `Goes` says
of a step that it has one result.
Each primitive step has a rule, and steps one after the other are put together by
`Ends.bind` and `Goes.bind`.

## Main definitions

* `Goes`, `Ends`.
-/

namespace FrontEnd.Lowering

open Code

variable {α β : Type} {scene : Scene} {st st' : State} {step : Lower α} {a : α}
  {good : α → State → Prop} {bad : Located LoweringError → State → Prop}

/-- A step has a result and leaves a state. -/
def Goes (step : Lower α) (scene : Scene) (st : State) (a : α) (st' : State) : Prop :=
  step scene st = .ok a st'

/-- A step ends well with `good`, is refused with `bad`, and does not fault. -/
def Ends (step : Lower α) (scene : Scene) (st : State) (good : α → State → Prop)
    (bad : Located LoweringError → State → Prop) : Prop :=
  match step scene st with
  | .ok a st' => good a st'
  | .error (.refused error) st' => bad error st'
  | .error (.fault _) _ => False

/-! ## Steps one after the other -/

variable {k : α → Lower β}

theorem bind_of_ok (h : step scene st = .ok a st') : (step >>= k) scene st = k a scene st' := by
  change EStateM.bind (step scene) (fun a => k a scene) st = _
  rw [EStateM.bind, h]

theorem bind_of_error {halt : Halt} (h : step scene st = .error halt st') :
    (step >>= k) scene st = .error halt st' := by
  change EStateM.bind (step scene) (fun a => k a scene) st = _
  rw [EStateM.bind, h]

theorem Goes.ends (h : Goes step scene st a st') (hgood : good a st') :
    Ends step scene st good bad := by
  rw [Ends, show step scene st = .ok a st' from h]
  exact hgood

theorem Goes.bind {good : β → State → Prop} (h : Goes step scene st a st')
    (hk : Ends (k a) scene st' good bad) : Ends (step >>= k) scene st good bad := by
  rw [Ends, bind_of_ok h]
  exact hk

theorem Goes.then {b : β} {st'' : State} (h : Goes step scene st a st')
    (hk : Goes (k a) scene st' b st'') : Goes (step >>= k) scene st b st'' :=
  (bind_of_ok h).trans hk

theorem Ends.bind {mid : α → State → Prop} {good : β → State → Prop}
    (h : Ends step scene st mid bad) (hk : ∀ a st', mid a st' → Ends (k a) scene st' good bad) :
    Ends (step >>= k) scene st good bad := by
  rw [Ends] at h
  rcases hstep : step scene st with ⟨a, st'⟩ | ⟨_ | error, st'⟩ <;> rw [hstep] at h
  · exact Goes.bind hstep (hk a st' h)
  · exact h.elim
  · rw [Ends, bind_of_error hstep]
    exact h

theorem Ends.mono {good' : α → State → Prop} {bad' : Located LoweringError → State → Prop}
    (h : Ends step scene st good bad) (hgood : ∀ a st', good a st' → good' a st')
    (hbad : ∀ error st', bad error st' → bad' error st') : Ends step scene st good' bad' := by
  rw [Ends] at h ⊢
  rcases hstep : step scene st with ⟨a, st'⟩ | ⟨_ | error, st'⟩ <;> rw [hstep] at h
  · exact hgood a st' h
  · exact h
  · exact hbad error st' h

theorem Ends.imp {good' : α → State → Prop} (h : Ends step scene st good bad)
    (himp : ∀ a st', good a st' → good' a st') : Ends step scene st good' bad :=
  h.mono himp fun _ _ h => h

/-- A step that can end in one way only goes there. -/
theorem Ends.goes (h : Ends step scene st (fun b st'' => b = a ∧ st'' = st') fun _ _ => False) :
    Goes step scene st a st' := by
  rw [Ends] at h
  rw [Goes]
  split at h
  next hrun =>
    obtain ⟨rfl, rfl⟩ := h
    exact hrun
  all_goals exact h.elim

theorem ends_pure (h : good a st) : Ends (pure a) scene st good bad := h

/-! ## Asking -/

theorem goes_read (scene : Scene) (st : State) : Goes read scene st scene st := rfl

theorem goes_ask {question : Store → Except Fault α} (h : question scene.store = .ok a)
    (st : State) : Goes (ask question) scene st a st := by
  change check (question scene.store) scene st = _
  rw [h]
  rfl

theorem ends_refuse {id : NodeId} {error : LoweringError}
    (hspan : ∃ span, scene.store.nearestSpan id = .ok span)
    (hbad : ∀ span, scene.store.nearestSpan id = .ok span → bad ⟨error, span⟩ st) :
    Ends (refuse id error) scene st good bad := by
  obtain ⟨span, hspan⟩ := hspan
  exact Goes.bind (goes_ask hspan st) (hbad span hspan)

theorem goes_resolveOr {question : Store → Resolve α} (h : question scene.store = .ok a)
    (id : NodeId) (st : State) : Goes (resolveOr id question) scene st a st := by
  refine Goes.then (goes_read scene st) ?_
  rw [h]
  rfl

theorem ends_resolveOr {question : Store → Resolve α} {id : NodeId} {error : ResolveError}
    (h : question scene.store = .error (.unresolved error))
    (hrefuse : Ends (refuse id (.ofResolve error)) scene st good bad) :
    Ends (resolveOr id question) scene st good bad := by
  refine Goes.bind (goes_read scene st) ?_
  rw [h]
  exact hrefuse

theorem goes_get (scene : Scene) (st : State) : Goes get scene st st st := rfl

theorem goes_note (scene : Scene) (st : State) (event : Event) :
    Goes (note event) scene st () { st with events := st.events.push event } := rfl

theorem goes_modifyProgram (scene : Scene) (st : State) (f : Program → Program) :
    Goes (modifyProgram f) scene st () { st with program := f st.program } := rfl

theorem goes_functionAt {index : Nat} {F : Func} (h : st.program.functions[index]? = some F) :
    Goes (functionAt index) scene st F st := by
  change check (st.program.function index) scene st = _
  rw [Program.function, h]
  rfl

theorem goes_registered? (s : Store) (st : State) (name : Ident) :
    Goes (registered? name) ⟨s, true⟩ st (st.program.function? name) st := rfl

/-! ## Frames -/

variable {f : Frame}

theorem goes_frame (h : st.frame = some f) : Goes frame scene st f st := by
  refine Goes.then (goes_get scene st) ?_
  rw [h]
  rfl

theorem frame_of_none (h : st.frame = none) :
    frame scene st = .error (.fault .outsideBody) st :=
  (bind_of_ok (goes_get scene st)).trans (by rw [h]; rfl)

theorem goes_setFrame (scene : Scene) (st : State) (f : Option Frame) :
    Goes (setFrame f) scene st () { st with frame := f } := rfl

theorem goes_newSlot (h : st.frame = some f) :
    Goes newSlot scene st f.next { st with frame := some { f with next := f.next + 1 } } :=
  (goes_frame h).then rfl

theorem goes_emit (h : st.frame = some f) (instr : Instr) :
    Goes (emit instr) scene st () { st with frame := some { f with body := f.body ++ [instr] } } :=
  (goes_frame h).then rfl

theorem goes_bindTo (h : st.frame = some f) (id : NodeId) (operand : Operand) :
    Goes (bindTo id operand) scene st ()
      { st with frame := some { f with bindings := (id, operand) :: f.bindings } } :=
  (goes_frame h).then rfl

/-- A step that drops the body in progress when it stops keeps its result. -/
theorem dropping_of_ok (h : step scene st = .ok a st') :
    (tryCatch step fun halt => do setFrame none; throw halt) scene st = .ok a st' := by
  change EStateM.tryCatch (step scene) _ st = _
  delta EStateM.tryCatch
  simp only [h]

/-- When it stops, it stops with the frame gone. -/
theorem dropping_of_error {halt : Halt} (h : step scene st = .error halt st') :
    (tryCatch step fun halt => do setFrame none; throw halt) scene st =
      .error halt { st' with frame := none } := by
  change EStateM.tryCatch (step scene) _ st = _
  delta EStateM.tryCatch
  simp only [h]
  rfl

/-- A step that drops the body in progress when it stops, stops as it would. -/
theorem ends_dropping
    (h : Ends step scene st good fun error st' => bad error { st' with frame := none }) :
    Ends (tryCatch step fun halt => do setFrame none; throw halt) scene st good bad := by
  rw [Ends] at h ⊢
  rcases hstep : step scene st with ⟨a, st'⟩ | ⟨_ | error, st'⟩ <;> rw [hstep] at h
  · rw [dropping_of_ok hstep]
    exact h
  · exact h.elim
  · rw [dropping_of_error hstep]
    exact h

/-- A body in progress is taken away at the end, and when the step is refused. -/
theorem ends_withBody {arguments : List NodeId} {step : Lower Unit}
    {good : Frame → State → Prop} (hframe : st.frame = none)
    (h : Ends step scene { st with frame := some (.ofArguments arguments) }
      (fun _ st' => ∃ f, st'.frame = some f ∧ good f { st' with frame := none })
      fun error st' => bad error { st' with frame := none }) :
    Ends (withBody arguments step) scene st good bad := by
  refine Goes.bind (goes_get scene st) ?_
  rw [hframe]
  refine Goes.bind (goes_setFrame scene st _) (Ends.bind (ends_dropping h) fun _ st' hmid => ?_)
  obtain ⟨f, hf, hgood⟩ := hmid
  exact (goes_frame hf).bind ((goes_setFrame scene st' none).bind (ends_pure hgood))

/-! ## Running -/

/-- A step that is run from the start has a result or is refused, and leaves a program. -/
theorem Ends.run_cases {program : Program} (h : Ends step scene (.start program) good bad) :
    (∃ a st', (step.runOn scene program).result = .ok a ∧
      (step.runOn scene program).program = st'.program ∧ good a st') ∨
    ∃ error st', (step.runOn scene program).result = .error (.refused error) ∧
      (step.runOn scene program).program = st'.program ∧ bad error st' := by
  rw [Ends] at h
  rw [Lower.runOn, ReaderT.run, EStateM.run]
  rcases hstep : step scene (.start program) with ⟨a, st'⟩ | ⟨_ | error, st'⟩ <;> rw [hstep] at h
  · exact .inl ⟨a, st', rfl, rfl, h⟩
  · exact h.elim
  · exact .inr ⟨error, st', rfl, rfl, h⟩

/-- The same where nothing is known of what a refused step leaves. -/
theorem Ends.runOn_cases {program : Program} {bad : Located LoweringError → Prop}
    (h : Ends step scene (.start program) good fun error _ => bad error) :
    (∃ a st', (step.runOn scene program).result = .ok a ∧
      (step.runOn scene program).program = st'.program ∧ good a st') ∨
    ∃ error, (step.runOn scene program).result = .error (.refused error) ∧ bad error := by
  rcases h.run_cases with hdone | ⟨error, _, herror, -, hbad⟩
  · exact .inl hdone
  · exact .inr ⟨error, herror, hbad⟩

end FrontEnd.Lowering
