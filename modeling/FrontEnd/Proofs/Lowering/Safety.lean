import FrontEnd.Proofs.Lowering.Growth

/-!
# Lowering an item of a parsed module

An item of a module that was parsed is lowered, or refused with an error that has a place in the
text.  It never faults, whatever the program holds that it is lowered into.  After it the stacks
are as they were and no body is in progress, and a refused item leaves nothing in the program but
functions that are declared.

Visits of any node are level, and visits of a declaration change the program at their end: the
stacks are the business of the former, the program that of the latter.

## Main definitions

* `Restored`: nothing of an item is in progress.
* `OnlyDeclares`: a program has more functions than another one, all without code.

## Main statements

* `lowerStatement_ends`: how lowering an item ends, and what it leaves.
-/

namespace FrontEnd.Lowering

open Code Grammar Phrase Relation Store

variable {α : Type} {scene : Scene} {s : Store} {m : Phrase.Module} {P P' P'' : Program}
  {root : NodeId} {ids : List NodeId} {st st' : State} {step : Lower α}

/-! ## Programs that only declare more -/

/-- A program has what another one has and, behind its functions, functions without code. -/
structure OnlyDeclares (P P' : Program) : Prop where
  name : P'.name = P.name
  structs : P'.structs = P.structs
  globals : P'.globals = P.globals
  functions : ∃ added : List Func, P'.functions = P.functions ++ added ∧ ∀ F ∈ added, F.body = none

namespace OnlyDeclares

theorem refl (P : Program) : OnlyDeclares P P := ⟨rfl, rfl, rfl, [], by simp, by simp⟩

theorem trans (h : OnlyDeclares P P') (h' : OnlyDeclares P' P'') : OnlyDeclares P P'' := by
  obtain ⟨added, hadded, hnone⟩ := h.functions
  obtain ⟨added', hadded', hnone'⟩ := h'.functions
  refine ⟨h'.name.trans h.name, h'.structs.trans h.structs, h'.globals.trans h.globals,
    added ++ added', ?_, List.forall_mem_append.mpr ⟨hnone, hnone'⟩⟩
  rw [hadded', hadded, List.append_assoc]

end OnlyDeclares

theorem Declare.onlyDeclares (h : Declare m P P') : OnlyDeclares P P' := by
  obtain @⟨d, proto, F, -, -, -, hnone, -⟩ := h
  exact ⟨rfl, rfl, rfl, [F], rfl, by simpa using hnone⟩

theorem Declares.onlyDeclares (h : Declares m P P') : OnlyDeclares P P' := by
  induction h with
  | refl => exact .refl P
  | tail _ hstep ih => exact ih.trans hstep.onlyDeclares

/-! ## Items -/

/-- The stacks are as they were, and no body is in progress. -/
structure Restored (st st' : State) : Prop where
  values : st'.values = st.values
  types : st'.types = st.types
  frame : st'.frame = none

theorem Steady.restored (h : Steady st st') (hframe : st.frame = none) : Restored st st' := by
  refine ⟨h.values, h.types, ?_⟩
  rw [← Option.isNone_iff_eq_none, ← Option.not_isSome, h.body, hframe]
  rfl

/-- A level step that does not fault leaves a steady state. -/
theorem Ends.steady {good : α → State → Prop} {bad : Located LoweringError → State → Prop}
    (h : Ends step scene st good bad) (hlevel : LevelAt step scene st) :
    Ends step scene st (fun a st' => Steady st st' ∧ good a st')
      fun error st' => Steady st st' ∧ bad error st' := by
  rw [Ends] at h ⊢
  rw [LevelAt] at hlevel
  rcases hstep : step scene st with ⟨a, st'⟩ | ⟨_ | error, st'⟩ <;> rw [hstep] at h hlevel
  · exact ⟨hlevel, h⟩
  · exact h
  · exact ⟨hlevel, h⟩

/-- Lowering a node is visiting it, at most as many levels deep as suffice for the store. -/
theorem lowerStatement_eq (id : NodeId) (scene : Scene) (st : State) :
    lowerStatement id scene st = statement (visit (levels scene.store)) id scene st := by
  have hroot : visitRoot id scene = visit (levels scene.store) id scene := by
    funext st
    exact bind_of_ok (goes_read scene st)
  have haccept : accept visitRoot id scene = accept (visit (levels scene.store)) id scene := by
    change EStateM.bind (visitRoot id scene) _ = EStateM.bind (visit _ id scene) _
    rw [hroot]
  rw [lowerStatement, statement, statement]
  refine (bind_of_ok (goes_get scene st)).trans (Eq.trans ?_ (bind_of_ok (goes_get scene st)).symm)
  change EStateM.bind (accept visitRoot id scene) _ st = EStateM.bind (accept _ id scene) _ st
  rw [haccept]

/-- An item changes the program at the end of its visit, which is deep enough. -/
theorem commits_lowerStatement (hm : ModuleAt s m root ids) (hnamed : m.WellNamed) {item : NodeId}
    (hitem : item ∈ ids) (hframe : st.frame = none) :
    ∃ d, Commits s root m False (lowerStatement item) st fun _ =>
      DeclDone s root m False [] d st.program := by
  obtain ⟨d, hd, lo, hi, hlo, hhi, hat⟩ := hm.decls.exists_of_mem hitem
  have hin := Framed.within hat
  have hlevels : (s.size + 1) * 2 ≤ levels s := Nat.mul_le_mul_left _ (by omega)
  have hdecl : s.DeclIn root (s.size - 1) d item :=
    hat.standing (hnamed.2 d hd) (hm.around hitem (by omega)) (by omega)
  refine ⟨d, ?_⟩
  have hvisit : Commits s root m False (statement (visit (levels s)) item) st fun _ =>
      DeclDone s root m False [] d st.program :=
    commits_decl hm (by omega) hframe False.elim hnamed hdecl hd (by simp)
  rw [Commits, Ends] at hvisit
  rw [Commits, Ends, lowerStatement_eq]
  exact hvisit

/-- Whatever is lowered into, an item of a module that was parsed is lowered or refused.  In both
cases the stacks are restored and no body is in progress; a refused item leaves nothing behind but
functions that it declared. -/
theorem lowerStatement_ends {tokens : List (Located Token)} {store : Store} {notices : Notices}
    {parsed : Parsed} (hparse : parseModule tokens store notices = .ok parsed)
    (hroot : parsed.result = .ok root) (hfills : Fills parsed.store s) :
    ∃ m, s.read .module root = .ok m ∧ ∀ item ∈ m.items, ∀ st : State, st.frame = none →
      Ends (lowerStatement item) ⟨s, true⟩ st (fun _ st' => Restored st st')
        fun _ st' => Restored st st' ∧ OnlyDeclares st.program st'.program := by
  obtain ⟨m, ids, hm, hnamed, -⟩ := parseModule_sound hparse hroot
  have hm' := hm.grow hfills.grown
  refine ⟨_, hm'.root.read_eq rfl, fun item hitem st hframe => ?_⟩
  have hlevel : Level (lowerStatement item) := level_statement (level_visitRoot item)
  obtain ⟨d, hcommits⟩ := commits_lowerStatement hm' hnamed hitem hframe
  have hsteady := Ends.steady hcommits (hlevel _ _)
  refine hsteady.mono (fun _ st' h => h.1.restored hframe) fun _ st' h => ?_
  exact ⟨h.1.restored hframe, Declares.onlyDeclares h.2.1⟩

/-- Tokens are parsed as a module, and one of its items is lowered and refused; the error, and the
program that is left. -/
def refusal? (tokens : List (Located Token)) (i : Nat) (st : State) :
    Option (LoweringError × Program) := do
  let parsed ← (parseModule tokens .empty #[]).toOption
  let root ← parsed.result.toOption
  let m ← (parsed.store.read .module root).toOption
  let item ← m.items[i]?
  match lowerStatement item ⟨parsed.store, true⟩ st with
  | .error (.refused error) st' => return (error.value, st'.program)
  | _ => none

theorem exists_of_refusal? {tokens : List (Located Token)} {i : Nat} {error : LoweringError}
    (h : refusal? tokens i st = some (error, P)) :
    ∃ parsed root m item span st', parseModule tokens .empty #[] = .ok parsed ∧
      parsed.result = .ok root ∧ parsed.store.read .module root = .ok m ∧ item ∈ m.items ∧
      lowerStatement item ⟨parsed.store, true⟩ st = .error (.refused ⟨error, span⟩) st' ∧
      st'.program = P := by
  rw [refusal?] at h
  simp only [Option.bind_eq_bind, Option.bind_eq_some_iff, toOption_eq_some_iff] at h
  obtain ⟨parsed, hparse, root, hroot, m, hm, item, hitem, hrefused⟩ := h
  refine ⟨parsed, root, m, item, ?_⟩
  rcases hstep : lowerStatement item ⟨parsed.store, true⟩ st with ⟨_, st'⟩ | ⟨_ | error', st'⟩ <;>
    rw [hstep] at hrefused
  · cases hrefused
  · cases hrefused
  · cases hrefused
    exact ⟨error'.span, st', hparse, hroot, hm, List.mem_of_getElem? hitem, rfl, rfl⟩

theorem lowerStatement_ends_overcalling :
    let tokens : List (Located Token) := (overcalling.tokens ++ [Token.eof]).map (⟨·, default⟩)
    let target : Program :=
      ⟨"t", [⟨⟨"T"⟩, []⟩], [⟨⟨"x"⟩, .bool, none⟩], [⟨⟨"h"⟩, ⟨[], false, .void⟩, some [.ret none]⟩]⟩
    let st : State := ⟨target, none, [.void], [.bool], #[]⟩
    ∃ parsed root m item span st', parseModule tokens .empty #[] = .ok parsed ∧
      parsed.result = .ok root ∧ parsed.store.read .module root = .ok m ∧ item ∈ m.items ∧
      lowerStatement item ⟨parsed.store, true⟩ st =
        .error (.refused ⟨.callArity ⟨"f"⟩ 0 1, span⟩) st' ∧
      st'.program.functions =
        target.functions ++ [⟨⟨"g"⟩, ⟨[], false, .void⟩, none⟩, ⟨⟨"f"⟩, ⟨[], false, .void⟩, none⟩] ∧
      Restored st st' ∧ OnlyDeclares target st'.program := by
  intro tokens target st
  have hrefusal : refusal? tokens 1 st = some (.callArity ⟨"f"⟩ 0 1,
      { target with functions := target.functions ++
          [⟨⟨"g"⟩, ⟨[], false, .void⟩, none⟩, ⟨⟨"f"⟩, ⟨[], false, .void⟩, none⟩] }) := by
    decide +kernel
  obtain ⟨parsed, root, m, item, span, st', hparse, hroot, hm, hitem, hstep, hprogram⟩ :=
    exists_of_refusal? hrefusal
  obtain ⟨m', hm', hends⟩ := lowerStatement_ends hparse hroot .refl
  obtain rfl := Except.ok.inj (hm.symm.trans hm')
  have hleft := hends item hitem st rfl
  rw [Ends, hstep] at hleft
  exact ⟨parsed, root, m, item, span, st', hparse, hroot, hm, hitem, hstep, by rw [hprogram],
    hleft.1, hleft.2⟩

end FrontEnd.Lowering
