import FrontEnd.Proofs.Grammar.Printing
import FrontEnd.Proofs.Lowering.Preservation
import FrontEnd.Proofs.Lowering.Modules

/-!
# Lowered code is in single-assignment form

A module that was parsed is lowered into a program that other modules may have left functions
in.  Every function that gets its code there has it in single-assignment form, counted from
the parameters that the program knows, whether the run ends well or not.
-/

namespace FrontEnd.Lowering

open Code Grammar Phrase Store

variable {tokens : List (Located Token)} {store s : Store} {notices : Notices} {parsed : Parsed}
  {root : NodeId}

/-- What lowering a parsed module gives code is in single-assignment form, and if lowering
ends well then every function of the module has such code. -/
theorem lowerModule_assigned (hparse : parseModule tokens store notices = .ok parsed)
    (hroot : parsed.result = .ok root) (hgrown : Grown parsed.store s) (target : Program) :
    let lowered := (lowerModule root).runOn ⟨s, true⟩ target
    (∀ (i : Nat) (F : Func) (code : List Instr), lowered.program.functions[i]? = some F →
      F.body = some code → target.functions[i]? = some F ∨
        SingleAssignment F.signature.parameters.length code) ∧
      ∃ m ids, ModuleAt s m root ids ∧ (lowered.result = .ok () →
        ∀ attributes proto body, .function attributes proto body ∈ m.decls →
          ∃ F ∈ lowered.program.functions, F.name.same proto.name = true ∧
            ∃ code, F.body = some code ∧
              SingleAssignment F.signature.parameters.length code) := by
  intro lowered
  obtain ⟨m, ids, hm, hnamed, -⟩ := parseModule_sound hparse hroot
  have hm' := hm.grow hgrown
  obtain ⟨hchanges, hrealizes⟩ := changes_lowerModule hm' hnamed target
  constructor
  · have hstart : Assigned target target := fun _ _ _ hF _ => .inl hF
    exact hchanges.invariant hstart Change.assigned
  · refine ⟨m, ids, hm', fun hok attributes proto body hmem => ?_⟩
    exact hrealizes hok _ hmem

/-- Tokens are parsed as a module, which is lowered into a program; the function at a place
after that. -/
def loweredAt (tokens : List (Located Token)) (target : Program) (i : Nat) : Option Func := do
  let parsed ← (parseModule tokens .empty #[]).toOption
  let root ← parsed.result.toOption
  ((lowerModule root).runOn ⟨parsed.store, true⟩ target).program.functions[i]?

theorem exists_of_loweredAt {target : Program} {i : Nat} {F : Func}
    (h : loweredAt tokens target i = some F) :
    ∃ parsed root, parseModule tokens .empty #[] = .ok parsed ∧ parsed.result = .ok root ∧
      ((lowerModule root).runOn ⟨parsed.store, true⟩ target).program.functions[i]? = some F := by
  rw [loweredAt] at h
  simp only [Option.bind_eq_bind, Option.bind_eq_some_iff,
    Grammar.toOption_eq_some_iff] at h
  obtain ⟨parsed, hparse, root, hroot, hF⟩ := h
  exact ⟨parsed, root, hparse, hroot, hF⟩

/-- A program in which another module has declared a function under another spelling, with
other types, that returns nothing. -/
def declaredElsewhere : Program where
  name := "n"
  structs := []
  globals := []
  functions := [⟨⟨"G"⟩, ⟨[.bool, .bool], false, .void⟩, none⟩]

/-- The code of a function that calls the function declared elsewhere. -/
def shadowingCode : List Instr :=
  [.load ⟨"seed"⟩ 1, .binary .sub (.slot 0) (.slot 1) 2, .move (.slot 2) 3,
    .binary .mul (.slot 3) (.slot 3) 4, .move (.slot 4) 5, .call 2 [.slot 5] none,
    .call 0 [.slot 0, .slot 3] none, .ret (some .void)]

theorem lowerModule_assigned_elsewhere :
    let tokens : List (Located Token) :=
      (shadowing.tokens ++ [Token.eof]).map fun t => ⟨t, default⟩
    ∃ parsed root F, parseModule tokens .empty #[] = .ok parsed ∧ parsed.result = .ok root ∧
      ((lowerModule root).runOn ⟨parsed.store, true⟩ declaredElsewhere).program.functions[1]? =
        some F ∧ F.body = some shadowingCode ∧ SingleAssignment 1 shadowingCode := by
  intro tokens
  have hlowered : loweredAt tokens declaredElsewhere 1 =
      some ⟨⟨"f"⟩, ⟨[.int 32], false, .int 32⟩, some shadowingCode⟩ := by decide +kernel
  obtain ⟨parsed, root, hparse, hroot, hF⟩ := exists_of_loweredAt hlowered
  refine ⟨parsed, root, _, hparse, hroot, hF, rfl, ?_⟩
  rcases (lowerModule_assigned hparse hroot (.refl _) declaredElsewhere).1 1 _ _ hF rfl with
    hold | hassigned
  · cases hold
  · exact hassigned

end FrontEnd.Lowering
