import FrontEnd.Proofs.Grammar.Printing
import FrontEnd.Proofs.Lowering.Meaning
import FrontEnd.Proofs.Lowering.Modules
import FrontEnd.Proofs.Phrase.Uniqueness

/-!
# Lowering keeps the meaning of functions

A module that was parsed and then lowered has code for each of its functions, and calling
the code is calling the function as it is written: the same calls are made with the same
arguments, the world ends up the same, and the same value is returned.  This holds of any
interpretation of operators, globals and calls, and both ways of calling always return.
-/

namespace FrontEnd.Lowering

open Code (Func Instr)
open Phrase Store

variable {tokens : List (Located Token)} {store : Store} {notices : Notices}
  {parsed : Grammar.Parsed} {root : NodeId}

/-- A lowered module has code for each of its functions, which means what the function
means. -/
theorem callCode_lowerModule (hparse : Grammar.parseModule tokens store notices = .ok parsed)
    (hroot : parsed.result = .ok root) (name : String)
    (hlower : ((lowerModule root).runOn ⟨parsed.store, true⟩ (.empty name)).result = .ok ()) :
    let program := ((lowerModule root).runOn ⟨parsed.store, true⟩ (.empty name)).program
    (∃ m ids, ModuleAt parsed.store m root ids) ∧
      ∀ m ids, ModuleAt parsed.store m root ids →
        ∀ attributes proto body, .function attributes proto body ∈ m.decls →
          ∃ (i : Nat) (F : Func) (code : List Instr), program.function? proto.name = some i ∧
            program.functions[i]? = some F ∧ F.name = proto.name ∧ F.body = some code ∧
            ∀ (Value World : Type) (I : Interpretation Value World) (arguments : List Value)
              (world : World), arguments.length = proto.params.length →
              ∃ outcome, callWritten I m proto body arguments world = some outcome ∧
                callCode I program code arguments world = some outcome := by
  intro program
  obtain ⟨m, ids, hm, hnamed, -⟩ := Grammar.parseModule_sound hparse hroot
  refine ⟨⟨m, ids, hm⟩, fun m' ids' hm' attributes proto body hmem => ?_⟩
  obtain rfl : m = m' := hm.unique hm'
  obtain ⟨htracks, -⟩ := tracks_lowerModule hm hnamed name hlower
  obtain ⟨i, F, code, hF, hname, hbody, hcode⟩ := htracks.compiled hmem
  refine ⟨i, F, code, ?_, hF, hname, hbody, fun Value World I arguments world hlength => ?_⟩
  · rw [← hname]
    exact function?_name htracks.distinct hF
  · exact hcode.call_eq I hlength world

/-- Numbers as values, and a world that counts calls. -/
def tally : Interpretation Nat Nat where
  int value _ := value.toNat
  bool value := value.toNat
  char value := value.toNat
  unit := 0
  binary op a b := if op = .sub then a - b else a + b
  global _ world := world
  call _ arguments world := (arguments.length, world + 1)

/-- A function that shadows its parameter in a block, and calls a function declared after
it that returns from within a block. -/
def shadowing : Phrase.Module where
  name := ⟨"m"⟩
  decls :=
    [.function [] ⟨⟨"f"⟩, [⟨.prim (.int .w32), ⟨"a"⟩⟩], false, .prim (.int .w32)⟩
      [.varDecl ⟨"b"⟩ none (.binary .sub (.reference ⟨"a"⟩) (.reference ⟨"seed"⟩)),
        .block [.varDecl ⟨"a"⟩ none (.binary .mul (.reference ⟨"b"⟩) (.reference ⟨"b"⟩)),
          .exprStatement (.call ⟨"show"⟩ [.reference ⟨"a"⟩])],
        .ret (some (.call ⟨"g"⟩ [.reference ⟨"a"⟩, .reference ⟨"b"⟩]))],
    .function [] ⟨⟨"g"⟩, [⟨.prim (.int .w32), ⟨"a"⟩⟩, ⟨.prim (.int .w32), ⟨"b"⟩⟩], false,
        .prim (.int .w32)⟩
      [.block [.ret (some (.reference ⟨"b"⟩))], .ret (some (.reference ⟨"a"⟩))],
    .external [] ⟨⟨"show"⟩, [⟨.prim (.int .w32), ⟨"v"⟩⟩], false, .prim .void⟩,
    .global (.prim (.int .w32)) ⟨"seed"⟩ (some (.int 5))]

theorem callCode_lowerModule_shadowing :
    let tokens : List (Located Token) :=
      (shadowing.tokens ++ [Token.eof]).map fun t => ⟨t, default⟩
    ∃ parsed root ids, Grammar.parseModule tokens .empty #[] = .ok parsed ∧
      parsed.result = .ok root ∧ ModuleAt parsed.store shadowing root ids ∧
      let lowered := (lowerModule root).runOn ⟨parsed.store, true⟩ (.empty "")
      lowered.result = .ok () ∧
        ∃ (i : Nat) (F : Func) (code : List Instr), lowered.program.function? ⟨"f"⟩ = some i ∧
          lowered.program.functions[i]? = some F ∧ F.body = some code ∧
          callCode tally lowered.program code [7] 3 =
            some (some 2, ⟨5, [(⟨"show"⟩, [8]), (⟨"g"⟩, [7, 4])]⟩) := by
  intro tokens
  have hnames : shadowing.WellNamed := by decide
  have hfits : shadowing.Fits Grammar.maxNesting := by decide
  obtain ⟨parsed, root, ids, hparse, hroot, hm, -⟩ := Grammar.parseModule_of_tokens .empty #[]
    (Grammar.moduleTokens_tokens hnames hfits)
    (show tokens.map Located.value = _ by simp [tokens, Function.comp_def])
  have hlowers : lowers tokens "" = true := by decide +kernel
  obtain ⟨parsed', root', hparse', hroot', hlower⟩ := exists_of_lowers hlowers
  obtain rfl : parsed = parsed' := Except.ok.inj (hparse.symm.trans hparse')
  obtain rfl : root = root' := Except.ok.inj (hroot.symm.trans hroot')
  obtain ⟨i, F, code, hi, hF, -, hbody, hcode⟩ :=
    (callCode_lowerModule hparse hroot "" hlower).2 shadowing ids hm _ _ _ (List.mem_cons_self ..)
  refine ⟨parsed, root, ids, hparse, hroot, hm, hlower, i, F, code, hi, hF, hbody, ?_⟩
  obtain ⟨outcome, hwritten, hexecuted⟩ := hcode Nat Nat tally [7] 3 rfl
  rw [hexecuted, ← hwritten]
  rfl

end FrontEnd.Lowering
