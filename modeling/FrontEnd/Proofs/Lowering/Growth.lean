import FrontEnd.Proofs.Grammar.Ownership
import FrontEnd.Proofs.Grammar.Printing
import FrontEnd.Proofs.Lowering.Modules

/-!
# A program that modules are lowered into only grows

Modules are lowered into one program, one after the other, well or not.  The program keeps what
it has: structs and globals stay as they are and new ones go behind them, and so do functions,
of which only one that has no code may get some, once.  No two functions have one name, nor two
globals, nor two structs.

One change of a program extends it and keeps names distinct; a run is a list of changes.

## Main definitions

* `Extends`: a program holds what another one did.
* `NamesDistinct`: what a program holds has distinct names, kind by kind.
* `LowersInto`: a module that was parsed is lowered into a program.

## Main statements

* `extends_of_lowerAll`: what later runs leave of a program.
-/

namespace FrontEnd.Lowering

open Code Grammar Phrase Relation

variable {m : Phrase.Module} {P P' P'' : Program}

/-! ## Extensions of a program -/

/-- What callers of a function rely on: its name and its signature. -/
def head (F : Func) : Ident × Signature := (F.name, F.signature)

/-- A program holds what another one did, at the same places, and perhaps more behind it.  Of
functions that is the head, and the code too as soon as there is some. -/
structure Extends (P P' : Program) : Prop where
  structs : P.structs <+: P'.structs
  globals : P.globals <+: P'.globals
  heads : P.functions.map head <+: P'.functions.map head
  code : ∀ (i : Nat) (F : Func), P.functions[i]? = some F → F.hasBody = true →
    P'.functions[i]? = some F

namespace Extends

theorem refl (P : Program) : Extends P P :=
  ⟨List.prefix_rfl, List.prefix_rfl, List.prefix_rfl, fun _ _ hF _ => hF⟩

theorem trans (h : Extends P P') (h' : Extends P' P'') : Extends P P'' where
  structs := h.structs.trans h'.structs
  globals := h.globals.trans h'.globals
  heads := h.heads.trans h'.heads
  code i F hF hbody := h'.code i F (h.code i F hF hbody) hbody

/-- A function that is found by its name is found at the same place later. -/
theorem function?_eq (h : Extends P P') {name : Ident} {i : Nat}
    (hi : P.function? name = some i) : P'.function? name = some i := by
  have hheads : ∀ Q : Program, Q.function? name =
      (Q.functions.map head).findIdx? fun entry => entry.1.same name := by
    intro Q
    rw [List.findIdx?_map]
    rfl
  obtain ⟨added, hadded⟩ := h.heads
  rw [hheads] at hi ⊢
  rw [← hadded, List.findIdx?_append, hi]
  rfl

end Extends

/-- Functions that are kept at their places have their heads in the same order. -/
theorem KeepsFunctions.heads (h : KeepsFunctions P P') :
    P.functions.map head <+: P'.functions.map head := by
  rw [List.prefix_iff_getElem?]
  intro i hi
  rw [List.length_map] at hi
  obtain ⟨F, hF, hname, hsignature, -⟩ := h i _ (List.getElem?_eq_getElem hi)
  simp [hF, head, hname, hsignature]

theorem Change.extends (h : Change m P P') : Extends P P' where
  structs := by
    rcases h.structs_cases with hsame | ⟨_, _, _, -, -, -, hadded⟩
    · exact hsame ▸ List.prefix_rfl
    · exact ⟨_, hadded.symm⟩
  globals := by
    rcases h.globals_cases with hsame | ⟨_, _, _, _, _, -, -, -, -, hadded⟩
    · exact hsame ▸ List.prefix_rfl
    · exact ⟨_, hadded.symm⟩
  heads := h.keeps.heads
  code i F hF hbody := by
    obtain ⟨F', hF', -, -, hkept⟩ := h.keeps i F hF
    rw [hF', hkept hbody]

theorem Changes.extends (h : Changes m P P') : Extends P P' :=
  h.invariant (.refl P) fun hchange hextends => hextends.trans hchange.extends

/-! ## Distinct names -/

/-- No two functions of a program have one name, no two globals, and no two structs. -/
structure NamesDistinct (P : Program) : Prop where
  functions : DistinctNames (P.functions.map Func.name)
  globals : DistinctNames (P.globals.map GlobalVar.name)
  structs : DistinctNames (P.structs.map StructType.name)

theorem namesDistinct_empty (name : String) : NamesDistinct (.empty name) :=
  ⟨distinctNames_nil, distinctNames_nil, distinctNames_nil⟩

/-- A change leaves the names of functions as they are, or declares a new one. -/
theorem Change.functionNames_cases (h : Change m P P') :
    P'.functions.map Func.name = P.functions.map Func.name ∨
      ∃ F : Func, P.function? F.name = none ∧ P'.functions = P.functions ++ [F] := by
  cases h with
  | claimName => exact .inl (by rw [functions_claimName])
  | declare hdeclare =>
    obtain @⟨d, proto, F, -, -, hF, -, hnone⟩ := hdeclare
    exact .inr ⟨F, by rw [hF.name, hnone], rfl⟩
  | define _ _ _ _ _ _ => exact .inl (map_name_define ..)
  | addStruct _ _ => exact .inl (by rw [functions_addStruct])
  | addGlobal _ _ _ _ => exact .inl rfl

theorem Change.namesDistinct (h : Change m P P') (hdistinct : NamesDistinct P) :
    NamesDistinct P' where
  functions := by
    rcases h.functionNames_cases with hsame | ⟨F, hnone, hadded⟩
    · rw [hsame]
      exact hdistinct.functions
    · rw [hadded]
      exact distinctNames_map_snoc hdistinct.functions (List.findIdx?_eq_none_iff.mp hnone)
  globals := by
    rcases h.globals_cases with hsame | ⟨_, _, _, _, _, -, -, -, hnew, hadded⟩
    · rw [hsame]
      exact hdistinct.globals
    · rw [hadded]
      exact distinctNames_map_snoc hdistinct.globals hnew
  structs := by
    rcases h.structs_cases with hsame | ⟨_, _, _, -, -, hnew, hadded⟩
    · rw [hsame]
      exact hdistinct.structs
    · rw [hadded]
      exact distinctNames_map_snoc hdistinct.structs hnew

/-! ## Runs one after the other -/

/-- A module that was parsed into an arena, which may have been filled further since, is lowered
into a program, well or not. -/
inductive LowersInto : Program → Program → Prop
  | mk {tokens : List (Located Token)} {store s : Store} {notices : Notices} {parsed : Parsed}
      {root : NodeId} {P : Program} : parseModule tokens store notices = .ok parsed →
      parsed.result = .ok root → Fills parsed.store s →
      LowersInto P ((lowerModule root).runOn ⟨s, true⟩ P).program

theorem LowersInto.changes (h : LowersInto P P') : ∃ m, Changes m P P' := by
  obtain ⟨hparse, hroot, hfills⟩ := h
  obtain ⟨m, ids, hm, hnamed, -⟩ := parseModule_sound hparse hroot
  exact ⟨m, (changes_lowerModule (hm.grow hfills.grown) hnamed P).1⟩

/-- Runs one after the other. -/
abbrev LowerAll : Program → Program → Prop := ReflTransGen LowersInto

theorem LowerAll.extends (h : LowerAll P P') : Extends P P' := by
  induction h with
  | refl => exact .refl P
  | tail _ hrun ih =>
    obtain ⟨m, hchanges⟩ := hrun.changes
    exact ih.trans hchanges.extends

theorem LowerAll.namesDistinct (h : LowerAll P P') (hdistinct : NamesDistinct P) :
    NamesDistinct P' := by
  induction h with
  | refl => exact hdistinct
  | tail _ hrun ih =>
    obtain ⟨m, hchanges⟩ := hrun.changes
    exact hchanges.invariant ih Change.namesDistinct

/-- Whatever has been lowered into a program, further runs extend it, a function that is found by
its name is found at the same place, and names stay distinct. -/
theorem extends_of_lowerAll {name : String} (hbefore : LowerAll (.empty name) P)
    (hafter : LowerAll P P') :
    Extends P P' ∧ (∀ name i, P.function? name = some i → P'.function? name = some i) ∧
      NamesDistinct P ∧ NamesDistinct P' := by
  have hdistinct := hbefore.namesDistinct (namesDistinct_empty name)
  exact ⟨hafter.extends, fun _ _ => hafter.extends.function?_eq, hdistinct,
    hafter.namesDistinct hdistinct⟩

/-- Two modules are parsed into one arena and then lowered into one program; that program after
each run. -/
def loweredInTurn (first second : List (Located Token)) : Option (Program × Program) := do
  let parsed ← (parseModule first .empty #[]).toOption
  let root ← parsed.result.toOption
  let parsed' ← (parseModule second parsed.store #[]).toOption
  let root' ← parsed'.result.toOption
  let program := ((lowerModule root).runOn ⟨parsed'.store, true⟩ (.empty "")).program
  return (program, ((lowerModule root').runOn ⟨parsed'.store, true⟩ program).program)

theorem lowerAll_of_loweredInTurn {first second : List (Located Token)}
    (h : loweredInTurn first second = some (P, P')) :
    LowerAll (.empty "") P ∧ LowerAll P P' := by
  rw [loweredInTurn] at h
  simp only [Option.bind_eq_bind, Option.bind_eq_some_iff, Option.pure_def, Option.some.injEq,
    Prod.mk.injEq, toOption_eq_some_iff] at h
  obtain ⟨parsed, hparse, root, hroot, parsed', hparse', root', hroot', hP, rfl⟩ := h
  rw [← hP]
  exact ⟨.single (.mk hparse hroot (.single ⟨second, #[], parsed', hparse', rfl⟩)),
    .single (.mk hparse' hroot' .refl)⟩

/-- A module with a function that calls another one with too many arguments. -/
def overcalling : Phrase.Module where
  name := ⟨"a"⟩
  decls :=
    [.struct ⟨"S"⟩ [⟨.prim .bool, ⟨"b"⟩⟩],
      .function [] ⟨⟨"g"⟩, [], false, .prim .void⟩
        [.exprStatement (.call ⟨"f"⟩ [.literal (.int 1)])],
      .external [] ⟨⟨"f"⟩, [], false, .prim .void⟩]

/-- A module that has code for a function that the other one only declares. -/
def completing : Phrase.Module where
  name := ⟨"b"⟩
  decls :=
    [.struct ⟨"s"⟩ [],
      .global (.prim .bool) ⟨"x"⟩ none,
      .function [] ⟨⟨"F"⟩, [], false, .prim .void⟩ []]

/-- What the first run leaves, which is refused inside of a body. -/
def interrupted : Program where
  name := "a"
  structs := [⟨⟨"S"⟩, [(⟨"b"⟩, .bool)]⟩]
  globals := []
  functions := [⟨⟨"g"⟩, ⟨[], false, .void⟩, none⟩, ⟨⟨"f"⟩, ⟨[], false, .void⟩, none⟩]

theorem extends_of_lowerAll_interrupted :
    let completed : Program := { interrupted with
      globals := [⟨⟨"x"⟩, .bool, none⟩]
      functions :=
        [⟨⟨"g"⟩, ⟨[], false, .void⟩, none⟩, ⟨⟨"f"⟩, ⟨[], false, .void⟩, some [.ret none]⟩] }
    LowerAll (.empty "") interrupted ∧ LowerAll interrupted completed ∧
      Extends interrupted completed ∧ completed.function? ⟨"F"⟩ = some 1 ∧
      NamesDistinct completed := by
  intro completed
  have hturn : loweredInTurn ((overcalling.tokens ++ [Token.eof]).map fun t => ⟨t, default⟩)
      ((completing.tokens ++ [Token.eof]).map fun t => ⟨t, default⟩) =
        some (interrupted, completed) := by decide +kernel
  obtain ⟨hbefore, hafter⟩ := lowerAll_of_loweredInTurn hturn
  obtain ⟨hextends, hfound, -, hdistinct⟩ := extends_of_lowerAll hbefore hafter
  exact ⟨hbefore, hafter, hextends, hfound _ _ (by decide), hdistinct⟩

end FrontEnd.Lowering
