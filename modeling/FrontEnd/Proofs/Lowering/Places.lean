import FrontEnd.Proofs.Lowering.Registry

/-!
# Equal up to the places of functions

Calls refer to functions by their places.  Code of two programs is the same up to these places if
it is equal but for its calls, and these call functions of the same names.  Where the functions of
both programs have the same names in the same order, such code is equal.

## Main definitions

* `SameInstr`, `SameCode`, `SameFunction`: equal up to the places of functions.

## Main statements

* `SameFunction.eq`: equal, where functions have their places by the same names.
-/

namespace FrontEnd.Lowering

open Code Phrase

variable {P P' : Program}

/-- Instructions of two programs are the same up to the places of functions: a call calls a
function of the same name. -/
inductive SameInstr (P P' : Program) : Instr → Instr → Prop
  | call {target target' : Nat} {name : Ident} {arguments : List Operand} {output : Option Nat} :
      Calls P target name → Calls P' target' name →
      SameInstr P P' (.call target arguments output) (.call target' arguments output)
  | move (value : Operand) (output : Nat) : SameInstr P P' (.move value output) (.move value output)
  | load (source : Ident) (output : Nat) :
      SameInstr P P' (.load source output) (.load source output)
  | binary (op : Operator) (lhs rhs : Operand) (output : Nat) :
      SameInstr P P' (.binary op lhs rhs output) (.binary op lhs rhs output)
  | ret (value : Option Operand) : SameInstr P P' (.ret value) (.ret value)

/-- Code is the same up to the places of functions. -/
abbrev SameCode (P P' : Program) : List Instr → List Instr → Prop := List.Forall₂ (SameInstr P P')

/-- Functions of two programs are the same up to the places of functions. -/
structure SameFunction (P P' : Program) (F F' : Func) : Prop where
  name : F.name = F'.name
  signature : F.signature = F'.signature
  body : Option.Rel (SameCode P P') F.body F'.body

/-- The place of a function depends on the names of the functions only. -/
theorem function?_eq_of_names (h : P.functions.map Func.name = P'.functions.map Func.name)
    (name : Ident) : P.function? name = P'.function? name := by
  have hnames : ∀ Q : Program, Q.function? name =
      (Q.functions.map Func.name).findIdx? fun own => own.same name := by
    intro Q
    rw [List.findIdx?_map]
    rfl
  rw [hnames, hnames, h]

section Names

variable (hnames : P.functions.map Func.name = P'.functions.map Func.name)
  (hdistinct : DistinctNames (P.functions.map Func.name))
include hnames hdistinct

/-- Where functions have the same names in the same order, instructions that are the same up to
the places of functions are equal. -/
theorem SameInstr.eq {i j : Instr} (h : SameInstr P P' i j) : i = j := by
  cases h with
  | call hcalls hcalls' =>
    obtain ⟨F, hF, rfl⟩ := hcalls
    obtain ⟨F', hF', hname⟩ := hcalls'
    have hplace := function?_name hdistinct hF
    rw [function?_eq_of_names hnames, ← hname, function?_name (hnames ▸ hdistinct) hF'] at hplace
    rw [Option.some.inj hplace]
  | move | load | binary | ret => rfl

theorem SameCode.eq {code code' : List Instr} (h : SameCode P P' code code') : code = code' := by
  have heq : List.Forall₂ Eq code code' := h.imp fun _ _ => SameInstr.eq hnames hdistinct
  rwa [List.forall₂_eq_eq_eq] at heq

theorem SameFunction.eq {F F' : Func} (h : SameFunction P P' F F') : F = F' := by
  obtain ⟨name, signature, body⟩ := F
  obtain ⟨name', signature', body'⟩ := F'
  obtain ⟨rfl, rfl, hbody⟩ := h
  cases hbody with
  | none => rfl
  | some hcode => rw [SameCode.eq hnames hdistinct hcode]

end Names

end FrontEnd.Lowering
