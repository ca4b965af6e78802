import FrontEnd.Proofs.Lowering.Numbering
import FrontEnd.Proofs.Lowering.Registry
import Mathlib.Logic.Relation

/-!
# How lowering changes a program

Lowering a module changes a program in five ways: it may take the name of the module, declare a
function of the module, give a declared function its code, add a struct type, or add a global.
`Change` lists them with all that is known when they happen, whatever the program held before;
what a run can do to a program follows from that by induction.

A step inside a declaration only ever declares functions, so a declaration that fails leaves no
more than that.

## Main definitions

* `TypeOf`, `FieldOf`, `FunctionOf`, `InitialOf`: what is written, in the code.
* `Linked`: a call fits the function that it calls.
* `Declares`: functions are declared, one after the other.
* `Change`, `Changes`: the changes of a program.
-/

namespace FrontEnd.Lowering

open Code Phrase Relation

variable {m : Phrase.Module} {P P' P'' : Program} {F : Func} {i : Nat}

/-! ## What declarations mean in the code -/

/-- The type that a written type of a module is in the code.  A struct has the spelling of its
declaration. -/
def TypeOf (m : Phrase.Module) : TypeName → Code.Ty → Prop
  | .prim type, ty => ty = codeType (.prim type)
  | .named name, ty => ∃ own fields, m.item? name = some (.struct own fields) ∧ ty = .struct own

/-- The field that a written field of a struct is in the code. -/
def FieldOf (m : Phrase.Module) (field : Param) (entry : Ident × Code.Ty) : Prop :=
  entry.1 = field.name ∧ TypeOf m field.type entry.2

/-- The function that a prototype of a module is in the code, whatever its body. -/
structure FunctionOf (m : Phrase.Module) (proto : Proto) (F : Func) : Prop where
  name : F.name = proto.name
  parameters : List.Forall₂ (fun param ty => TypeOf m param.type ty) proto.params
    F.signature.parameters
  variadic : F.signature.variadic = proto.variadic
  result : TypeOf m proto.result F.signature.returnType

/-- The initial value of a global of a type. -/
def InitialOf : Option Lit → Code.Ty → Option Constant → Prop
  | none, _, init => init = none
  | some l, ty, init => ∃ value, coerce (constantOf l.sized) ty = .ok value ∧ init = some value

/-- A signature takes as many arguments as it has parameters, and more if it is variadic. -/
def TakesCount (signature : Signature) (count : Nat) : Prop :=
  count = signature.parameters.length ∨
    signature.variadic = true ∧ signature.parameters.length ≤ count

theorem takesCount_of_accepts {signature : Signature} {count : Nat}
    (h : accepts signature count = true) : TakesCount signature count := by
  rw [accepts, Bool.and_eq_true, Bool.or_eq_true, decide_eq_true_eq, decide_eq_true_eq] at h
  obtain ⟨hle, hge | hvariadic⟩ := h
  · exact .inl (Nat.le_antisymm hge hle)
  · exact .inr ⟨hvariadic, hle⟩

/-- A call passes what the function at its target takes, and keeps what that returns. -/
def Linked (P : Program) : Instr → Prop
  | .call target arguments output => ∃ F, P.functions[target]? = some F ∧
      TakesCount F.signature arguments.length ∧ (output = none ↔ F.signature.returnType = .void)
  | _ => True

/-- Every function keeps its place, its name and its signature, and its body if it has one. -/
def KeepsFunctions (P P' : Program) : Prop :=
  ∀ (i : Nat) (F : Func), P.functions[i]? = some F →
    ∃ F' : Func, P'.functions[i]? = some F' ∧ F'.name = F.name ∧ F'.signature = F.signature ∧
      (F.hasBody = true → F' = F)

theorem Linked.keep {instr : Instr} (h : Linked P instr) (hkeeps : KeepsFunctions P P') :
    Linked P' instr := by
  cases instr with
  | call target arguments output =>
    obtain ⟨F, hF, htakes, hvoid⟩ := h
    obtain ⟨F', hF', -, hsignature, -⟩ := hkeeps target F hF
    exact ⟨F', hF', by rwa [hsignature], by rwa [hsignature]⟩
  | _ => trivial

/-! ## Declaring functions -/

/-- A function of the module is declared under a name that is free. -/
inductive Declare (m : Phrase.Module) : Program → Program → Prop
  | mk {P : Program} {d : Decl} {proto : Proto} {F : Func} : d ∈ m.decls →
      d.proto? = some proto → FunctionOf m proto F → F.body = none →
      P.function? proto.name = none → Declare m P (addFunction P F)

/-- Functions of the module are declared one after the other. -/
abbrev Declares (m : Phrase.Module) : Program → Program → Prop := ReflTransGen (Declare m)

theorem Declares.getElem? (h : Declares m P P') (hF : P.functions[i]? = some F) :
    P'.functions[i]? = some F := by
  induction h with
  | refl => exact hF
  | tail _ hstep ih =>
    obtain ⟨_, _, _, _, _⟩ := hstep
    exact getElem?_addFunction ih _

theorem Declares.keeps (h : Declares m P P') : KeepsFunctions P P' :=
  fun _ F hF => ⟨F, h.getElem? hF, rfl, rfl, fun _ => rfl⟩

/-! ## Changes -/

/-- One change that lowering a module makes to a program. -/
inductive Change (m : Phrase.Module) : Program → Program → Prop
  | claimName {P : Program} : Change m P (P.claimName m.name.text)
  | declare {P P' : Program} : Declare m P P' → Change m P P'
  /-- A function without a body gets code, which is numbered from its parameters on. -/
  | define {P : Program} {attributes : List Ident} {proto : Proto} {body : List Stmt} {i : Nat}
      {F : Func} {code : List Instr} : .function attributes proto body ∈ m.decls →
      P.functions[i]? = some F → F.name.same proto.name = true → F.body = none →
      SingleAssignment F.signature.parameters.length code → (∀ instr ∈ code, Linked P instr) →
      Change m P (P.define i code)
  | addStruct {P : Program} {name : Ident} {fields : List Param}
      {entries : List (Ident × Code.Ty)} : .struct name fields ∈ m.decls →
      List.Forall₂ (FieldOf m) fields entries → Change m P (P.addStruct ⟨name, entries⟩)
  | addGlobal {P : Program} {type : TypeName} {name : Ident} {value : Option Lit} {ty : Code.Ty}
      {init : Option Constant} : .global type name value ∈ m.decls →
      TypeOf m type ty → InitialOf value ty init → P.hasGlobal name = false →
      Change m P (P.addGlobal ⟨name, ty, init⟩)

/-- Changes one after the other. -/
abbrev Changes (m : Phrase.Module) : Program → Program → Prop := ReflTransGen (Change m)

theorem Declares.changes (h : Declares m P P') : Changes m P P' := by
  induction h with
  | refl => exact .refl
  | tail _ hstep ih => exact ih.tail (.declare hstep)

/-- What holds at the start and is kept by every change holds after a run. -/
theorem Changes.invariant {Inv : Program → Prop} (h : Changes m P P') (hstart : Inv P)
    (hstep : ∀ {P P'}, Change m P P' → Inv P → Inv P') : Inv P' := by
  induction h with
  | refl => exact hstart
  | tail _ hchange ih => exact hstep hchange ih

/-! ## What a program holds after a change -/

@[simp] theorem structs_claimName (P : Program) (name : String) :
    (P.claimName name).structs = P.structs := by
  unfold Program.claimName
  split <;> rfl

@[simp] theorem globals_claimName (P : Program) (name : String) :
    (P.claimName name).globals = P.globals := by
  unfold Program.claimName
  split <;> rfl

@[simp] theorem functions_claimName (P : Program) (name : String) :
    (P.claimName name).functions = P.functions := by
  unfold Program.claimName
  split <;> rfl

@[simp] theorem globals_addStruct (P : Program) (ty : StructType) :
    (P.addStruct ty).globals = P.globals := by
  unfold Program.addStruct
  split <;> rfl

@[simp] theorem functions_addStruct (P : Program) (ty : StructType) :
    (P.addStruct ty).functions = P.functions := by
  unfold Program.addStruct
  split <;> rfl

/-- Structs are added under new names, as they are declared. -/
theorem Change.structs_cases (h : Change m P P') : P'.structs = P.structs ∨
    ∃ name fields entries, .struct name fields ∈ m.decls ∧
      List.Forall₂ (FieldOf m) fields entries ∧ (∀ ty ∈ P.structs, ty.name.same name = false) ∧
      P'.structs = P.structs ++ [⟨name, entries⟩] := by
  cases h with
  | claimName => exact .inl (structs_claimName ..)
  | declare hdeclare =>
    obtain ⟨-, -, -, -, -⟩ := hdeclare
    exact .inl rfl
  | define _ _ _ _ _ _ => exact .inl rfl
  | @addStruct name fields entries hd hfields =>
    rw [Program.addStruct]
    cases hnew : P.struct? name with
    | some ty => exact .inl rfl
    | none =>
      refine .inr ⟨name, fields, entries, hd, hfields, fun ty hty => ?_, rfl⟩
      simpa using List.find?_eq_none.mp hnew ty hty
  | addGlobal _ _ _ _ => exact .inl rfl

/-- Globals are added under new names, as they are declared. -/
theorem Change.globals_cases (h : Change m P P') : P'.globals = P.globals ∨
    ∃ type name value ty init, .global type name value ∈ m.decls ∧ TypeOf m type ty ∧
      InitialOf value ty init ∧ (∀ g ∈ P.globals, g.name.same name = false) ∧
      P'.globals = P.globals ++ [⟨name, ty, init⟩] := by
  cases h with
  | claimName => exact .inl (globals_claimName ..)
  | declare hdeclare =>
    obtain ⟨-, -, -, -, -⟩ := hdeclare
    exact .inl rfl
  | define _ _ _ _ _ _ => exact .inl rfl
  | addStruct _ _ => exact .inl (globals_addStruct ..)
  | @addGlobal type name value ty init hd hty hinit hnew =>
    refine .inr ⟨type, name, value, ty, init, hd, hty, hinit, fun g hg => ?_, rfl⟩
    simpa using List.any_eq_false.mp hnew g hg

/-- A function that is found after a function was added was there, or is the one added. -/
theorem of_getElem?_addFunction {F' : Func} (h : (addFunction P F).functions[i]? = some F') :
    P.functions[i]? = some F' ∨ F' = F := by
  by_cases hi : i < P.functions.length
  · left
    rwa [addFunction, List.getElem?_append_left hi] at h
  · right
    rw [addFunction, List.getElem?_append_right (Nat.le_of_not_lt hi)] at h
    exact List.mem_singleton.mp (List.mem_of_getElem? h)

/-- The function at a place is old, newly declared, or has just got its code. -/
theorem Change.functions_cases (h : Change m P P') {F' : Func}
    (hF' : P'.functions[i]? = some F') : P.functions[i]? = some F' ∨
    (F'.body = none ∧ ∃ d ∈ m.decls, ∃ proto, d.proto? = some proto ∧ FunctionOf m proto F') ∨
    ∃ F attributes proto body code, P.functions[i]? = some F ∧
      .function attributes proto body ∈ m.decls ∧ F.name.same proto.name = true ∧
      SingleAssignment F.signature.parameters.length code ∧ (∀ instr ∈ code, Linked P instr) ∧
      F' = { F with body := some code } := by
  cases h with
  | claimName =>
    rw [functions_claimName] at hF'
    exact .inl hF'
  | declare hdeclare =>
    obtain @⟨d, proto, F, hd, hproto, hF, hnone, -⟩ := hdeclare
    rcases of_getElem?_addFunction hF' with hF' | rfl
    · exact .inl hF'
    · exact .inr (.inl ⟨hnone, d, hd, proto, hproto, hF⟩)
  | @define attributes proto body j F code hd hF hsame _ hform hlinked =>
    obtain ⟨F₀, hF₀, -, -, hother⟩ := of_getElem?_define hF'
    by_cases hj : j = i
    · subst hj
      obtain rfl := Option.some.inj (hF₀.symm.trans hF)
      rw [getElem?_define hF₀, if_pos rfl] at hF'
      exact .inr (.inr ⟨F₀, attributes, proto, body, code, hF₀, hd, hsame, hform, hlinked,
        (Option.some.inj hF').symm⟩)
    · rw [hother hj]
      exact .inl hF₀
  | addStruct _ _ =>
    rw [functions_addStruct] at hF'
    exact .inl hF'
  | addGlobal _ _ _ _ => exact .inl hF'

theorem Change.keeps (h : Change m P P') : KeepsFunctions P P' := by
  intro i F hF
  cases h with
  | claimName => exact ⟨F, by rwa [functions_claimName], rfl, rfl, fun _ => rfl⟩
  | declare hdeclare =>
    cases hdeclare with
    | mk _ _ _ _ _ => exact ⟨F, getElem?_addFunction hF _, rfl, rfl, fun _ => rfl⟩
  | @define attributes proto body j F₀ code _ hF₀ _ hnone _ _ =>
    refine ⟨_, getElem?_define hF, ?_⟩
    by_cases hj : j = i
    · subst hj
      obtain rfl := Option.some.inj (hF₀.symm.trans hF)
      rw [if_pos rfl]
      exact ⟨rfl, rfl, fun hbody => by simp [Func.hasBody, hnone] at hbody⟩
    · rw [if_neg hj]
      exact ⟨rfl, rfl, fun _ => rfl⟩
  | addStruct _ _ => exact ⟨F, by rwa [functions_addStruct], rfl, rfl, fun _ => rfl⟩
  | addGlobal _ _ _ _ => exact ⟨F, hF, rfl, rfl, fun _ => rfl⟩

/-- The program has a struct, a global or a function under the name of a declaration, and the
function has code if the declaration gives it some. -/
def Realizes (P : Program) : Decl → Prop
  | .struct name _ => ∃ ty ∈ P.structs, ty.name.same name = true
  | .global _ name _ => ∃ g ∈ P.globals, g.name.same name = true
  | .external _ proto => ∃ F ∈ P.functions, F.name.same proto.name = true
  | .function _ proto _ => ∃ F ∈ P.functions, F.name.same proto.name = true ∧
      ∃ code, F.body = some code ∧ SingleAssignment F.signature.parameters.length code

theorem KeepsFunctions.mem {F : Func} (h : KeepsFunctions P P') (hF : F ∈ P.functions) :
    ∃ F' ∈ P'.functions, F'.name = F.name ∧ (F.hasBody = true → F' = F) := by
  obtain ⟨i, hi⟩ := List.getElem?_of_mem hF
  obtain ⟨F', hF', hname, -, hbody⟩ := h i F hi
  exact ⟨F', List.mem_of_getElem? hF', hname, hbody⟩

/-- Nothing is taken away. -/
theorem Change.subset (h : Change m P P') :
    P.structs ⊆ P'.structs ∧ P.globals ⊆ P'.globals := by
  constructor
  · rcases h.structs_cases with hsame | ⟨_, _, _, -, -, -, hadded⟩
    · simp [hsame]
    · simp [hadded]
  · rcases h.globals_cases with hsame | ⟨_, _, _, _, _, -, -, -, -, hadded⟩
    · simp [hsame]
    · simp [hadded]

theorem Change.realizes {d : Decl} (h : Change m P P') (hrealizes : Realizes P d) :
    Realizes P' d := by
  cases d with
  | struct name fields =>
    obtain ⟨ty, hty, hsame⟩ := hrealizes
    exact ⟨ty, h.subset.1 hty, hsame⟩
  | global type name value =>
    obtain ⟨g, hg, hsame⟩ := hrealizes
    exact ⟨g, h.subset.2 hg, hsame⟩
  | external attributes proto =>
    obtain ⟨F, hF, hsame⟩ := hrealizes
    obtain ⟨F', hF', hname, -⟩ := h.keeps.mem hF
    exact ⟨F', hF', by rwa [hname]⟩
  | function attributes proto body =>
    obtain ⟨F, hF, hsame, code, hcode, hassigned⟩ := hrealizes
    obtain ⟨F', hF', -, hkept⟩ := h.keeps.mem hF
    obtain rfl := hkept (by simp [Func.hasBody, hcode])
    exact ⟨F', hF', hsame, code, hcode, hassigned⟩

/-- A struct that was added is there, or another of its name was. -/
theorem realizes_addStruct (P : Program) (name : Ident) (entries : List (Ident × Code.Ty))
    (fields : List Param) : Realizes (P.addStruct ⟨name, entries⟩) (.struct name fields) := by
  rw [Program.addStruct]
  cases h : P.struct? name with
  | some ty => exact ⟨ty, List.mem_of_find?_eq_some h,
      List.find?_some (p := fun ty : StructType => ty.name.same name) h⟩
  | none => exact ⟨⟨name, entries⟩, by simp, Ident.same_refl _⟩

/-- A function that got code has it. -/
theorem realizes_define {attributes : List Ident} {proto : Proto} {body : List Stmt}
    {code : List Instr} (hF : P.functions[i]? = some F) (hsame : F.name.same proto.name = true)
    (hcode : SingleAssignment F.signature.parameters.length code) :
    Realizes (P.define i code) (.function attributes proto body) := by
  have hdefined : (P.define i code).functions[i]? = some { F with body := some code } := by
    rw [getElem?_define hF, if_pos rfl]
  exact ⟨_, List.mem_of_getElem? hdefined, hsame, code, rfl, hcode⟩

/-- Every function of a program with code has it from the start, or it is in single-assignment
form. -/
def Assigned (P₀ P : Program) : Prop :=
  ∀ (i : Nat) (F : Func) (code : List Instr), P.functions[i]? = some F → F.body = some code →
    P₀.functions[i]? = some F ∨ SingleAssignment F.signature.parameters.length code

theorem Change.assigned {P₀ : Program} (h : Change m P P') (hassigned : Assigned P₀ P) :
    Assigned P₀ P' := by
  intro i F code hF hcode
  rcases h.functions_cases hF with
    hold | ⟨hnone, -⟩ | ⟨F₀, _, _, _, code₀, -, -, -, hform, -, rfl⟩
  · exact hassigned i F code hold hcode
  · rw [hnone] at hcode
    cases hcode
  · cases hcode
    exact .inr hform

end FrontEnd.Lowering
