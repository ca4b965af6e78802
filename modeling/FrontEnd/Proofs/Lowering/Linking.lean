import FrontEnd.Proofs.Lowering.Acceptance
import FrontEnd.Proofs.Lowering.Preservation
import FrontEnd.Proofs.Lowering.Modules

/-!
# Lowered modules are closed

Code is emitted before what it names has been lowered: a call may come before the function
that it calls, and a global or a struct may be used before its declaration.  After a run into
an empty program that ends well, all of it is there: calls go to functions of the program that
fit them, and globals and struct types are found under their own spelling.

What the lists of the program hold is an invariant of every change.  That nothing is missing
from them is known only at the end, when each declaration has been visited.

## Main definitions

* `Expr.calls`, `Stmt.calls`: the written calls in the order in which they are made.
* `Closed`: a program holds all that its parts name.
-/

namespace FrontEnd

/-! ## Written calls -/

namespace Phrase

mutual

/-- The calls of an expression in the order in which they are made: the name of the callee, and
the number of arguments. -/
def Expr.calls : Expr → List (Ident × Nat)
  | .literal _ => []
  | .reference _ => []
  | .call callee arguments => callsOfAll arguments ++ [(callee, arguments.length)]
  | .binary _ lhs rhs => lhs.calls ++ rhs.calls

/-- The calls of expressions one after the other. -/
def callsOfAll : List Expr → List (Ident × Nat)
  | [] => []
  | e :: rest => e.calls ++ callsOfAll rest

end

mutual

/-- The calls of a statement in the order in which they are written. -/
def Stmt.calls : Stmt → List (Ident × Nat)
  | .block body => callsOfBody body
  | .varDecl _ _ value => value.calls
  | .ret none => []
  | .ret (some value) => value.calls
  | .exprStatement value => value.calls

/-- The calls of statements one after the other. -/
def callsOfBody : List Stmt → List (Ident × Nat)
  | [] => []
  | st :: rest => st.calls ++ callsOfBody rest

end

end Phrase

namespace Lowering

open Code Grammar Phrase Store

variable {m : Phrase.Module} {P P' : Program} {n n' : Nat} {locals locals' : Locals}
  {code code' : List Instr} {written written' : List (Ident × Nat)}

/-! ## What code names -/

/-- Whether an instruction is a call. -/
def isCall : Instr → Bool
  | .call _ _ _ => true
  | _ => false

/-- An instruction is a written call: the function at its target has the name of the callee, and
it passes as many arguments. -/
def Targets (P : Program) (written : Ident × Nat) : Instr → Prop
  | .call target arguments _ =>
    (∃ F, P.functions[target]? = some F ∧ F.name.same written.1 = true) ∧
      arguments.length = written.2
  | _ => False

/-- The calls of code are those that are written, and it loads globals of the module under
their own names. -/
structure Resolved (m : Phrase.Module) (P : Program) (written : List (Ident × Nat))
    (code : List Instr) : Prop where
  calls : List.Forall₂ (Targets P) written (code.filter isCall)
  loads : ∀ own output, .load own output ∈ code → ∃ type value, .global type own value ∈ m.decls

namespace Resolved

theorem nil : Resolved m P [] [] := ⟨.nil, by simp⟩

theorem append (h : Resolved m P written code) (h' : Resolved m P written' code') :
    Resolved m P (written ++ written') (code ++ code') where
  calls := by
    rw [List.filter_append]
    exact List.rel_append h.calls h'.calls
  loads own output hmem := by
    rcases List.mem_append.mp hmem with hmem | hmem
    · exact h.loads own output hmem
    · exact h'.loads own output hmem

/-- Other instructions name nothing. -/
theorem snoc {instr : Instr} (h : Resolved m P written code) (hcall : isCall instr = false)
    (hload : ∀ own output, instr ≠ .load own output) : Resolved m P written (code ++ [instr]) := by
  have hinstr : Resolved m P [] [instr] :=
    ⟨by simp [hcall], fun own output hmem => absurd (List.mem_singleton.mp hmem).symm (hload _ _)⟩
  have happend := h.append hinstr
  rwa [List.append_nil] at happend

/-- A call of a function of the module. -/
theorem call {callee : Ident} {d : Decl} {proto : Proto} {target : Nat} {arguments : List Expr}
    {operands : List Operand} {output : Option Nat} (h : Resolved m P written code)
    (hitem : m.item? callee = some d) (hproto : d.proto? = some proto)
    (hcalls : Calls P target proto.name) (hlength : operands.length = arguments.length) :
    Resolved m P (written ++ [(callee, arguments.length)])
      (code ++ [.call target operands output]) := by
  refine h.append ⟨.cons ⟨?_, hlength⟩ .nil, by simp⟩
  obtain ⟨F, hF, hname⟩ := hcalls
  refine ⟨F, hF, ?_⟩
  rw [hname, ← name_eq_of_proto? hproto]
  exact (mem_of_item? hitem).2

end Resolved

/-- The calls of arguments, and their number. -/
theorem Chained.resolved {arguments : List Expr} {operands : List Operand}
    (h : Chained (ExprCode m P locals) n arguments code operands n')
    (hitem : ∀ a ∈ arguments, ∀ {n code op n'}, ExprCode m P locals n a code op n' →
      Resolved m P a.calls code) :
    Resolved m P (callsOfAll arguments) code ∧ operands.length = arguments.length := by
  induction h with
  | nil n => exact ⟨.nil, rfl⟩
  | cons hhead _ ih =>
    obtain ⟨hrest, hlength⟩ := ih fun a ha => hitem a (by simp [ha])
    exact ⟨(hitem _ (by simp) hhead).append hrest, by simp [hlength]⟩

theorem ExprCode.resolved {e : Expr} {op : Operand} (h : ExprCode m P locals n e code op n') :
    Resolved m P e.calls code := by
  induction e generalizing n code op n' with
  | literal l =>
    cases h
    exact .nil
  | reference name =>
    cases h with
    | inSlot _ => exact .nil
    | @global _ _ type own value _ hitem =>
      refine ⟨.nil, fun own' output hmem => ?_⟩
      cases List.mem_singleton.mp hmem
      exact ⟨type, value, (mem_of_item? hitem).1⟩
  | call callee arguments ih =>
    cases h with
    | call hitem hproto _ hcalls harguments =>
      obtain ⟨hresolved, hlength⟩ := harguments.resolved fun a ha => ih a ha
      exact hresolved.call hitem hproto hcalls hlength
    | callVoid hitem hproto _ hcalls harguments =>
      obtain ⟨hresolved, hlength⟩ := harguments.resolved fun a ha => ih a ha
      exact hresolved.call hitem hproto hcalls hlength
  | binary op lhs rhs ihl ihr =>
    cases h with
    | binary hl hr => exact ((ihl hl).append (ihr hr)).snoc rfl (by simp)

theorem Threaded.resolved {body : List Stmt}
    (h : Threaded (StmtCode m P) locals n body code locals' n')
    (hitem : ∀ st ∈ body, ∀ {locals n code locals' n'}, StmtCode m P locals n st code locals' n' →
      Resolved m P st.calls code) : Resolved m P (callsOfBody body) code := by
  induction h with
  | nil locals n => exact .nil
  | cons hhead _ ih =>
    exact (hitem _ (by simp) hhead).append (ih fun st hst => hitem st (by simp [hst]))

theorem StmtCode.resolved {st : Stmt} (h : StmtCode m P locals n st code locals' n') :
    Resolved m P st.calls code := by
  induction st generalizing locals n code locals' n' with
  | block body ih =>
    cases h with
    | block hbody => exact hbody.resolved fun st hst => ih st hst
  | varDecl name type value =>
    cases h with
    | varDecl hvalue => exact hvalue.resolved.snoc rfl (by simp)
  | ret value =>
    cases h with
    | retNone => exact Resolved.nil.snoc rfl (by simp)
    | ret hvalue => exact hvalue.resolved.snoc rfl (by simp)
  | exprStatement value =>
    cases h with
    | exprStatement hvalue => exact hvalue.resolved

theorem FunctionCode.resolved {proto : Proto} {body : List Stmt}
    (h : FunctionCode m P proto body code) : Resolved m P (callsOfBody body) code := by
  obtain ⟨main, locals, n, hmain, rfl⟩ := h
  have hresolved := hmain.resolved fun _ _ => StmtCode.resolved
  split
  · exact hresolved
  · exact hresolved.snoc rfl (by simp)

/-! ## What the program holds -/

/-- What a program holds stems from declarations of the module, each name but once in its
list. -/
structure Stems (m : Phrase.Module) (P : Program) : Prop where
  structs : ∀ ty ∈ P.structs, ∃ fields, .struct ty.name fields ∈ m.decls ∧
    List.Forall₂ (FieldOf m) fields ty.fields
  globals : ∀ g ∈ P.globals, ∃ type value, .global type g.name value ∈ m.decls ∧
    TypeOf m type g.ty ∧ InitialOf value g.ty g.init
  functions : ∀ F ∈ P.functions, ∃ d ∈ m.decls, ∃ proto, d.proto? = some proto ∧
    FunctionOf m proto F
  bodies : ∀ F ∈ P.functions, ∀ code, F.body = some code →
    (∃ attributes proto body, .function attributes proto body ∈ m.decls ∧
      F.name.same proto.name = true) ∧ ∀ instr ∈ code, Linked P instr
  distinctStructs : DistinctNames (P.structs.map StructType.name)
  distinctGlobals : DistinctNames (P.globals.map GlobalVar.name)

theorem Stems.empty (m : Phrase.Module) (name : String) : Stems m (.empty name) := by
  constructor <;> simp [Program.empty]

theorem Change.stems (h : Change m P P') (hstems : Stems m P) : Stems m P' where
  structs := by
    rcases h.structs_cases with hsame | ⟨name, fields, entries, hd, hfields, -, hadded⟩
    · rw [hsame]
      exact hstems.structs
    · rw [hadded]
      exact List.forall_mem_append.mpr ⟨hstems.structs, by simpa using ⟨fields, hd, hfields⟩⟩
  globals := by
    rcases h.globals_cases with hsame | ⟨type, name, value, ty, init, hd, hty, hinit, -, hadded⟩
    · rw [hsame]
      exact hstems.globals
    · rw [hadded]
      exact List.forall_mem_append.mpr
        ⟨hstems.globals, by simpa using ⟨type, value, hd, hty, hinit⟩⟩
  functions F hF := by
    obtain ⟨i, hi⟩ := List.getElem?_of_mem hF
    rcases h.functions_cases hi with hold | ⟨-, hnew⟩ | ⟨F₀, _, _, _, _, hF₀, -, -, -, -, rfl⟩
    · exact hstems.functions F (List.mem_of_getElem? hold)
    · exact hnew
    · obtain ⟨d, hd, proto, hproto, hfunction⟩ := hstems.functions F₀ (List.mem_of_getElem? hF₀)
      exact ⟨d, hd, proto, hproto, ⟨hfunction.1, hfunction.2, hfunction.3, hfunction.4⟩⟩
  bodies F hF code hcode := by
    obtain ⟨i, hi⟩ := List.getElem?_of_mem hF
    rcases h.functions_cases hi with
      hold | ⟨hnone, -⟩ | ⟨F₀, attributes, proto, body, _, -, hd, hsame, -, hlinked, rfl⟩
    · obtain ⟨hdecl, hlinked⟩ := hstems.bodies F (List.mem_of_getElem? hold) code hcode
      exact ⟨hdecl, fun instr hinstr => (hlinked instr hinstr).keep h.keeps⟩
    · rw [hnone] at hcode
      cases hcode
    · cases hcode
      exact ⟨⟨attributes, proto, body, hd, hsame⟩,
        fun instr hinstr => (hlinked instr hinstr).keep h.keeps⟩
  distinctStructs := by
    rcases h.structs_cases with hsame | ⟨name, fields, entries, -, -, hnew, hadded⟩
    · rw [hsame]
      exact hstems.distinctStructs
    · rw [hadded]
      exact distinctNames_map_snoc hstems.distinctStructs hnew
  distinctGlobals := by
    rcases h.globals_cases with hsame | ⟨type, name, value, ty, init, -, -, -, hnew, hadded⟩
    · rw [hsame]
      exact hstems.distinctGlobals
    · rw [hadded]
      exact distinctNames_map_snoc hstems.distinctGlobals hnew

/-! ## Closed programs -/

/-- The types that a program mentions: of fields, globals, parameters and results. -/
def mentionedTypes (P : Program) : List Code.Ty :=
  P.structs.flatMap (fun ty => ty.fields.map Prod.snd) ++ P.globals.map GlobalVar.ty ++
    P.functions.flatMap fun F => F.signature.returnType :: F.signature.parameters

/-- The names of what a program holds. -/
def heldNames (P : Program) : List Ident :=
  P.structs.map StructType.name ++ P.globals.map GlobalVar.name ++ P.functions.map Func.name

/-- A constant is of a type, and an integer is in the range of it. -/
def ConstantFits (c : Constant) (ty : Code.Ty) : Prop :=
  c.ty = ty ∧ ∀ value bits, c = .int value bits →
    -Int.pow 2 (bits - 1) ≤ value ∧ value < Int.pow 2 (bits - 1)

/-- A program that was lowered from a module holds all that its parts name. -/
structure Closed (m : Phrase.Module) (P : Program) : Prop where
  /-- The calls of a function go to the functions that its body calls. -/
  calls : ∀ F ∈ P.functions, ∀ code, F.body = some code →
    ∃ attributes proto body, .function attributes proto body ∈ m.decls ∧ F.name = proto.name ∧
      List.Forall₂ (Targets P) (callsOfBody body) (code.filter isCall)
  /-- They pass what these functions take, and keep what these return. -/
  linked : ∀ F ∈ P.functions, ∀ code, F.body = some code → ∀ instr ∈ code, Linked P instr
  loads : ∀ F ∈ P.functions, ∀ code, F.body = some code →
    ∀ name output, .load name output ∈ code → ∃ g ∈ P.globals, g.name = name
  structs : ∀ name, .struct name ∈ mentionedTypes P → ∃ ty ∈ P.structs, ty.name = name
  names : DistinctNames (heldNames P)
  /-- A global has the type of its declaration, and a constant of that type if it has a value
  there. -/
  initial : ∀ g ∈ P.globals, ∃ type value, .global type g.name value ∈ m.decls ∧
    TypeOf m type g.ty ∧ g.init.isSome = value.isSome ∧ ∀ c ∈ g.init, ConstantFits c g.ty

section Closing

variable (hstems : Stems m P) (hnamed : m.WellNamed) {name : Ident}
include hstems hnamed

/-- A struct of the module is in the program under its own spelling. -/
theorem Stems.exists_struct {fields : List Param} (hd : .struct name fields ∈ m.decls)
    (hrealizes : Realizes P (.struct name fields)) : ∃ ty ∈ P.structs, ty.name = name := by
  obtain ⟨ty, hty, hsame⟩ := hrealizes
  obtain ⟨fields', hd', -⟩ := hstems.structs ty hty
  have heq := eq_of_same_name hnamed hd' hd hsame
  cases heq
  exact ⟨ty, hty, rfl⟩

/-- A global of the module is in the program under its own spelling. -/
theorem Stems.exists_global {type : TypeName} {value : Option Lit}
    (hd : .global type name value ∈ m.decls) (hrealizes : Realizes P (.global type name value)) :
    ∃ g ∈ P.globals, g.name = name := by
  obtain ⟨g, hg, hsame⟩ := hrealizes
  obtain ⟨type', value', hd', -⟩ := hstems.globals g hg
  have heq := eq_of_same_name hnamed hd' hd hsame
  cases heq
  exact ⟨g, hg, rfl⟩

/-- No name is that of two things, also of different lists. -/
theorem Stems.distinctNames (hfunctions : DistinctNames (P.functions.map Func.name)) :
    DistinctNames (heldNames P) := by
  have hother : ∀ {d d' : Decl} {name name' : Ident}, d ∈ m.decls → d.name = name →
      d' ∈ m.decls → d'.name = name' → d ≠ d' → name.same name' = false := by
    rintro d d' _ _ hd rfl hd' rfl hne
    by_contra hsame
    exact hne (eq_of_same_name hnamed hd hd' (by simpa using hsame))
  have hfunction : ∀ F ∈ P.functions, ∃ d ∈ m.decls, d.name = F.name ∧ d.proto?.isSome = true := by
    intro F hF
    obtain ⟨d, hd, proto, hproto, hfunction⟩ := hstems.functions F hF
    exact ⟨d, hd, by rw [name_eq_of_proto? hproto, hfunction.name], by simp [hproto]⟩
  rw [heldNames, distinctNames_append, distinctNames_append]
  refine ⟨⟨hstems.distinctStructs, hstems.distinctGlobals, ?_⟩, hfunctions, ?_⟩
  · simp only [List.forall_mem_map]
    intro ty hty g hg
    obtain ⟨fields, hd, -⟩ := hstems.structs ty hty
    obtain ⟨type, value, hd', -⟩ := hstems.globals g hg
    exact hother hd rfl hd' rfl (by simp)
  · simp only [List.forall_mem_append, List.forall_mem_map]
    constructor
    · intro ty hty F hF
      obtain ⟨fields, hd, -⟩ := hstems.structs ty hty
      obtain ⟨d, hd', hname, hproto⟩ := hfunction F hF
      refine hother hd rfl hd' hname ?_
      rintro rfl
      cases hproto
    · intro g hg F hF
      obtain ⟨type, value, hd, -⟩ := hstems.globals g hg
      obtain ⟨d, hd', hname, hproto⟩ := hfunction F hF
      refine hother hd rfl hd' hname ?_
      rintro rfl
      cases hproto

/-- A struct type that is mentioned is there. -/
theorem Stems.mentioned (hrealizes : ∀ d ∈ m.decls, Realizes P d)
    (h : .struct name ∈ mentionedTypes P) : ∃ ty ∈ P.structs, ty.name = name := by
  have htype : ∃ type, TypeOf m type (.struct name) := by
    rcases List.mem_append.mp h with h | h
    · rcases List.mem_append.mp h with h | h
      · obtain ⟨ty, hty, hfield⟩ := List.mem_flatMap.mp h
        obtain ⟨entry, hentry, htype⟩ := List.mem_map.mp hfield
        obtain ⟨fields, -, hfields⟩ := hstems.structs ty hty
        obtain ⟨field, -, hfieldOf⟩ := exists_of_forall₂_mem hfields hentry
        exact ⟨field.type, htype ▸ hfieldOf.2⟩
      · obtain ⟨g, hg, htype⟩ := List.mem_map.mp h
        obtain ⟨type, value, -, hty, -⟩ := hstems.globals g hg
        exact ⟨type, htype ▸ hty⟩
    · obtain ⟨F, hF, htype⟩ := List.mem_flatMap.mp h
      obtain ⟨d, -, proto, -, hfunction⟩ := hstems.functions F hF
      rcases List.mem_cons.mp htype with htype | hparameter
      · exact ⟨proto.result, htype ▸ hfunction.result⟩
      · obtain ⟨param, -, hparam⟩ := exists_of_forall₂_mem hfunction.parameters hparameter
        exact ⟨param.type, hparam⟩
  obtain ⟨type, htype⟩ := htype
  cases type with
  | prim prim => cases prim <;> cases htype
  | named written =>
    obtain ⟨own, fields, hitem, hname⟩ := htype
    cases hname
    have hd := (mem_of_item? hitem).1
    exact hstems.exists_struct hnamed hd (hrealizes _ hd)

end Closing

/-- What is taken as the initial value of a type is a constant of it. -/
theorem constantFits_of_coerce {l : Lit} {type : TypeName} {ty : Code.Ty} {c : Constant}
    (hty : TypeOf m type ty) (hrange : ∀ v w, l.sized = .int v w → fitsSigned 64 v = true)
    (hcoerce : coerce (constantOf l.sized) ty = .ok c) : ConstantFits c ty := by
  cases type with
  | named name =>
    obtain ⟨own, fields, -, rfl⟩ := hty
    rw [coerce_struct] at hcoerce
    cases hcoerce
  | prim prim =>
    rw [show ty = codeType (.prim prim) from hty] at hcoerce ⊢
    cases l with
    | int value =>
      cases prim with
      | int width =>
        rw [Lit.sized, constantOf, codeType, coerce,
          fitsWidth_bits width (hrange value _ rfl)] at hcoerce
        by_cases hfits : fitsSigned width.bits value = true
        · rw [if_pos hfits] at hcoerce
          cases hcoerce
          rw [fitsSigned, Bool.and_eq_true, decide_eq_true_eq, decide_eq_true_eq] at hfits
          refine ⟨rfl, fun value' bits hc => ?_⟩
          cases hc
          exact hfits
        · rw [if_neg hfits] at hcoerce
          cases hcoerce
      | _ => simp [coerce, constantOf, Lit.sized, codeType, Constant.ty] at hcoerce
    | bool value =>
      cases prim with
      | bool =>
        cases hcoerce
        exact ⟨rfl, fun _ _ hc => by cases hc⟩
      | _ => simp [coerce, constantOf, Lit.sized, codeType, Constant.ty] at hcoerce
    | char value =>
      cases prim with
      | char =>
        cases hcoerce
        exact ⟨rfl, fun _ _ hc => by cases hc⟩
      | _ => simp [coerce, constantOf, Lit.sized, codeType, Constant.ty] at hcoerce

/-- A global has the type of its declaration and a constant of it, where one is written. -/
theorem Stems.initial (hstems : Stems m P)
    (hrange : ∀ type name value, .global type name value ∈ m.decls → ∀ l ∈ value, ∀ v w,
      l.sized = .int v w → fitsSigned 64 v = true) :
    ∀ g ∈ P.globals, ∃ type value, .global type g.name value ∈ m.decls ∧ TypeOf m type g.ty ∧
      g.init.isSome = value.isSome ∧ ∀ c ∈ g.init, ConstantFits c g.ty := by
  intro g hg
  obtain ⟨type, value, hd, hty, hinit⟩ := hstems.globals g hg
  refine ⟨type, value, hd, hty, ?_⟩
  cases value with
  | none =>
    rw [show g.init = none from hinit]
    exact ⟨rfl, by simp⟩
  | some l =>
    obtain ⟨c, hcoerce, hc⟩ := hinit
    rw [hc]
    refine ⟨rfl, fun c' hc' => ?_⟩
    cases hc'
    exact constantFits_of_coerce hty (hrange _ _ _ hd l rfl) hcoerce

/-- The code of a function is the code of its declaration. -/
theorem Stems.resolved {s : Store} {root : NodeId} {F : Func} (hstems : Stems m P)
    (htracks : Tracks s root m m.decls P) (hF : F ∈ P.functions) (hcode : F.body = some code) :
    ∃ attributes proto body, .function attributes proto body ∈ m.decls ∧ F.name = proto.name ∧
      Resolved m P (callsOfBody body) code := by
  obtain ⟨⟨attributes, proto, body, hd, hsame⟩, -⟩ := hstems.bodies F hF code hcode
  obtain ⟨i, F', code', hF', hname, hcode', hfunction⟩ := htracks.compiled hd
  obtain rfl : F = F' := by
    have hdistinct := htracks.distinct
    rw [DistinctNames, List.map_map] at hdistinct
    refine List.inj_on_of_nodup_map hdistinct hF (List.mem_of_getElem? hF') ?_
    rw [Function.comp_apply, Function.comp_apply, hname]
    exact Ident.same_iff.mp hsame
  obtain rfl : code = code' := Option.some.inj (hcode.symm.trans hcode')
  exact ⟨attributes, proto, body, hd, hname, hfunction.resolved⟩

/-- What lowering all declarations of a module leaves is closed. -/
theorem closed_of_tracks {s : Store} {root : NodeId} (hnamed : m.WellNamed)
    (hrange : ∀ type name value, .global type name value ∈ m.decls → ∀ l ∈ value, ∀ v w,
      l.sized = .int v w → fitsSigned 64 v = true)
    (hstems : Stems m P) (hrealizes : ∀ d ∈ m.decls, Realizes P d)
    (htracks : Tracks s root m m.decls P) : Closed m P where
  calls F hF code hcode := by
    obtain ⟨attributes, proto, body, hd, hname, hresolved⟩ := hstems.resolved htracks hF hcode
    exact ⟨attributes, proto, body, hd, hname, hresolved.calls⟩
  linked F hF code hcode := (hstems.bodies F hF code hcode).2
  loads F hF code hcode name output hload := by
    obtain ⟨_, _, _, -, -, hresolved⟩ := hstems.resolved htracks hF hcode
    obtain ⟨type, value, hd⟩ := hresolved.loads name output hload
    exact hstems.exists_global hnamed hd (hrealizes _ hd)
  structs _ hmentioned := hstems.mentioned hnamed hrealizes hmentioned
  names := hstems.distinctNames hnamed htracks.distinct
  initial := hstems.initial hrange

/-! ## Modules that are parsed and lowered -/

variable {tokens : List (Located Token)} {store : Store} {notices : Notices} {parsed : Parsed}
  {root : NodeId}

/-- A parsed module that is lowered into an empty program leaves a closed program, if the integers
among its tokens are in the range of the scanner. -/
theorem lowerModule_closed (hparse : parseModule tokens store notices = .ok parsed)
    (hroot : parsed.result = .ok root)
    (hrange : ∀ t ∈ tokens, ∀ n, t.value = .integer n → n ≤ maxInteger) (name : String)
    (hlower : ((lowerModule root).runOn ⟨parsed.store, true⟩ (.empty name)).result = .ok ()) :
    ∃ m ids, ModuleAt parsed.store m root ids ∧
      Closed m ((lowerModule root).runOn ⟨parsed.store, true⟩ (.empty name)).program := by
  obtain ⟨m, ids, hm, hnamed, hdecls⟩ := parseModule_sound hparse hroot
  obtain ⟨hchanges, hrealizes⟩ := changes_lowerModule hm hnamed (.empty name)
  obtain ⟨htracks, -⟩ := tracks_lowerModule hm hnamed name hlower
  refine ⟨m, ids, hm, closed_of_tracks hnamed ?_ (hchanges.invariant (.empty m name) Change.stems)
    (hrealizes hlower) htracks⟩
  intro type global value hd l hl v w hsized
  obtain ⟨ts, hts, hsubset⟩ := hdecls _ hd
  refine fitsSigned_of_tokens hts (fun n hn => ?_) hl hsized
  obtain ⟨t, ht, hvalue⟩ := List.mem_map.mp (hsubset hn)
  exact hrange t ht n hvalue

theorem lowerModule_closed_backward :
    let tokens : List (Located Token) :=
      (backward.tokens ++ [Token.eof]).map fun t => ⟨t, default⟩
    (∀ t ∈ tokens, ∀ n, t.value = .integer n → n ≤ maxInteger) ∧
      ∃ parsed root, parseModule tokens .empty #[] = .ok parsed ∧ parsed.result = .ok root ∧
        let lowered := (lowerModule root).runOn ⟨parsed.store, true⟩ (.empty "")
        lowered.result = .ok () ∧ Closed backward lowered.program := by
  intro tokens
  have hnames : backward.WellNamed := by decide
  have hfits : backward.Fits maxNesting := by decide
  obtain ⟨parsed, root, ids, hparse, hroot, hm, -⟩ := parseModule_of_tokens .empty #[]
    (moduleTokens_tokens hnames hfits)
    (show tokens.map Located.value = _ by simp [tokens, Function.comp_def])
  obtain ⟨hrange, parsed', root', hparse', hroot', hlower⟩ := lowers_backward
  obtain rfl : parsed = parsed' := Except.ok.inj (hparse.symm.trans hparse')
  obtain rfl : root = root' := Except.ok.inj (hroot.symm.trans hroot')
  refine ⟨hrange, parsed, root, hparse, hroot, hlower, ?_⟩
  obtain ⟨m, ids', hm', hclosed⟩ := lowerModule_closed hparse hroot hrange "" hlower
  obtain rfl : backward = m := hm.unique hm'
  exact hclosed

end Lowering

end FrontEnd
