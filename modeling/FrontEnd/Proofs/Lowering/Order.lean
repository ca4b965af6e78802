import FrontEnd.Proofs.Lowering.Changes

/-!
# The order in which lowering adds to a program

Structs and globals are added when their declarations are visited.  A function is added when its
name is needed first: when its declaration is visited, or before that by a call.  A call needs its
callee before its arguments are visited, so that the order of functions is not that of the calls
in the code.

## Main definitions

* `Expr.needs`, `Stmt.needs`, `Decl.needs`: the names of functions that a phrase needs.
* `InOrder`: the functions of a program are there in the order in which names are needed.
* `Needs`: functions are added for names that are needed, and nothing else.
* `Listed`: what a program lists after some declarations, and in which order.
-/

namespace FrontEnd

/-! ## Names that are needed -/

namespace Phrase

mutual

/-- The functions that an expression needs: that of a call before those of its arguments, and
operands from left to right. -/
def Expr.needs : Expr → List Ident
  | .literal _ => []
  | .reference _ => []
  | .call callee arguments => callee :: needsOfAll arguments
  | .binary _ lhs rhs => lhs.needs ++ rhs.needs

/-- The functions that expressions one after the other need. -/
def needsOfAll : List Expr → List Ident
  | [] => []
  | e :: rest => e.needs ++ needsOfAll rest

end

mutual

/-- The functions that a statement needs. -/
def Stmt.needs : Stmt → List Ident
  | .block body => needsOfBody body
  | .varDecl _ _ value => value.needs
  | .ret none => []
  | .ret (some value) => value.needs
  | .exprStatement value => value.needs

/-- The functions that statements one after the other need. -/
def needsOfBody : List Stmt → List Ident
  | [] => []
  | st :: rest => st.needs ++ needsOfBody rest

end

/-- The functions that a declaration needs: first the one that it declares. -/
def Decl.needs : Decl → List Ident
  | .struct _ _ | .global _ _ _ => []
  | .external _ proto => [proto.name]
  | .function _ proto body => proto.name :: needsOfBody body

/-- The functions that the declarations of a module need. -/
def Module.needs (m : Module) : List Ident := m.decls.flatMap Decl.needs

end Phrase

namespace Lowering

open Code Phrase Store

variable {P P' P'' : Program} {needed names more : List Ident}

/-! ## Functions in order -/

/-- The functions of a program have the names that are needed, each once, in the order in which
they are needed first. -/
def InOrder (needed : List Ident) (P : Program) : Prop :=
  P.functions.map (fun F => F.name.key) = (needed.map Ident.key).eraseDups

theorem eraseDups_append_singleton {κ : Type} [BEq κ] [LawfulBEq κ] (keys : List κ) (k : κ) :
    (keys ++ [k]).eraseDups = if k ∈ keys then keys.eraseDups else keys.eraseDups ++ [k] := by
  rw [List.eraseDups_append, List.removeAll, List.filter_singleton]
  by_cases hmem : k ∈ keys
  · simp [hmem]
  · simp [hmem, List.eraseDups_cons]

/-- A name that a function has is needed once more. -/
theorem InOrder.again {name : Ident} {F : Func} (h : InOrder needed P) (hF : F ∈ P.functions)
    (hsame : F.name.same name = true) : InOrder (needed ++ [name]) P := by
  have hmem : name.key ∈ needed.map Ident.key := by
    rw [← List.mem_eraseDups, ← h, ← Ident.same_iff.mp hsame]
    exact List.mem_map_of_mem hF
  rw [InOrder, List.map_append, List.map_singleton, eraseDups_append_singleton, if_pos hmem]
  exact h

/-- A function is added for a name that is needed for the first time. -/
theorem InOrder.addFunction {F : Func} (h : InOrder needed P) (hnew : P.function? F.name = none) :
    InOrder (needed ++ [F.name]) (addFunction P F) := by
  have hnot : F.name.key ∉ needed.map Ident.key := by
    rw [← List.mem_eraseDups, ← h, List.mem_map]
    rintro ⟨F', hF', hkey⟩
    have hfalse := List.findIdx?_eq_none_iff.mp hnew F' hF'
    rw [Ident.same_iff.mpr hkey] at hfalse
    cases hfalse
  rw [InOrder, List.map_append, List.map_singleton, eraseDups_append_singleton, if_neg hnot, ← h,
    Lowering.addFunction, List.map_append, List.map_singleton]

/-- From one program to the next, functions are added for names that are needed, and nothing
else. -/
structure Needs (names : List Ident) (P P' : Program) : Prop where
  structs : P'.structs = P.structs
  globals : P'.globals = P.globals
  order : ∀ {needed}, InOrder needed P → InOrder (needed ++ names) P'

namespace Needs

theorem refl (P : Program) : Needs [] P P := ⟨rfl, rfl, fun h => by rwa [List.append_nil]⟩

theorem trans (h : Needs names P P') (h' : Needs more P' P'') : Needs (names ++ more) P P'' where
  structs := h'.structs.trans h.structs
  globals := h'.globals.trans h.globals
  order hneeded := by
    rw [← List.append_assoc]
    exact h'.order (h.order hneeded)

/-- Names may be needed in another spelling. -/
theorem respell (h : Needs names P P') (hkeys : names.map Ident.key = more.map Ident.key) :
    Needs more P P' where
  structs := h.structs
  globals := h.globals
  order hneeded := by
    have horder := h.order hneeded
    rwa [InOrder, List.map_append, hkeys, ← List.map_append] at horder

/-- The program has a function of a name that is needed. -/
theorem again {name : Ident} {F : Func} (hF : F ∈ P.functions)
    (hsame : F.name.same name = true) : Needs [name] P P :=
  ⟨rfl, rfl, fun h => h.again hF hsame⟩

/-- A function is added under a name that is needed. -/
theorem addFunction (F : Func) (hnew : P.function? F.name = none) :
    Needs [F.name] P (addFunction P F) :=
  ⟨rfl, rfl, fun h => h.addFunction hnew⟩

theorem claimName (P : Program) (name : String) : Needs [] P (P.claimName name) where
  structs := structs_claimName P name
  globals := globals_claimName P name
  order h := by rwa [List.append_nil, InOrder, functions_claimName]

theorem define (P : Program) (index : Nat) (code : List Instr) :
    Needs [] P (P.define index code) where
  structs := rfl
  globals := rfl
  order h := by
    have hnames := congrArg (List.map Ident.key) (map_name_define P index code)
    rw [List.map_map, List.map_map] at hnames
    rw [List.append_nil, InOrder]
    exact hnames.trans h

end Needs

/-! ## Declarations -/

/-- The name of a struct that is declared. -/
def structName? : Decl → Option Ident
  | .struct name _ => some name
  | _ => none

/-- The name of a global that is declared. -/
def globalName? : Decl → Option Ident
  | .global _ name _ => some name
  | _ => none

/-- A program lists what declarations declare: structs and globals in their order, and functions
in the order in which they are needed. -/
structure Listed (ds : List Decl) (P : Program) : Prop where
  structs : P.structs.map StructType.name = ds.filterMap structName?
  globals : P.globals.map GlobalVar.name = ds.filterMap globalName?
  functions : InOrder (ds.flatMap Decl.needs) P

namespace Listed

variable {ds : List Decl} {d : Decl}

theorem empty (name : String) : Listed [] (.empty name) := ⟨rfl, rfl, rfl⟩

theorem needs (h : Listed ds P) (hneeds : Needs [] P P') : Listed ds P' where
  structs := by rw [hneeds.structs, h.structs]
  globals := by rw [hneeds.globals, h.globals]
  functions := by simpa using hneeds.order h.functions

/-- Functions are added for a declaration. -/
theorem function (h : Listed ds P) (hneeds : Needs d.needs P P') (hstruct : structName? d = none)
    (hglobal : globalName? d = none) : Listed (ds ++ [d]) P' where
  structs := by simp [hneeds.structs, h.structs, hstruct]
  globals := by simp [hneeds.globals, h.globals, hglobal]
  functions := by simpa using hneeds.order h.functions

/-- A struct with a new name is added. -/
theorem addStruct {name : Ident} {fields : List Param} (h : Listed ds P)
    (hnames : DistinctNames ((ds ++ [Decl.struct name fields]).map Decl.name))
    (entries : List (Ident × Code.Ty)) :
    Listed (ds ++ [.struct name fields]) (P.addStruct ⟨name, entries⟩) := by
  have hnew : P.struct? name = none := by
    rw [Program.struct?, List.find?_eq_none]
    intro ty hty
    have hmem : ty.name ∈ ds.filterMap structName? := h.structs ▸ List.mem_map_of_mem hty
    obtain ⟨d, hd, hname⟩ := List.mem_filterMap.mp hmem
    have hdname : d.name = ty.name := by
      cases d with
      | struct _ _ => exact Option.some.inj hname
      | _ => cases hname
    rw [List.map_append, List.map_singleton, distinctNames_append_singleton] at hnames
    have hother : ty.name.same name = false := hdname ▸ hnames.2 d.name (List.mem_map_of_mem hd)
    simp [hother]
  rw [Program.addStruct, hnew]
  refine ⟨?_, ?_, ?_⟩
  · simp [h.structs, structName?]
  · simp [h.globals, globalName?]
  · simpa [Decl.needs, InOrder] using h.functions

/-- A global is added. -/
theorem addGlobal {type : TypeName} {name : Ident} {value : Option Lit} (h : Listed ds P)
    (ty : Code.Ty) (init : Option Constant) :
    Listed (ds ++ [.global type name value]) (P.addGlobal ⟨name, ty, init⟩) := by
  refine ⟨?_, ?_, ?_⟩
  · simp [Program.addGlobal, h.structs, structName?]
  · simp [Program.addGlobal, h.globals, globalName?]
  · simpa [Program.addGlobal, Decl.needs, InOrder] using h.functions

end Listed

end Lowering

end FrontEnd
