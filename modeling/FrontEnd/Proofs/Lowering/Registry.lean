import FrontEnd.Proofs.Lowering.Translation
import FrontEnd.Proofs.Tree.WellFormed

/-!
# The functions of a program in the making

While the declarations of a module are lowered in order, the program holds the functions
of the declarations that are done, with their code, and the functions that these call,
some of them without a body yet.  Functions are added at the end and get a body once, so
places of functions stay what they were.

## Main definitions

* `Registered`: a function of a program is that of a prototype.
* `Tracks`: what the program holds after some of the declarations of a module.
-/

namespace FrontEnd.Lowering

open Code Phrase

variable {s : Store} {m : Phrase.Module} {root id : NodeId} {done : List Decl} {d d' : Decl}
  {proto : Proto} {P : Program} {F : Func} {i : Nat}

/-! ## Declarations by name -/

theorem name_eq_of_proto? (h : d.proto? = some proto) : d.name = proto.name := by
  cases d with
  | struct name fields => cases h
  | global type name value => cases h
  | external attributes own =>
    cases h
    rfl
  | function attributes own body =>
    cases h
    rfl

/-- Declarations of one name are one declaration. -/
theorem eq_of_same_name (hnamed : m.WellNamed) (hd : d ∈ m.decls) (hd' : d' ∈ m.decls)
    (hsame : d.name.same d'.name = true) : d = d' := by
  have hdistinct : (m.decls.map fun d => d.name.key).Nodup := by
    have hnodup := hnamed.1
    rwa [DistinctNames, List.map_map] at hnodup
  exact List.inj_on_of_nodup_map hdistinct hd hd' (Ident.same_iff.mp hsame)

theorem mem_of_item? {name : Ident} (h : m.item? name = some d) :
    d ∈ m.decls ∧ d.name.same name = true :=
  ⟨List.mem_of_find?_eq_some h, List.find?_some (p := fun d : Decl => d.name.same name) h⟩

/-! ## Functions by name -/

theorem function?_cases (P : Program) (name : Ident) :
    (P.function? name = none ∧ ∀ F ∈ P.functions, F.name.same name = false) ∨
      ∃ (i : Nat) (F : Func), P.function? name = some i ∧ P.functions[i]? = some F ∧
        F.name.same name = true := by
  cases h : P.function? name with
  | none =>
    rw [Program.function?, List.findIdx?_eq_none_iff] at h
    exact .inl ⟨rfl, h⟩
  | some i =>
    rw [Program.function?, List.findIdx?_eq_some_iff_getElem] at h
    obtain ⟨hlt, hsame, -⟩ := h
    exact .inr ⟨i, P.functions[i], rfl, List.getElem?_eq_getElem hlt, hsame⟩

/-- Where names are distinct, a function is found by its own name. -/
theorem function?_name (hdistinct : DistinctNames (P.functions.map Func.name))
    (h : P.functions[i]? = some F) : P.function? F.name = some i := by
  rcases function?_cases P F.name with ⟨-, hnone⟩ | ⟨j, F', hj, hF', hsame⟩
  · have hself := hnone F (List.mem_of_getElem? h)
    rw [Ident.same_refl] at hself
    cases hself
  · rw [DistinctNames, List.map_map] at hdistinct
    have hkeys : (P.functions.map (Ident.key ∘ Func.name))[j]? =
        (P.functions.map (Ident.key ∘ Func.name))[i]? := by
      simpa [h, hF'] using Ident.same_iff.mp hsame
    have hlt := (List.getElem?_eq_some_iff.mp hF').1
    rw [hj, (List.getElem?_inj (by simpa using hlt) hdistinct).mp hkeys]

/-! ## Registered functions -/

/-- A written type is primitive, or the name of a struct of the module. -/
def TypeNamed (s : Store) (root : NodeId) (type : TypeName) : Prop :=
  ∀ name, type = .named name → s.NamesStruct root name

/-- A function is that of a prototype whose types have a meaning. -/
structure Registered (s : Store) (root : NodeId) (F : Func) (proto : Proto) : Prop where
  name : F.name = proto.name
  arity : F.signature.parameters.length = proto.params.length
  variadic : F.signature.variadic = proto.variadic
  void : F.signature.returnType = .void ↔ proto.result = .prim .void
  params : ∀ param ∈ proto.params, TypeNamed s root param.type
  result : TypeNamed s root proto.result

/-- What a program holds after some declarations of a module. -/
structure Tracks (s : Store) (root : NodeId) (m : Phrase.Module) (done : List Decl)
    (P : Program) : Prop where
  registered : ∀ {i : Nat} {F : Func}, P.functions[i]? = some F → ∃ d ∈ m.decls, ∃ proto,
    d.proto? = some proto ∧ Registered s root F proto
  distinct : DistinctNames (P.functions.map Func.name)
  bodies : ∀ {i : Nat} {F : Func}, P.functions[i]? = some F → F.hasBody = true →
    ∃ d ∈ done, d.name = F.name
  globals : ∀ g ∈ P.globals, ∃ d ∈ done, d.name = g.name
  compiled : ∀ {attributes proto body}, .function attributes proto body ∈ done →
    ∃ (i : Nat) (F : Func) (code : List Instr), P.functions[i]? = some F ∧ F.name = proto.name ∧
      F.body = some code ∧ FunctionCode m P proto body code

namespace Tracks

theorem empty (s : Store) (root : NodeId) (m : Phrase.Module) (name : String) :
    Tracks s root m [] (.empty name) where
  registered h := by simp [Program.empty] at h
  distinct := distinctNames_nil
  bodies h := by simp [Program.empty] at h
  globals := by simp [Program.empty]
  compiled h := by simp at h

variable (h : Tracks s root m done P)
include h

/-- The functions and globals of a program are all that is tracked. -/
theorem congr {P' : Program} (hfunctions : P'.functions = P.functions)
    (hglobals : P'.globals = P.globals) : Tracks s root m done P' := by
  have hgrows : Grows P P' := by
    intro target name hcalls
    rwa [Calls, hfunctions]
  constructor
  · rw [hfunctions]
    exact h.registered
  · rw [hfunctions]
    exact h.distinct
  · rw [hfunctions]
    exact h.bodies
  · rw [hglobals]
    exact h.globals
  · intro attributes proto body hmem
    obtain ⟨i, F, code, hF, hname, hbody, hcode⟩ := h.compiled hmem
    exact ⟨i, F, code, by rwa [hfunctions], hname, hbody, hcode.grow hgrows⟩

/-- A function with the name of a prototype is that of the prototype. -/
theorem registered_of_same (hnamed : m.WellNamed) (hd : d ∈ m.decls)
    (hproto : d.proto? = some proto) (hF : P.functions[i]? = some F)
    (hsame : F.name.same proto.name = true) : Registered s root F proto := by
  obtain ⟨d', hd', proto', hproto', hregistered⟩ := h.registered hF
  rw [hregistered.name, ← name_eq_of_proto? hproto', ← name_eq_of_proto? hproto] at hsame
  obtain rfl := eq_of_same_name hnamed hd' hd hsame
  obtain rfl := Option.some.inj (hproto'.symm.trans hproto)
  exact hregistered

theorem registered_of_function? (hnamed : m.WellNamed)
    (hd : d ∈ m.decls) (hproto : d.proto? = some proto) (hi : P.function? proto.name = some i) :
    ∃ F, P.functions[i]? = some F ∧ Registered s root F proto := by
  rcases function?_cases P proto.name with ⟨hnone, -⟩ | ⟨j, F, hj, hF, hsame⟩
  · exact absurd (hi.symm.trans hnone) (by simp)
  · obtain rfl : j = i := Option.some.inj (hj.symm.trans hi)
    exact ⟨F, hF, h.registered_of_same hnamed hd hproto hF hsame⟩

/-- A function has no body before its declaration is done. -/
theorem hasBody_eq_false (hF : P.functions[i]? = some F)
    (hnew : ∀ d ∈ done, d.name.same F.name = false) : F.hasBody = false := by
  by_contra hbody
  obtain ⟨d, hd, hname⟩ := h.bodies hF (by simpa using hbody)
  have hsame := hnew d hd
  rw [hname, Ident.same_refl] at hsame
  cases hsame

/-- A global has a name of its own. -/
theorem hasGlobal_eq_false {name : Ident}
    (hnew : ∀ d ∈ done, d.name.same name = false) : P.hasGlobal name = false := by
  rw [Program.hasGlobal, List.any_eq_false]
  intro g hg
  obtain ⟨d, hd, hname⟩ := h.globals g hg
  rw [← hname, hnew d hd]
  simp

/-- A struct, or a function that has no body here, leaves nothing to track. -/
theorem skip (hd : ∀ attributes proto body, d ≠ .function attributes proto body) :
    Tracks s root m (done ++ [d]) P where
  registered := h.registered
  distinct := h.distinct
  bodies hF hbody := by
    obtain ⟨d', hd', hname⟩ := h.bodies hF hbody
    exact ⟨d', by simp [hd'], hname⟩
  globals g hg := by
    obtain ⟨d', hd', hname⟩ := h.globals g hg
    exact ⟨d', by simp [hd'], hname⟩
  compiled {attributes proto body} hmem := by
    rcases List.mem_append.mp hmem with hmem | hmem
    · exact h.compiled hmem
    · exact absurd (List.mem_singleton.mp hmem).symm (hd attributes proto body)

end Tracks

/-! ## Growing programs -/

/-- A function added at the end. -/
def addFunction (P : Program) (F : Func) : Program := { P with functions := P.functions ++ [F] }

theorem getElem?_addFunction (h : P.functions[i]? = some F) (F' : Func) :
    (addFunction P F').functions[i]? = some F := by
  have hlt := (List.getElem?_eq_some_iff.mp h).1
  rw [addFunction, List.getElem?_append_left hlt, h]

theorem grows_addFunction (P : Program) (F : Func) : Grows P (addFunction P F) := by
  intro target name hcalls
  obtain ⟨F', hF', hname⟩ := hcalls
  exact ⟨F', getElem?_addFunction hF' F, hname⟩

theorem declare_eq {name : Ident} (h : P.function? name = none) (signature : Signature) :
    P.declare name signature =
      (P.functions.length, addFunction P ⟨name, signature, none⟩) := by
  rw [Program.declare, h]
  rfl

theorem Tracks.addFunction (h : Tracks s root m done P) (hd : d ∈ m.decls)
    (hproto : d.proto? = some proto) (hF : Registered s root F proto) (hbody : F.body = none)
    (hnew : P.function? proto.name = none) : Tracks s root m done (addFunction P F) where
  registered {i F'} hF' := by
    rcases List.mem_append.mp (List.mem_of_getElem? hF') with hmem | hmem
    · obtain ⟨j, hj⟩ := List.getElem?_of_mem hmem
      exact h.registered hj
    · obtain rfl := List.mem_singleton.mp hmem
      exact ⟨d, hd, proto, hproto, hF⟩
  distinct := by
    refine distinctNames_map_snoc h.distinct fun F' hF' => ?_
    rw [hF.name]
    exact List.findIdx?_eq_none_iff.mp hnew F' hF'
  bodies {i F'} hF' hhas := by
    rcases List.mem_append.mp (List.mem_of_getElem? hF') with hmem | hmem
    · obtain ⟨j, hj⟩ := List.getElem?_of_mem hmem
      exact h.bodies hj hhas
    · obtain rfl := List.mem_singleton.mp hmem
      rw [Func.hasBody, hbody] at hhas
      cases hhas
  globals := h.globals
  compiled {attributes proto' body} hmem := by
    obtain ⟨i, F', code, hF', hname, hbody', hcode⟩ := h.compiled hmem
    exact ⟨i, F', code, getElem?_addFunction hF' F, hname, hbody',
      hcode.grow (grows_addFunction P F)⟩

theorem getElem?_define {code : List Instr} {j : Nat} (h : P.functions[j]? = some F) :
    (P.define i code).functions[j]? =
      some (if i = j then { F with body := some code } else F) := by
  rw [Program.define, List.getElem?_modify, h]
  rfl

theorem grows_define (P : Program) (i : Nat) (code : List Instr) : Grows P (P.define i code) := by
  intro target name hcalls
  obtain ⟨F, hF, hname⟩ := hcalls
  refine ⟨_, getElem?_define hF, ?_⟩
  split
  · exact hname
  · exact hname

/-- What was at a place before a body was given to a function. -/
theorem of_getElem?_define {code : List Instr} {j : Nat} {F' : Func}
    (h : (P.define i code).functions[j]? = some F') : ∃ F, P.functions[j]? = some F ∧
      F'.name = F.name ∧ F'.signature = F.signature ∧ (i ≠ j → F' = F) := by
  rw [Program.define, List.getElem?_modify] at h
  obtain ⟨F, hF, rfl⟩ := Option.map_eq_some_iff.mp h
  refine ⟨F, hF, ?_⟩
  by_cases hij : i = j <;> simp [hij]

theorem map_name_define (P : Program) (i : Nat) (code : List Instr) :
    (P.define i code).functions.map Func.name = P.functions.map Func.name := by
  apply List.ext_getElem?
  intro j
  rw [List.getElem?_map, List.getElem?_map, Program.define, List.getElem?_modify]
  cases P.functions[j]? with
  | none => rfl
  | some F' => by_cases hij : i = j <;> simp [hij]

/-- A function that had no body gets its code. -/
theorem Tracks.define {attributes : List Ident} {body : List Stmt} {code : List Instr}
    (h : Tracks s root m done P) (hF : P.functions[i]? = some F) (hname : F.name = proto.name)
    (hbody : F.hasBody = false) (hcode : FunctionCode m P proto body code) :
    Tracks s root m (done ++ [.function attributes proto body]) (P.define i code) where
  registered {j F'} hF' := by
    obtain ⟨F₀, hF₀, hname', hsignature, -⟩ := of_getElem?_define hF'
    obtain ⟨d, hd, proto', hproto', hregistered⟩ := h.registered hF₀
    refine ⟨d, hd, proto', hproto', ?_⟩
    obtain ⟨h₁, h₂, h₃, h₄, h₅, h₆⟩ := hregistered
    rw [← hsignature] at h₂ h₃ h₄
    exact ⟨hname'.trans h₁, h₂, h₃, h₄, h₅, h₆⟩
  distinct := by
    rw [map_name_define]
    exact h.distinct
  bodies {j F'} hF' hhas := by
    obtain ⟨F₀, hF₀, hname', -, hsame⟩ := of_getElem?_define hF'
    by_cases hij : i = j
    · subst hij
      obtain rfl := Option.some.inj (hF₀.symm.trans hF)
      exact ⟨.function attributes proto body, by simp, (hname'.trans hname).symm⟩
    · obtain rfl := hsame hij
      obtain ⟨d, hd, hdname⟩ := h.bodies hF₀ hhas
      exact ⟨d, by simp [hd], hdname⟩
  globals g hg := by
    obtain ⟨d, hd, hdname⟩ := h.globals g hg
    exact ⟨d, by simp [hd], hdname⟩
  compiled {attributes' proto' body'} hmem := by
    rcases List.mem_append.mp hmem with hmem | hmem
    · obtain ⟨j, F', code', hF', hname', hbody', hcode'⟩ := h.compiled hmem
      -- The function at `i` has no body, so it is another.
      have hij : i ≠ j := by
        rintro rfl
        obtain rfl := Option.some.inj (hF'.symm.trans hF)
        rw [Func.hasBody, hbody'] at hbody
        cases hbody
      refine ⟨j, F', code', ?_, hname', hbody', hcode'.grow (grows_define P i code)⟩
      rw [getElem?_define hF', if_neg hij]
    · cases List.mem_singleton.mp hmem
      refine ⟨i, { F with body := some code }, code, ?_, hname, rfl,
        hcode.grow (grows_define P i code)⟩
      rw [getElem?_define hF, if_pos rfl]

/-- A struct type is added. -/
theorem Tracks.addStruct (h : Tracks s root m done P) (ty : StructType) :
    Tracks s root m done (P.addStruct ty) := by
  rw [Program.addStruct]
  split
  · exact h
  · exact h.congr rfl rfl

/-- A global is added. -/
theorem Tracks.addGlobal (h : Tracks s root m done P) {type : TypeName} {name : Ident}
    {value : Option Lit} (g : GlobalVar) (hg : g.name = name) :
    Tracks s root m (done ++ [.global type name value]) (P.addGlobal g) := by
  have hskip : Tracks s root m (done ++ [.global type name value]) P := h.skip (by simp)
  have hgrows : Grows P (P.addGlobal g) := fun target name hcalls => hcalls
  refine ⟨hskip.registered, hskip.distinct, hskip.bodies, fun g' hg' => ?_, fun hmem => ?_⟩
  · rcases List.mem_append.mp hg' with hmem | hmem
    · exact hskip.globals g' hmem
    · obtain rfl := List.mem_singleton.mp hmem
      exact ⟨.global type name value, by simp, hg.symm⟩
  · obtain ⟨i, F, code, hF, hname, hbody, hcode⟩ := hskip.compiled hmem
    exact ⟨i, F, code, hF, hname, hbody, hcode.grow hgrows⟩

end FrontEnd.Lowering
