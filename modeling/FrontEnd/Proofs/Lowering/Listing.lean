import FrontEnd.Proofs.Code.Listing
import FrontEnd.Proofs.Lowering.Reordering
import FrontEnd.Proofs.Phrase.Uniqueness
import FrontEnd.Proofs.Token.Exactness

/-!
# The listing of a lowered module determines the program

What a parsed module is lowered to can be read back from its listing.  The names in a program are
names of the module, which are words where its tokens come from a text; no function is an operand;
each call calls a function of the program, which no other function has the name of; and an initial
value has been made one of the type of its global.

## Main definitions

* `NamesAreWords`: the names among tokens are words, as they are in a text.
* `LoweredFromWords`: what parsed modules are lowered to.

## Main statements

* `LoweredFromWords.listable`: such programs can be read back.
-/

namespace FrontEnd

/-! ## Names in a text -/

/-- The names among tokens are words. -/
def NamesAreWords (tokens : List (Located Token)) : Prop :=
  ∀ t ∈ tokens, ∀ name, t.value = .ident name → IsWord name.text.toList

/-- Names that are scanned are words. -/
theorem namesAreWords_of_tokens {name text : String} {reading : Nat}
    {result : List (Located Token)} (h : (Source.ofText name text reading).tokens = .ok result) :
    NamesAreWords result := by
  obtain ⟨parts, rest, hcut⟩ := cuts_ofText h
  intro t ht name hname
  rw [hcut.tokens_eq] at ht
  rcases List.mem_append.mp ht with ht | ht
  · obtain ⟨p, hp, htoken⟩ := Part.exists_of_mem_locate ht
    have hspells := (hcut.valid p hp).2
    rw [htoken, hname] at hspells
    generalize p.lexeme = lexeme at hspells
    cases hspells with
    | ident hword _ => rwa [String.toList_ofList]
  · rw [List.mem_singleton.mp ht] at hname
    cases hname

namespace Lowering

open Code Grammar Phrase Store

variable {m : Phrase.Module} {P P' : Program}

/-! ## Names in a module -/

theorem plain_of_isWord {name : Ident} (h : IsWord name.text.toList) : IsPlain name := by
  rw [IsPlain]
  generalize name.text.toList = chars at h
  cases chars with
  | nil => exact h.elim
  | cons c rest =>
    refine List.forall_mem_cons.mpr ⟨?_, h.2⟩
    have hstart := h.1
    rw [isWordStart, Bool.or_eq_true] at hstart
    rw [isWordChar, Char.isAlphanum, Bool.or_eq_true, Bool.or_eq_true]
    exact hstart.imp .inl id

/-- The names that a program has from a module are plain. -/
structure PlainNames (m : Phrase.Module) : Prop where
  name : IsPlain m.name
  decls : ∀ d ∈ m.decls, IsPlain d.name
  fields : ∀ name fields, .struct name fields ∈ m.decls → ∀ field ∈ fields, IsPlain field.name

/-- A declaration is written with its name. -/
theorem name_mem_of_tokens {room : Nat} {ts : List Token} {d : Decl}
    (h : DeclarationTokens room ts d) : .ident d.name ∈ ts := by
  cases h with
  | struct name fields _ => simp [Decl.name]
  | global type name _ => simp [Decl.name]
  | external attributes hproto =>
    obtain ⟨name, -, -⟩ := hproto
    simp [Decl.name]
  | function attributes hproto _ =>
    obtain ⟨name, -, -⟩ := hproto
    simp [Decl.name]

theorem field_mem_of_tokens {room : Nat} {ts : List Token} {name : Ident} {fields : List Param}
    {field : Param} (h : DeclarationTokens room ts (.struct name fields))
    (hfield : field ∈ fields) : .ident field.name ∈ ts := by
  cases h with
  | struct _ _ _ =>
    have hmem : Token.ident field.name ∈ fieldTokens fields :=
      List.mem_flatMap.mpr ⟨field, hfield, by simp [Param.tokens]⟩
    simp [hmem]

/-- A module that is parsed from words has plain names. -/
theorem plainNames_of_parseModule {tokens : List (Located Token)} {store : Store}
    {notices : Notices} {parsed : Parsed} {root : NodeId}
    (hparse : parseModule tokens store notices = .ok parsed) (hroot : parsed.result = .ok root)
    (hwords : NamesAreWords tokens) {ids : List NodeId} (hm : ModuleAt parsed.store m root ids) :
    PlainNames m := by
  have hplain : ∀ name, .ident name ∈ tokens.map Located.value → IsPlain name := by
    intro name hname
    obtain ⟨t, ht, hvalue⟩ := List.mem_map.mp hname
    exact plain_of_isWord (hwords t ht name hvalue)
  obtain ⟨m', ids', hm', -, hdecls⟩ := parseModule_sound hparse hroot
  obtain rfl := hm.unique hm'
  have hdecl : ∀ d ∈ m.decls, ∃ ts, DeclarationTokens maxNesting ts d ∧
      ∀ name, .ident name ∈ ts → IsPlain name := by
    intro d hd
    obtain ⟨ts, hts, hsubset⟩ := hdecls d hd
    exact ⟨ts, hts, fun name hname => hplain name (hsubset hname)⟩
  refine ⟨?_, fun d hd => ?_, fun name fields hd field hfield => ?_⟩
  · obtain ⟨name, header, pieces, close, s, s', hread, -, htokens, -, hstore, -⟩ :=
      parseModule_run hparse hroot
    obtain ⟨ids', hplaced⟩ := hread.placed
    rw [← hstore] at hplaced
    rw [hm.unique hplaced]
    refine hplain name ?_
    simp [htokens, hread.header_eq]
  · obtain ⟨ts, hts, hnames⟩ := hdecl d hd
    exact hnames d.name (name_mem_of_tokens hts)
  · obtain ⟨ts, hts, hnames⟩ := hdecl _ hd
    exact hnames field.name (field_mem_of_tokens hts hfield)

/-! ## Lowered programs can be read back -/

theorem TypeOf.plain {type : TypeName} {ty : Code.Ty} (hplain : PlainNames m)
    (h : TypeOf m type ty) : ty.IsPlain := by
  cases type with
  | prim prim =>
    rw [show ty = codeType (.prim prim) from h]
    cases prim <;> trivial
  | named name =>
    obtain ⟨own, fields, hitem, rfl⟩ := h
    exact hplain.decls _ (mem_of_item? hitem).1

/-- A run takes the name of the program from the module, or leaves it. -/
theorem Change.name_cases (h : Change m P P') : P'.name = P.name ∨ P'.name = m.name.text := by
  cases h with
  | claimName =>
    rw [Program.claimName]
    split
    · exact .inr rfl
    · exact .inl rfl
  | declare hdeclare =>
    obtain ⟨-, -, -, -, -⟩ := hdeclare
    exact .inl rfl
  | define _ _ _ _ _ _ => exact .inl rfl
  | addStruct _ _ =>
    rw [Program.addStruct]
    split <;> exact .inl rfl
  | addGlobal _ _ _ _ => exact .inl rfl

theorem Stems.plain_function {F : Func} (hplain : PlainNames m) (hstems : Stems m P)
    (hF : F ∈ P.functions) : IsPlain F.name := by
  obtain ⟨d, hd, proto, hproto, hfunction⟩ := hstems.functions F hF
  rw [hfunction.name, ← name_eq_of_proto? hproto]
  exact hplain.decls d hd

/-- Code can be read back: it is in single-assignment form, it loads globals of the module, and
its calls are linked. -/
theorem listable_code {code : List Instr} {proto : Proto} {body : List Stmt} {n : Nat}
    (hplain : PlainNames m) (hstems : Stems m P) (hassigned : SingleAssignment n code)
    (hcode : FunctionCode m P proto body code) (hlinked : ∀ i ∈ code, Linked P i) :
    ∀ i ∈ code, i.Listable P := by
  intro i hi
  refine ⟨?_, ?_, ?_⟩
  · rintro op hop index rfl
    exact hassigned.values i hi index hop
  · rintro source output rfl
    obtain ⟨type, value, hd⟩ := hcode.resolved.loads source output hi
    exact hplain.decls _ hd
  · rintro target arguments output rfl
    obtain ⟨F, hF, -, -⟩ := hlinked _ hi
    exact ⟨F, hF, hstems.plain_function hplain (List.mem_of_getElem? hF)⟩

/-- What a run that ends well leaves can be read back. -/
theorem listable_lowerModule {s : Store} {root : NodeId} {ids : List NodeId}
    (hm : ModuleAt s m root ids) (hnamed : m.WellNamed) (hplain : PlainNames m) {name : String}
    (hname : '\n' ∉ name.toList)
    (hlower : ((lowerModule root).runOn ⟨s, true⟩ (.empty name)).result = .ok ()) :
    ((lowerModule root).runOn ⟨s, true⟩ (.empty name)).program.Listable := by
  obtain ⟨hchanges, -⟩ := changes_lowerModule hm hnamed (.empty name)
  have hstems := hchanges.invariant (.empty m name) Change.stems
  have hdistinct := hchanges.invariant (namesDistinct_empty name) Change.namesDistinct
  have hassigned := hchanges.invariant (fun _ _ _ hF _ => .inl hF) Change.assigned
  obtain ⟨ds, -, hcompiled⟩ := exists_compiled (inventory_lowerModule hm hnamed name hlower)
    (tracks_lowerModule hm hnamed name hlower).1
  constructor
  · refine @Changes.invariant _ _ _ (fun P => '\n' ∉ P.name.toList) hchanges hname ?_
    intro P P' hchange hP
    rcases hchange.name_cases with hsame | hclaimed
    · rwa [hsame]
    · rw [hclaimed]
      -- The name of the module is a word.
      exact fun hmem => absurd (hplain.name _ hmem) (by decide)
  · intro ty hty
    obtain ⟨fields, hd, hfields⟩ := hstems.structs ty hty
    refine ⟨hplain.decls _ hd, fun entry hentry => ?_⟩
    obtain ⟨field, hfield, hname, htype⟩ := exists_of_forall₂_mem hfields hentry
    exact ⟨hname ▸ hplain.fields _ _ hd field hfield, htype.plain hplain⟩
  · intro g hg
    obtain ⟨type, value, hd, htype, hinit⟩ := hstems.globals g hg
    refine ⟨hplain.decls _ hd, htype.plain hplain, fun c hc => ?_⟩
    cases value with
    | none => exact absurd (hc.symm.trans hinit) (by simp)
    | some l =>
      obtain ⟨c', hcoerce, hc'⟩ := hinit
      obtain rfl : c = c' := Option.some.inj (hc.symm.trans hc')
      exact ty_of_coerce hcoerce
  · intro F hF
    obtain ⟨d, hd, proto, hproto, hfunction⟩ := hstems.functions F hF
    refine ⟨hstems.plain_function hplain hF, fun ty hty => ?_, hfunction.result.plain hplain,
      fun code hcode => ?_⟩
    · obtain ⟨param, -, htype⟩ := exists_of_forall₂_mem hfunction.parameters hty
      exact htype.plain hplain
    · obtain ⟨d, -, hfor⟩ := exists_of_forall₂_mem hcompiled hF
      obtain ⟨i, hi⟩ := List.mem_iff_getElem?.mp hF
      have hform := (hassigned i F code hi hcode).resolve_left (by simp [Program.empty])
      cases hfor with
      | external _ hnone => exact absurd (hcode.symm.trans hnone) (by simp)
      | function _ hbody hcompiled =>
        obtain rfl := Option.some.inj (hcode.symm.trans hbody)
        exact listable_code hplain hstems hform hcompiled (hstems.bodies F hF code hcode).2
  · exact hdistinct.functions

/-! ## Programs that parsed modules are lowered to -/

/-- A program is what a module that was parsed from words is lowered to, in an empty program.
That one may have a name, which is listed as it is and so has to be on one line. -/
inductive LoweredFromWords : Program → Prop
  | mk {tokens : List (Located Token)} {store : Store} {notices : Notices} {parsed : Parsed}
      {root : NodeId} {name : String} : NamesAreWords tokens →
      parseModule tokens store notices = .ok parsed → parsed.result = .ok root →
      '\n' ∉ name.toList →
      ((lowerModule root).runOn ⟨parsed.store, true⟩ (.empty name)).result = .ok () →
      LoweredFromWords ((lowerModule root).runOn ⟨parsed.store, true⟩ (.empty name)).program

theorem LoweredFromWords.listable (h : LoweredFromWords P) : P.Listable := by
  obtain ⟨hwords, hparse, hroot, hname, hlower⟩ := h
  obtain ⟨m, ids, hm, hnamed, -⟩ := parseModule_sound hparse hroot
  exact listable_lowerModule hm hnamed (plainNames_of_parseModule hparse hroot hwords hm) hname
    hlower

/-- The listing of what a parsed module is lowered to determines it, up to returns of void, and
shows no more of it. -/
theorem listing_eq_iff {Q : Program} (hP : LoweredFromWords P) (hQ : LoweredFromWords Q) :
    P.listing = Q.listing ↔ P.settled = Q.settled := by
  constructor
  · exact settled_eq_of_listing_eq hP.listable hQ.listable
  · intro h
    rw [← P.listing_settled, h, Q.listing_settled]

/-- What the module of a text is lowered to, if nothing is wrong with it. -/
def lowerText (text : String) : Option Program := do
  let tokens ← (Source.ofText "" text 0).tokens.toOption
  let parsed ← (parseModule tokens .empty #[]).toOption
  let root ← parsed.result.toOption
  let lowered := (lowerModule root).runOn ⟨parsed.store, true⟩ (.empty "")
  let _ ← lowered.result.toOption
  return lowered.program

theorem loweredFromWords_of_lowerText {text : String} (h : lowerText text = some P) :
    LoweredFromWords P := by
  rw [lowerText] at h
  simp only [Option.bind_eq_bind, Option.bind_eq_some_iff, Option.pure_def, Option.some.injEq,
    toOption_eq_some_iff] at h
  obtain ⟨tokens, htokens, parsed, hparse, root, hroot, _, hlower, rfl⟩ := h
  exact .mk (namesAreWords_of_tokens htokens) hparse hroot (by simp) hlower

/-- A module with a function of some statements. -/
def moduleText (statements : String) : String :=
  "module m\x7bglobal i8 k=7;fn f()\x7b" ++ statements ++ "\x7dextern fn g(i8 x,...);\x7d"

/-- The function returns what a call of a void function yields. -/
def returning : Program where
  name := "m"
  structs := []
  globals := [⟨⟨"k"⟩, .int 8, some (.int 7 8)⟩]
  functions :=
    [⟨⟨"f"⟩, ⟨[], false, .void⟩,
        some [.load ⟨"k"⟩ 0, .binary .add (.const (.int 1 32)) (.const (.char '\n')) 1,
          .call 1 [.slot 0, .slot 1] none, .ret (some .void)]⟩,
      ⟨⟨"g"⟩, ⟨[.int 8], true, .void⟩, none⟩]

theorem listing_eq_iff_returning :
    let plain : Program := { returning with
      functions := returning.functions.map fun F => { F with
        body := F.body.map fun code => code.dropLast ++ [.ret none] } }
    LoweredFromWords returning ∧ LoweredFromWords plain ∧ returning ≠ plain ∧
      returning.settled = plain.settled ∧ returning.listing = plain.listing := by
  intro plain
  have htext : lowerText (moduleText "return g(k,1+'\\n');") = some returning := by
    decide +kernel
  have htext' : lowerText (moduleText "g(k,1+'\\n');return;") = some plain := by
    decide +kernel
  have hreturning := loweredFromWords_of_lowerText htext
  have hplain := loweredFromWords_of_lowerText htext'
  have hsettled : returning.settled = plain.settled := rfl
  exact ⟨hreturning, hplain, by decide, hsettled,
    (listing_eq_iff hreturning hplain).mpr hsettled⟩

end Lowering

end FrontEnd
