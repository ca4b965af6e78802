import FrontEnd.Proofs.Grammar.Scoping
import FrontEnd.Proofs.Tree.WellFormed

/-!
# Which mangled names can agree

The mangled name of a function is a row of texts with underscores between them, and names of types
and functions may hold underscores too.  Where a text ends can be told from the number of
underscores in it: items of a module whose names, and whose results, hold equally many have mangled
names that differ.  Other items may share one.

## Main statements

* `mangledName_parseModule`: the items of a parsed module have mangled names, and which of them
  differ.
* `mangledName_eq_shifted`: two items that share one.
-/

namespace FrontEnd

/-- How many underscores a text holds. -/
def underscores (text : String) : Nat := text.toList.count '_'

/-- Texts with equally many separators can be told from what follows the next one. -/
theorem Text.append_inj_of_count {c : Char} {w w' r r' : List Char}
    (hcount : w.count c = w'.count c) (h : w ++ c :: r = w' ++ c :: r') : w = w' := by
  have hlonger : ∀ {w w' r r' a : List Char}, w.count c = w'.count c → w' = w ++ a →
      c :: r = a ++ c :: r' → w = w' := by
    rintro w w' r r' a hcount rfl htail
    cases a with
    | nil => rw [List.append_nil]
    | cons d a =>
      obtain ⟨rfl, -⟩ := List.cons.inj htail
      rw [List.count_append, List.count_cons_self] at hcount
      omega
  rcases List.append_eq_append_iff.mp h with ⟨a, hw, htail⟩ | ⟨a, hw, htail⟩
  · exact hlonger hcount hw htail
  · exact (hlonger hcount.symm hw htail).symm

namespace Phrase

/-- What a parameter adds to the mangled name of its function. -/
def Param.mangled (param : Param) : String := "_" ++ param.type.ref.text ++ "_" ++ param.name.text

/-- The mangled name of a function of a module. -/
def Proto.mangled (module : Ident) (proto : Proto) : String :=
  module.text ++ "_" ++ proto.result.ref.text ++ "_" ++ proto.name.text ++
    String.join (proto.params.map Param.mangled)

/-- What the parameters add starts with an underscore, if one more is put behind it. -/
theorem exists_join_mangled (params : List Param) : ∃ rest,
    (String.join (params.map Param.mangled)).toList ++ ['_'] = '_' :: rest := by
  cases params with
  | nil => exact ⟨[], rfl⟩
  | cons param params => exact ⟨_, by simp [Param.mangled, String.join_cons]; rfl⟩

/-- Functions of a module that share a mangled name have one name, if their names and results hold
equally many underscores. -/
theorem Proto.name_eq_of_mangled {module : Ident} {proto proto' : Proto}
    (h : proto.mangled module = proto'.mangled module)
    (hresult : underscores proto.result.ref.text = underscores proto'.result.ref.text)
    (hname : underscores proto.name.text = underscores proto'.name.text) :
    proto.name = proto'.name := by
  obtain ⟨rest, hrest⟩ := exists_join_mangled proto.params
  obtain ⟨rest', hrest'⟩ := exists_join_mangled proto'.params
  have hchars := congrArg (fun text => text.toList ++ ['_']) h
  simp only [mangled, String.toList_append, List.append_assoc, hrest, hrest',
    List.append_cancel_left_eq] at hchars
  -- The underscore after the result, and then the one after the name, is at the same place in both.
  have hsame := Text.append_inj_of_count hresult hchars
  rw [hsame, List.append_cancel_left_eq, List.append_cancel_left_eq] at hchars
  exact congrArg Ident.mk (String.toList_inj.mp (Text.append_inj_of_count hname hchars))

end Phrase

namespace Store

open Phrase

variable {s : Store} {root id item f : NodeId} {p : Option NodeId} {lo hi : Nat}
  {ids : List NodeId}

/-- A prototype, the name of its function and its result. -/
structure Signature where
  prototype : NodeId
  name : Ident
  result : TypeRef
deriving DecidableEq

/-- The signature of an item that is a function, with or without a body. -/
def signature? (s : Store) (item : NodeId) : Option Signature := do
  let c ← (s.construct item).toOption
  let prototype ← c.prototype?
  let node ← (s.read .prototype prototype).toOption
  let result ← (s.read .typeRef node.returnType).toOption
  return ⟨prototype, node.name, result⟩

/-- An item with a signature is a function. -/
theorem prototype?_of_signature? {signature : Signature} (h : s.signature? item = some signature) :
    ∃ c, s.construct item = .ok c ∧ c.prototype? = some signature.prototype := by
  rw [signature?] at h
  simp only [Option.bind_eq_bind, Option.bind_eq_some_iff, Grammar.toOption_eq_some_iff] at h
  obtain ⟨c, hc, prototype, hprototype, node, -, result, -, hsignature⟩ := h
  obtain rfl := Option.some.inj hsignature
  exact ⟨c, hc, hprototype⟩

/-- A function of a module has its prototype as a child. -/
theorem DeclAt.exists_proto {d : Decl} {c : Construct} (h : DeclAt s lo hi p d id)
    (hc : s.construct id = .ok c) (hf : c.prototype? = some f) :
    s.Has p id c ∧ ∃ proto lo' hi', d.name = proto.name ∧
      ProtoAt s lo' hi' (some id) proto f := by
  have hhas : ∀ {c'}, s.Has p id c' → c' = c := fun hnode =>
    Except.ok.inj (hnode.construct_eq.symm.trans hc)
  cases h with
  | struct _ _ _ hnode | global _ _ _ _ hnode =>
    rw [← hhas hnode] at hf
    cases hf
  | external _ hproto _ _ hnode | function _ hproto _ _ _ hnode =>
    obtain rfl := hhas hnode
    obtain rfl := Option.some.inj hf
    exact ⟨hnode, _, _, _, rfl, hproto⟩

/-- Parameters are read one by one. -/
theorem Laid.mapM_params {β : Type} {params : List Param} {read : Ident × NodeId → Except Fault β}
    {what : Param → β} (h : Laid (ParamAt s) lo hi p params ids)
    (hread : ∀ param node, s.construct node = .ok (.typeRef param.type.ref) →
      read (param.name, node) = .ok (what param)) :
    ((params.map Param.name).zip ids).mapM read = .ok (params.map what) := by
  induction h with
  | nil => rfl
  | cons hhead _ ih =>
    rw [List.map_cons, List.zip_cons_cons, List.mapM_cons, hread _ _ hhead.2.2.construct_eq, ih]
    rfl

namespace ModuleAt

variable {m : Module} (h : ModuleAt s m root ids)
include h

/-- An item has a name, and the mangled name of a function is made from what it is written with. -/
theorem mangledName_eq (hitem : item ∈ ids) {c : Construct} (hc : s.construct item = .ok c)
    (hf : c.prototype? = some f) :
    ∃ proto : Proto, s.itemName? item = some proto.name ∧
      s.signature? item = some ⟨f, proto.name, proto.result.ref⟩ ∧
      s.mangledName f = .ok (some (proto.mangled m.name)) := by
  obtain ⟨d, hd, lo, hi, hlo, hhi, hat⟩ := h.decls.exists_of_mem hitem
  obtain ⟨hnode, proto, lo', hi', hname, hprotoAt⟩ := hat.exists_proto hc hf
  obtain ⟨list, result, nodes, hread, hlist, hresult, hparams⟩ := hprotoAt.read_eq
  refine ⟨proto, hname ▸ hat.itemName?_eq, ?_, ?_⟩
  · simp [signature?, Except.toOption, hc, hf, hread, hresult]
  have hin := hat.within
  have hkind : c.kind = .function ∨ c.kind = .external := by
    cases c <;> simp_all [Construct.prototype?, Construct.kind]
  have hmodule : s.moduleOf item = .ok (some root) :=
    (h.around hitem (by omega)).moduleOf_eq hnode hin.1 hin.2 (by rcases hkind with h | h <;> simp [h])
  have hparent : s.parent f = .ok (some item) := by
    obtain ⟨-, -, -, -, hf⟩ := hprotoAt
    exact hf.parent_eq
  have hroot : s.read .module root = .ok _ := h.root.read_eq rfl
  rw [mangledName]
  simp only [bind, Except.bind, hparent, hnode.kind_eq, hmodule, hread, hresult, hroot, hlist]
  rw [if_neg (by tauto), hparams.mapM_params fun param node hnode => ?_]
  · rfl
  · rw [hnode]
    rfl

/-- Different items have different names. -/
theorem eq_of_itemName? (hnamed : DistinctNames (m.decls.map Decl.name)) {item' : NodeId}
    {name : Ident} (hitem : item ∈ ids) (hitem' : item' ∈ ids)
    (hname : s.itemName? item = some name) (hname' : s.itemName? item' = some name) :
    item = item' := by
  have hentry : ∀ {item}, item ∈ ids → s.itemName? item = some name →
      (name, item) ∈ (m.decls.map Decl.name).zip ids := by
    intro item hitem hname
    rw [← h.decls.itemEntries_eq]
    exact List.mem_filterMap.mpr ⟨item, hitem, by rw [hname]; rfl⟩
  have hnodup : (((m.decls.map Decl.name).zip ids).map fun e => e.1.key).Nodup := by
    have hlength : (m.decls.map Decl.name).length ≤ ids.length := by simp [h.decls.length_eq]
    rw [← List.map_fst_zip hlength, DistinctNames, List.map_map] at hnamed
    exact hnamed
  exact congrArg Prod.snd (List.inj_on_of_nodup_map hnodup (hentry hitem hname)
    (hentry hitem' hname') rfl)

end ModuleAt

end Store

namespace Grammar

open Store

variable {tokens : List (Located Token)} {store : Store} {notices : Notices} {parsed : Parsed}
  {root : NodeId}

/-- Every function of a parsed module has a mangled name, which starts with the names of the module,
of the result and of the function.  Those of different functions differ, if equally many underscores
are in the names of the results and in the names of the functions. -/
theorem mangledName_parseModule (hparse : parseModule tokens store notices = .ok parsed)
    (hroot : parsed.result = .ok root) :
    ∃ m, parsed.store.read .module root = .ok m ∧
      (∀ item ∈ m.items, ∀ c f, parsed.store.construct item = .ok c → c.prototype? = some f →
        ∃ name result rest, parsed.store.signature? item = some ⟨f, name, result⟩ ∧
          parsed.store.mangledName f =
            .ok (some (m.name.text ++ "_" ++ result.text ++ "_" ++ name.text ++ rest))) ∧
      ∀ item ∈ m.items, ∀ item' ∈ m.items, item ≠ item' → ∀ signature signature',
        parsed.store.signature? item = some signature →
        parsed.store.signature? item' = some signature' →
        underscores signature.result.text = underscores signature'.result.text →
        underscores signature.name.text = underscores signature'.name.text →
        parsed.store.mangledName signature.prototype ≠
          parsed.store.mangledName signature'.prototype := by
  obtain ⟨m, ids, hm, hnamed, -⟩ := parseModule_sound hparse hroot
  refine ⟨_, hm.root.read_eq rfl, fun item hitem c f hc hf => ?_, ?_⟩
  · obtain ⟨proto, -, hsignature, htext⟩ := hm.mangledName_eq hitem hc hf
    exact ⟨_, _, _, hsignature, htext⟩
  · intro item hitem item' hitem' hne signature signature' hsignature hsignature' hresults hnames
      heq
    obtain ⟨c, hc, hf⟩ := prototype?_of_signature? hsignature
    obtain ⟨c', hc', hf'⟩ := prototype?_of_signature? hsignature'
    obtain ⟨proto, hname, hwritten, htext⟩ := hm.mangledName_eq hitem hc hf
    obtain ⟨proto', hname', hwritten', htext'⟩ := hm.mangledName_eq hitem' hc' hf'
    rw [htext, htext', Except.ok.injEq, Option.some.injEq] at heq
    rw [Option.some.inj (hsignature.symm.trans hwritten),
      Option.some.inj (hsignature'.symm.trans hwritten')] at hresults hnames
    have hsame := Phrase.Proto.name_eq_of_mangled heq hresults hnames
    exact hne (hm.eq_of_itemName? hnamed.1 hitem hitem' hname (hsame ▸ hname'))

/-- Tokens are parsed as a module; its functions, with their signatures and mangled names. -/
def mangledItems (tokens : List (Located Token)) :
    Option (List (NodeId × Signature × Option String)) := do
  let parsed ← (parseModule tokens .empty #[]).toOption
  let root ← parsed.result.toOption
  let m ← (parsed.store.read .module root).toOption
  return m.items.filterMap fun item => do
    let signature ← parsed.store.signature? item
    let mangled ← (parsed.store.mangledName signature.prototype).toOption
    return (item, signature, mangled)

theorem exists_of_mangledItems {items : List (NodeId × Signature × Option String)}
    (h : mangledItems tokens = some items) :
    ∃ parsed root m, parseModule tokens .empty #[] = .ok parsed ∧ parsed.result = .ok root ∧
      parsed.store.read .module root = .ok m ∧
      ∀ e ∈ items, e.1 ∈ m.items ∧ parsed.store.signature? e.1 = some e.2.1 ∧
        parsed.store.mangledName e.2.1.prototype = .ok e.2.2 := by
  rw [mangledItems] at h
  simp only [Option.bind_eq_bind, Option.bind_eq_some_iff, toOption_eq_some_iff, Option.pure_def,
    Option.some.injEq] at h
  obtain ⟨parsed, hparse, root, hroot, m, hm, rfl⟩ := h
  refine ⟨parsed, root, m, hparse, hroot, hm, fun e he => ?_⟩
  simp only [List.mem_filterMap, Option.bind_eq_some_iff, toOption_eq_some_iff,
    Option.some.injEq] at he
  obtain ⟨item, hitem, signature, hsignature, mangled, hmangled, rfl⟩ := he
  exact ⟨hitem, hsignature, hmangled⟩

/-- Functions whose names and parameters have the same words in another order. -/
def reordered : Phrase.Module where
  name := ⟨"m"⟩
  decls :=
    [.function [] ⟨⟨"f_i32"⟩, [⟨.prim (.int .w32), ⟨"a"⟩⟩], false, .prim .void⟩ [],
      .external [] ⟨⟨"f_a"⟩, [⟨.prim (.int .w32), ⟨"i32"⟩⟩], false, .prim .void⟩]

theorem mangledName_parseModule_reordered :
    let tokens : List (Located Token) := (reordered.tokens ++ [Token.eof]).map fun t => ⟨t, default⟩
    ∃ parsed, parseModule tokens .empty #[] = .ok parsed ∧
      parsed.store.mangledName ⟨4⟩ = .ok (some "m_void_f_i32_i32_a") ∧
      parsed.store.mangledName ⟨10⟩ = .ok (some "m_void_f_a_i32_i32") ∧
      parsed.store.mangledName ⟨4⟩ ≠ parsed.store.mangledName ⟨10⟩ := by
  intro tokens
  have hrun : mangledItems tokens = some
      [(⟨6⟩, ⟨⟨4⟩, ⟨"f_i32"⟩, .known (.prim .void)⟩, some "m_void_f_i32_i32_a"),
        (⟨11⟩, ⟨⟨10⟩, ⟨"f_a"⟩, .known (.prim .void)⟩, some "m_void_f_a_i32_i32")] := by
    decide +kernel
  obtain ⟨parsed, root, m, hparse, hroot, hm, hitems⟩ := exists_of_mangledItems hrun
  obtain ⟨m', hm', -, hne⟩ := mangledName_parseModule hparse hroot
  obtain rfl := Except.ok.inj (hm.symm.trans hm')
  simp only [List.forall_mem_cons] at hitems
  obtain ⟨⟨hmem, hsignature, hmangled⟩, ⟨hmem', hsignature', hmangled'⟩, -⟩ := hitems
  refine ⟨parsed, hparse, hmangled, hmangled', ?_⟩
  exact hne _ hmem _ hmem' (by decide) _ _ hsignature hsignature' rfl (by decide)

/-- A function without parameters whose name has the words of another function and its parameter. -/
def shifted : Phrase.Module where
  name := ⟨"m"⟩
  decls :=
    [.function [] ⟨⟨"f_i32_a"⟩, [], false, .prim .void⟩ [],
      .function [] ⟨⟨"f"⟩, [⟨.prim (.int .w32), ⟨"a"⟩⟩], false, .prim .void⟩ []]

/-- Different functions of a module may share a mangled name. -/
theorem mangledName_eq_shifted :
    let tokens : List (Located Token) := (shifted.tokens ++ [Token.eof]).map fun t => ⟨t, default⟩
    ∃ parsed root m, parseModule tokens .empty #[] = .ok parsed ∧ parsed.result = .ok root ∧
      parsed.store.read .module root = .ok m ∧
      (⟨5⟩ ∈ m.items ∧
        parsed.store.signature? ⟨5⟩ = some ⟨⟨3⟩, ⟨"f_i32_a"⟩, .known (.prim .void)⟩ ∧
        parsed.store.mangledName ⟨3⟩ = .ok (some "m_void_f_i32_a")) ∧
      ⟨11⟩ ∈ m.items ∧ parsed.store.signature? ⟨11⟩ = some ⟨⟨9⟩, ⟨"f"⟩, .known (.prim .void)⟩ ∧
      parsed.store.mangledName ⟨9⟩ = .ok (some "m_void_f_i32_a") := by
  intro tokens
  have hrun : mangledItems tokens = some
      [(⟨5⟩, ⟨⟨3⟩, ⟨"f_i32_a"⟩, .known (.prim .void)⟩, some "m_void_f_i32_a"),
        (⟨11⟩, ⟨⟨9⟩, ⟨"f"⟩, .known (.prim .void)⟩, some "m_void_f_i32_a")] := by
    decide +kernel
  obtain ⟨parsed, root, m, hparse, hroot, hm, hitems⟩ := exists_of_mangledItems hrun
  simp only [List.forall_mem_cons] at hitems
  obtain ⟨hfirst, hsecond, -⟩ := hitems
  exact ⟨parsed, root, m, hparse, hroot, hm, hfirst, hsecond⟩

end Grammar

end FrontEnd
