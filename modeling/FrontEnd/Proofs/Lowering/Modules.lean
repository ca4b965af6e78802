import FrontEnd.Grammar.Declaration
import FrontEnd.Proofs.Lowering.Statements

/-!
# Lowering declarations and modules

Lowering a module into a program, whatever that holds, changes the program by the changes of the
module and by no others, whether it ends well or is refused, and it does not fault.  A declaration
changes the program at the end of its visit; before that, functions are declared.

In an empty program, the declarations are visited in order, and after each the program holds what
the declarations so far say.  A tree that is not well formed is refused at the first declaration
that shows it.

## Main definitions

* `Commits`: a step that only declares functions before it has a result.
* `DeclDone`, `ModuleDone`: what visiting declarations leaves behind.

## Main statements

* `ends_lowering`: how lowering a module into a program ends.
* `ends_lowerModule`: how lowering a module into an empty program ends.
* `changes_lowerModule`: lowering a module changes a program by changes of the module.
* `listed_lowerModule`: what a program lists after a run, and in which order.
-/

namespace FrontEnd.Lowering

open Code (Func Instr Numbered Operand Program Signature SingleAssignment)
open Phrase Store

variable {α β : Type} {s : Store} {m : Phrase.Module} {root id : NodeId} {ids nodes : List NodeId}
  {names : List (Ident × NodeId)} {n k : Nat} {p : Option NodeId} {c : Construct} {st st' : State}
  {step : Lower α} {a : α} {good : α → State → Prop} {known : Prop} {needed : List Ident}
  {done : List Decl} {d : Decl} {proto : Proto} {body : List Stmt} {P P' : Program}

/-! ## Bodies -/

theorem goes_endsFlow (h : s.StmtIn root n names (.block body) id) (st : State) :
    Goes (endsFlow id) ⟨s, true⟩ st (endsInReturn body) st := by
  have hterminal : ∀ {last q c}, s.Has q last c →
      s.isTerminal last = .ok (decide (c.kind = .ret)) := by
    intro last q c hc
    rw [isTerminal, hc.kind_eq]
    rfl
  rcases lastStatement_cases h with ⟨hends, last, q, v, hlast, hret⟩ |
    ⟨hends, hlast | ⟨last, q, c, hlast, hc, hkind⟩⟩
  · rw [hends]
    refine Goes.then (goes_ask hlast st) ?_
    exact goes_ask (hterminal hret) st
  · rw [hends]
    refine Goes.then (goes_ask hlast st) ?_
    rfl
  · rw [hends, ← decide_eq_false hkind]
    refine Goes.then (goes_ask hlast st) ?_
    exact goes_ask (hterminal hc) st

/-- An entry is found by its key among entries with distinct keys. -/
theorem binding?_of_mem {f : Frame} {op : Operand} (hnodup : (f.bindings.map Prod.fst).Nodup)
    (hmem : (id, op) ∈ f.bindings) : f.binding? id = some op := by
  rw [Frame.binding?]
  cases hfind : f.bindings.find? fun b => b.1 = id with
  | none => exact absurd (List.find?_eq_none.mp hfind _ hmem) (by simp)
  | some b =>
    have hkey : b.1 = id := by simpa using List.find?_some hfind
    rw [List.inj_on_of_nodup_map hnodup (List.mem_of_find?_eq_some hfind) hmem hkey]
    rfl

/-- Before its body, the parameters of a function are in the first slots. -/
theorem bound_ofArguments (hnodup : nodes.Nodup) (hlength : nodes.length = proto.params.length) :
    Bound (.ofArguments nodes) ((proto.params.map Param.name).zip nodes) (parameterSlots proto) := by
  have hkeys : (Frame.ofArguments nodes).bindings.map Prod.fst = nodes.reverse := by
    simp [Frame.ofArguments, Function.comp_def]
  rw [Bound, List.forall₂_iff_get]
  refine ⟨by simp [parameterSlots, hlength], fun i hi hi' => ?_⟩
  have hlt : i < nodes.length := by simpa [hlength] using hi
  have hslot : (Frame.ofArguments nodes).binding? nodes[i] = some (.slot i) := by
    refine binding?_of_mem (hkeys ▸ List.nodup_reverse.mpr hnodup) ?_
    simp only [Frame.ofArguments, List.mem_reverse, List.mem_map]
    exact ⟨(nodes[i], i), List.mem_zipIdx_iff_getElem?.mpr (by simp [hlt]), rfl⟩
  have hin : InSlot (Frame.ofArguments nodes) nodes[i] i := ⟨hslot, hlt⟩
  exact ⟨by simp [parameterSlots], by simpa [parameterSlots] using hin⟩

/-- What lowering the body of a function leaves, apart from the program. -/
structure BodyDone (m : Phrase.Module) (known : Prop) (proto : Proto) (body : List Stmt) (f : Frame)
    (st : State) : Prop where
  frame : st.frame = none
  numbered : Numbered proto.params.length f.body f.next
  linked : ∀ i ∈ f.body, Linked st.program i
  returns : endsInReturn body = true → Returns f.body
  code : known → ∃ locals n, Threaded (StmtCode m st.program) (parameterSlots proto)
    proto.params.length body f.body locals n
  wellFormed : known → StmtsWellFormed m.item? (proto.params.map Param.name) body

/-- The body of a function is lowered in a frame of its own. -/
theorem walks_body (hm : ModuleAt s m root ids) (hnamed : m.WellNamed) {b : NodeId}
    (hnodup : nodes.Nodup) (hlength : nodes.length = proto.params.length)
    (h : s.StmtIn root n ((proto.params.map Param.name).zip nodes) (.block body) b)
    (hfuel : n + 2 ≤ k) (hframe : st.frame = none)
    (htracks : known → Tracks s root m done st.program) :
    Walks s root m known (needsOfBody body) (withBody nodes (statement (visit k) b)) st
      (BodyDone m known proto body) := by
  refine .withBody hframe ?_
  refine Walks.imp (walks_stmt hm hnamed h hfuel rfl htracks (bound_ofArguments hnodup hlength))
    fun _ st₁ hdone => ?_
  obtain ⟨⟨code, f, locals, hemits, -, -, hreturns, hcode⟩, hwell⟩ := hdone
  have hbody : f.body = code := by simpa [Frame.ofArguments] using hemits.body
  have hnext : (Frame.ofArguments nodes).next = proto.params.length := hlength
  rw [List.map_fst_zip (by simp [hlength])] at hwell
  rw [hnext] at hcode
  refine ⟨f, hemits.frame, rfl, ?_, ?_, ?_, fun hk => ?_, hwell⟩
  · rw [hbody, ← hnext]
    exact hemits.numbered
  · rw [hbody]
    exact hemits.linked
  · rw [hbody]
    exact hreturns
  · cases hcode hk with
    | @block _ locals' _ _ _ _ hmain => exact ⟨locals', f.next, hbody ▸ hmain⟩

/-- The code of a body, with a return at the end if that has none. -/
theorem singleAssignment_close {main : List Instr} {next : Nat} {terminated : Bool}
    (hnumbered : Numbered n main next) (hlinked : ∀ i ∈ main, Linked P i)
    (hreturns : terminated = true → Returns main) :
    let code := if terminated then main else main ++ [.ret none]
    SingleAssignment n code ∧ ∀ i ∈ code, Linked P i := by
  cases terminated with
  | true => exact ⟨hnumbered.singleAssignment (hreturns rfl), hlinked⟩
  | false =>
    refine ⟨hnumbered.ret.singleAssignment ⟨none, List.getLast?_concat⟩, ?_⟩
    exact List.forall_mem_append.mpr ⟨hlinked, by simp [Linked]⟩

/-- The code of a body ends in a return, unless a value has to be returned. -/
theorem walks_closeBody {f : FunctionNode} {F : Func} {i : Nat}
    (h : s.Situated root [] p id (.function f))
    (hproto : s.ProtoIn root names proto nodes f.prototype)
    (hbody : s.StmtIn root n names (.block body) f.body) (hF : st.program.functions[i]? = some F)
    (hregistered : known → Registered s root F proto) (main : List Instr) :
    Walks s root m known [] (closeBody id proto.name i (endsInReturn body) main) st fun code st' =>
      st' = st ∧ code = (if endsInReturn body then main else main ++ [.ret none]) ∧
      (known → proto.result = .prim .void ∨ endsInReturn body = true) := by
  cases hends : endsInReturn body with
  | true => exact .pure ⟨rfl, rfl, fun _ => .inr rfl⟩
  | false =>
    refine Goes.walks_bind (goes_functionAt hF) rfl ?_
    by_cases hvoid : F.signature.returnType = .void
    · rw [if_neg (by simp [hvoid])]
      exact .pure ⟨rfl, rfl, fun hk => .inl ((hregistered hk).void.mp hvoid)⟩
    · rw [if_pos hvoid]
      refine .stop (Walks.refuse_at h (fun hk hwell => ?_) trivial)
      rcases hwell with hwell | hwell
      · exact hvoid ((hregistered hk).void.mpr ((returnsVoid_iff hproto).mp hwell))
      · rw [(endsInReturn_iff hbody).mp hwell] at hends
        cases hends

/-! ## Declarations -/

/-- A step that changes the program at its end.  If it is refused, then before that, when it has
only declared functions.  It does not fault. -/
def Commits (s : Store) (root : NodeId) (m : Phrase.Module) (known : Prop) (step : Lower α)
    (st : State) (good : α → State → Prop) : Prop :=
  Ends step ⟨s, true⟩ st (fun a st' => Changes m st.program st'.program ∧ good a st')
    fun error st' => Declares m st.program st'.program ∧ (known → Refutes s root error)

/-- Visiting a declaration is visiting its construct. -/
theorem Commits.visit {good : Unit → State → Prop} (hnode : s.Has p id c)
    (h : Commits s root m known (visitConstruct (visit k) id c) st fun y st' =>
      y = .nothing ∧ good () st') :
    Commits s root m known (statement (visit (k + 1)) id) st good := by
  refine ends_statement (ends_visit hnode (Ends.imp h fun y st' hy => ?_))
  obtain ⟨hchanges, rfl, hgood⟩ := hy
  exact ⟨rfl, hchanges, hgood⟩

/-- The last step of a declaration changes the program. -/
theorem Commits.modifyProgram {f : Program → Program} {good : State → Prop}
    (hchange : Change m st.program (f st.program))
    (hgood : good { st with program := f st.program }) :
    Commits s root m known (do modifyProgram f; return Yield.nothing) st fun y st' =>
      y = .nothing ∧ good st' :=
  ⟨.single hchange, rfl, hgood⟩

/-- Steps that declare functions come first. -/
theorem Walks.commits_bind {mid : α → State → Prop} {k : α → Lower β} {good : β → State → Prop}
    (h : Walks s root m known needed step st mid)
    (hk : ∀ a st', Declares m st.program st'.program → Needs needed st.program st'.program →
      mid a st' → Commits s root m known (k a) st' good) :
    Commits s root m known (step >>= k) st good := by
  refine Ends.bind h fun a st' hmid => ?_
  obtain ⟨⟨hdeclares, hneeds⟩, hmid⟩ := hmid
  exact (hk a st' hdeclares hneeds hmid).mono
    (fun _ _ h => ⟨(Declares.changes hdeclares).trans h.1, h.2⟩)
    fun _ _ h => ⟨hdeclares.trans h.1, h.2⟩

theorem Goes.commits_bind {k : α → Lower β} {good : β → State → Prop}
    (h : Goes step ⟨s, true⟩ st a st') (hprogram : st'.program = st.program)
    (hk : Commits s root m known (k a) st' good) :
    Commits s root m known (step >>= k) st good := by
  rw [Commits, hprogram] at hk
  exact Goes.bind h hk

/-- What visiting a declaration leaves behind.  A program that listed the declarations before lists
this one, too. -/
structure DeclDone (s : Store) (root : NodeId) (m : Phrase.Module) (known : Prop)
    (done : List Decl) (d : Decl) (P : Program) (st : State) : Prop where
  frame : st.frame = none
  realizes : Realizes st.program d
  listed : ∀ {ds}, DistinctNames ((ds ++ [d]).map Decl.name) → Listed ds P →
    Listed (ds ++ [d]) st.program
  tracks : known → Tracks s root m (done ++ [d]) st.program
  wellFormed : known → d.WellFormed Coerces m.item?

/-- No constant is a struct. -/
theorem coerce_struct (value : Code.Constant) (own : Ident) :
    coerce value (.struct own) = .error value.ty := by
  cases value <;> simp [coerce, Code.Constant.ty]

/-- The initial value of a global fits its type, or is refused. -/
theorem walks_initializer {type : TypeName} {name : Ident} {value : Option Lit} {t : NodeId}
    {v : Option NodeId} {ty : Code.Ty}
    (h : s.Situated root [] (some root) id (.global ⟨name, t, v⟩))
    (htype : s.TypeIn root [] type t) (hvalue : Option.Rel (s.LitIn root []) value v)
    (hty : TypeOf m type ty) :
    Walks s root m known [] (initializer ⟨name, t, v⟩ ty) st fun init st' => st' = st ∧
      InitialOf value ty init ∧ ∀ l ∈ value, ∃ prim, type = .prim prim ∧
        Coerces l.sized (.prim prim) := by
  cases hvalue with
  | none => exact .pure ⟨rfl, rfl, by simp⟩
  | @some l literal hliteral =>
    obtain ⟨q, hliteral⟩ := hliteral
    obtain ⟨q', htype⟩ := htype
    have hread : s.read .literal literal = .ok l.sized := hliteral.has.read_eq rfl
    have hwritten : s.read .typeRef t = .ok type.ref := htype.has.read_eq rfl
    refine Goes.walks_bind (goes_ask hread st) rfl ?_
    cases hcoerce : coerce (constantOf l.sized) ty with
    | ok init =>
      refine .pure ⟨rfl, ⟨init, hcoerce, rfl⟩, ?_⟩
      cases type with
      | named name =>
        obtain ⟨own, _, -, rfl⟩ := hty
        exact absurd (hcoerce.symm.trans (coerce_struct _ own)) (by simp)
      | prim prim =>
        obtain rfl : ty = codeType (.prim prim) := hty
        simpa using ⟨init, hcoerce⟩
    | error found =>
      refine Walks.refuse hliteral fun _ =>
        ⟨not_wellFormedBelow h.below h.has fun hwell => ?_, trivial⟩
      -- A well-formed global has a primitive type that its literal fits.
      obtain ⟨l', ty', hread', hwritten', init, hinit⟩ := hwell literal rfl
      obtain rfl : l' = l.sized := by simpa using hread'.symm.trans hread
      cases type with
      | named name => exact absurd (hwritten'.symm.trans hwritten) (by simp [TypeName.ref])
      | prim prim =>
        obtain rfl : ty' = .prim prim := by simpa [TypeName.ref] using hwritten'.symm.trans hwritten
        obtain rfl : ty = codeType (.prim prim) := hty
        exact absurd (hinit.symm.trans hcoerce) (by simp)

section Declarations

variable (hm : ModuleAt s m root ids) (hfuel : n + 3 ≤ k) (hframe : st.frame = none)
  (htracks : known → Tracks s root m done st.program)
include hm htracks

/-- The function of a declaration that is not done has no body. -/
theorem walks_newFunction (hnamed : m.WellNamed) {prototype : NodeId} {nodes : List NodeId}
    (h : s.ProtoIn root names proto nodes prototype) (hd : d ∈ m.decls)
    (hproto : d.proto? = some proto) (hnew : ∀ d' ∈ done, d'.name.same proto.name = false)
    (k : Nat) :
    Walks s root m known [proto.name] (functionOf (visit (k + 2)) prototype) st fun i st' =>
      st'.frame = st.frame ∧ Awaits proto i st'.program := by
  refine walks_functionOf hm hnamed h hd hproto htracks (fun hk i F hi hF => ?_) k
  obtain ⟨F', hF', hregistered⟩ := (htracks hk).registered_of_function? hnamed hd hproto hi
  obtain rfl := Option.some.inj (hF'.symm.trans hF)
  refine (htracks hk).hasBody_eq_false hF fun d' hd' => ?_
  rw [hregistered.name]
  exact hnew d' hd'

include hfuel hframe

/-- A struct type leaves functions and globals as they are. -/
theorem commits_struct {name : Ident} {fields : List Param}
    (h : s.DeclIn root n (.struct name fields) id) (hd : .struct name fields ∈ m.decls) :
    Commits s root m known (statement (visit k) id) st fun _ =>
      DeclDone s root m known done (.struct name fields) st.program := by
  obtain ⟨nodes, h, hfields⟩ := h
  obtain ⟨k, rfl⟩ : ∃ l, k = l + 2 := ⟨k - 2, by omega⟩
  refine .visit h.has ?_
  have hentries : List.Forall₂ (fun field (x : Ident × NodeId) => Walks s root m known []
      (do return (x.1, ← Lowering.type (visit (k + 1)) x.2)) st fun entry st' =>
        st' = st ∧ FieldOf m field entry) fields ((fields.map Param.name).zip nodes) := by
    have htypes : List.Forall₂ (fun field node => Walks s root m known []
        (Lowering.type (visit (k + 1)) node) st fun ty st' => st' = st ∧ TypeOf m field.type ty)
        fields nodes := walks_params hm hfields k st
    clear h hfields hd
    induction htypes with
    | nil => exact .nil
    | cons hhead _ ih =>
      refine .cons ?_ ih
      refine hhead.after fun ty st' _ hty => ?_
      exact .pure ⟨hty.1, rfl, hty.2⟩
  refine (Walks.mapM hentries).commits_bind fun entries st₁ _ _ hdone => ?_
  obtain ⟨rfl, hfields⟩ := hdone
  refine .modifyProgram (.addStruct hd hfields) ⟨hframe, realizes_addStruct .., ?_, ?_, ?_⟩
  · exact fun hnames hlisted => hlisted.addStruct hnames entries
  · exact fun hk => ((htracks hk).addStruct _).skip (by simp)
  · have htypes := List.forall₂_map_right_iff.mpr (hfields.imp fun _ _ h => h.2)
    exact fun _ => wellFormed_of_typeOf htypes

/-- A global of a new name is added. -/
theorem commits_global {type : TypeName} {name : Ident} {value : Option Lit}
    (h : s.DeclIn root n (.global type name value) id) (hd : .global type name value ∈ m.decls)
    (hnew : ∀ d ∈ done, d.name.same name = false) :
    Commits s root m known (statement (visit k) id) st fun _ =>
      DeclDone s root m known done (.global type name value) st.program := by
  obtain ⟨t, v, h, htype, hvalue⟩ := h
  obtain ⟨k, rfl⟩ : ∃ l, k = l + 2 := ⟨k - 2, by omega⟩
  refine .visit h.has ?_
  refine (walks_type hm htype k).commits_bind fun ty st₁ _ _ hty => ?_
  obtain ⟨rfl, hty⟩ := hty
  refine (walks_initializer h htype hvalue hty).commits_bind fun init st₂ _ _ hinit => ?_
  obtain ⟨rfl, hinit, hwell⟩ := hinit
  refine Goes.commits_bind (goes_get _ st₂) rfl ?_
  by_cases hold : st₂.program.hasGlobal name = true
  · rw [if_pos hold]
    have hrefused : Walks s root m known [] (refuse id (.redefinition name) : Lower Unit) st₂
        fun _ _ => False :=
      Walks.refuse h fun hk => absurd hold (by simp [(htracks hk).hasGlobal_eq_false hnew])
    exact hrefused.commits_bind fun _ _ _ _ hfalse => hfalse.elim
  · rw [if_neg hold]
    refine .modifyProgram (.addGlobal hd hty hinit (by simpa using hold))
      ⟨hframe, ⟨⟨name, ty, init⟩, by simp [Program.addGlobal], Ident.same_refl _⟩, ?_, ?_, ?_⟩
    · exact fun _ hlisted => hlisted.addGlobal ty init
    · exact fun hk => (htracks hk).addGlobal _ rfl
    · exact fun _ => ⟨hty.wellFormed, hwell⟩

variable (hnamed : m.WellNamed)
include hnamed

theorem commits_external {attributes : List Ident}
    (h : s.DeclIn root n (.external attributes proto) id)
    (hd : .external attributes proto ∈ m.decls)
    (hnew : ∀ d ∈ done, d.name.same proto.name = false) :
    Commits s root m known (statement (visit k) id) st fun _ =>
      DeclDone s root m known done (.external attributes proto) st.program := by
  obtain ⟨attrs, prototype, nodes, h, -, hproto⟩ := h
  obtain ⟨k, rfl⟩ : ∃ l, k = l + 3 := ⟨k - 3, by omega⟩
  refine .visit h.has ?_
  have hdropped : Walks s root m known [proto.name]
      (discard (functionOf (visit (k + 2)) prototype)) st fun _ st' =>
        st'.frame = st.frame ∧ ∃ i, Awaits proto i st'.program :=
    .discard ((walks_newFunction hm htracks hnamed hproto hd rfl hnew k).imp
      fun i _ hdone => ⟨hdone.1, i, hdone.2⟩)
  refine hdropped.commits_bind fun _ st₁ hdeclares hneeds hdone => ?_
  obtain ⟨hframe₁, i, hawaits⟩ := hdone
  have htracks₁ : known → Tracks s root m done st₁.program :=
    fun hk => (htracks hk).declares hm hdeclares
  refine ⟨.refl, rfl, hframe₁.trans hframe, hawaits.realizes, ?_, ?_, ?_⟩
  · exact fun _ hlisted => hlisted.function hneeds rfl rfl
  · exact fun hk => (htracks₁ hk).skip (by simp)
  · intro hk
    obtain ⟨F, hF, hsame, -⟩ := hawaits
    exact ((htracks₁ hk).registered_of_same hnamed hd rfl hF hsame).wellFormed hm

/-- A function is declared, and gets code in single-assignment form that fits the program. -/
theorem commits_function {attributes : List Ident}
    (h : s.DeclIn root n (.function attributes proto body) id)
    (hd : .function attributes proto body ∈ m.decls)
    (hnew : ∀ d ∈ done, d.name.same proto.name = false) :
    Commits s root m known (statement (visit k) id) st fun _ =>
      DeclDone s root m known done (.function attributes proto body) st.program := by
  obtain ⟨attrs, prototype, b, nodes, h, -, hnodup, hproto, hbody⟩ := h
  obtain ⟨k, rfl⟩ : ∃ l, k = l + 3 := ⟨k - 3, by omega⟩
  refine .visit h.has ?_
  refine (walks_newFunction hm htracks hnamed hproto hd rfl hnew k).commits_bind
    fun i st₁ hdeclares₁ hneeds₁ hfunction => ?_
  obtain ⟨hframe₁, hawaits⟩ := hfunction
  have htracks₁ : known → Tracks s root m done st₁.program :=
    fun hk => (htracks hk).declares hm hdeclares₁
  have hnode := hproto
  obtain ⟨q, list, result, hprototype, hlist, hparams, -⟩ := hnode
  have hlength := hparams.length_eq.symm
  refine Goes.commits_bind (goes_ask (hprototype.has.read_eq rfl) st₁) rfl
    (Goes.commits_bind (goes_ask (hlist.read_eq rfl) st₁) rfl ?_)
  rw [nodes_zip hlength]
  refine (walks_body hm hnamed hnodup hlength hbody (by omega) (hframe₁.trans hframe)
    htracks₁).commits_bind fun f st₂ hdeclares₂ hneeds₂ hdone => ?_
  have htracks₂ : known → Tracks s root m done st₂.program :=
    fun hk => (htracks₁ hk).declares hm hdeclares₂
  -- The function still waits for its body.
  obtain ⟨F, hF, hsame, hnone, hcount⟩ := hawaits.declares hdeclares₂
  have hregistered : known → Registered s root F proto :=
    fun hk => (htracks₂ hk).registered_of_same hnamed hd rfl hF hsame
  refine Goes.commits_bind (goes_endsFlow hbody st₂) rfl ?_
  refine (walks_closeBody h hproto hbody hF hregistered f.body).commits_bind
    fun code st₃ _ _ hcode => ?_
  obtain ⟨rfl, rfl, hends⟩ := hcode
  refine Goes.commits_bind (goes_note _ st₃ _) rfl ?_
  obtain ⟨hassigned, hlinked⟩ := singleAssignment_close hdone.numbered hdone.linked hdone.returns
  rw [← hcount] at hassigned
  refine .modifyProgram (.define hd hF hsame hnone hassigned hlinked)
    ⟨hdone.frame, realizes_define hF hsame hassigned, ?_, ?_, ?_⟩
  · intro ds _ hlisted
    have hneeds : Needs (Decl.needs (.function attributes proto body)) _ _ := hneeds₁.trans hneeds₂
    exact (hlisted.function hneeds rfl rfl).needs (.define ..)
  · intro hk
    obtain ⟨locals, next, hmain⟩ := hdone.code hk
    exact (htracks₂ hk).define hF (hregistered hk).name (by simp [Func.hasBody, hnone])
      ⟨f.body, locals, next, hmain, rfl⟩
  · exact fun hk => ⟨(hregistered hk).wellFormed hm, hends hk, hdone.wellFormed hk⟩

/-- Visiting a declaration changes the program as the declaration says, at the end. -/
theorem commits_decl (h : s.DeclIn root n d id) (hd : d ∈ m.decls)
    (hnew : ∀ d' ∈ done, d'.name.same d.name = false) :
    Commits s root m known (statement (visit k) id) st fun _ =>
      DeclDone s root m known done d st.program := by
  cases d with
  | struct name fields => exact commits_struct hm hfuel hframe htracks h hd
  | global type name value => exact commits_global hm hfuel hframe htracks h hd hnew
  | external attributes proto => exact commits_external hm hfuel hframe htracks hnamed h hd hnew
  | function attributes proto body =>
    exact commits_function hm hfuel hframe htracks hnamed h hd hnew

end Declarations

/-! ## Modules -/

/-- What visiting the declarations of a module from one on leaves behind. -/
structure ModuleDone (s : Store) (root : NodeId) (m : Phrase.Module) (known : Prop)
    (done rest : List Decl) (P P' : Program) : Prop where
  changes : Changes m P P'
  realizes : ∀ d ∈ rest, Realizes P' d
  listed : Listed done P → Listed m.decls P'
  tracks : known → Tracks s root m m.decls P'
  wellFormed : known → ∀ d ∈ rest, d.WellFormed Coerces m.item?

section Module

variable (hm : ModuleAt s m root ids) (hnamed : m.WellNamed)
include hm hnamed

theorem ends_items {rest : List Decl}
    (h : List.Forall₂ (s.DeclIn root n) rest nodes) (hdecls : done ++ rest = m.decls)
    (hfuel : n + 3 ≤ k) (hframe : st.frame = none)
    (htracks : known → Tracks s root m done st.program) :
    Ends (nodes.forM (statement (visit k))) ⟨s, true⟩ st
      (fun _ st' => ModuleDone s root m known done rest st.program st'.program)
      fun error st' => Changes m st.program st'.program ∧ (known → Refutes s root error) := by
  induction h generalizing done st with
  | nil =>
    rw [List.append_nil] at hdecls
    subst hdecls
    exact ends_pure ⟨.refl, by simp, id, htracks, by simp⟩
  | @cons d id rest nodes hhead _ ih =>
    have hd : d ∈ m.decls := by simp [← hdecls]
    have hdecls' : (done ++ [d]) ++ rest = m.decls := by simp [← hdecls]
    have hdistinct : DistinctNames ((done ++ [d]).map Decl.name) := by
      have hall := hnamed.1
      rw [← hdecls', List.map_append] at hall
      exact hall.of_append_left
    have hnew : ∀ d' ∈ done, d'.name.same d.name = false := by
      rw [List.map_append, List.map_singleton, distinctNames_append_singleton] at hdistinct
      exact fun d' hd' => hdistinct.2 d'.name (List.mem_map_of_mem hd')
    refine Ends.bind ((commits_decl hm hfuel hframe htracks hnamed hhead hd hnew).mono
      (fun _ _ h => h) fun _ _ h => ⟨Declares.changes h.1, h.2⟩) fun _ st₁ hdone => ?_
    obtain ⟨hchanges, hdone⟩ := hdone
    refine (ih hdecls' hdone.frame hdone.tracks).mono (fun _ st₂ hrest => ?_)
      fun _ _ h => ⟨hchanges.trans h.1, h.2⟩
    refine ⟨hchanges.trans hrest.changes, ?_, ?_, hrest.tracks, fun hk => ?_⟩
    · refine List.forall_mem_cons.mpr ⟨?_, hrest.realizes⟩
      exact Changes.invariant hrest.changes hdone.realizes Change.realizes
    · exact fun hlisted => hrest.listed (hdone.listed hdistinct hlisted)
    · exact List.forall_mem_cons.mpr ⟨hdone.wellFormed hk, hrest.wellFormed hk⟩

/-- Lowering a module into a program changes it by changes of the module, and does not fault. -/
theorem ends_lowering (known : Prop) (htracks : known → Tracks s root m [] P) :
    Ends (lowerModule root) ⟨s, true⟩ (.start P)
      (fun _ st' => ModuleDone s root m known [] m.decls P st'.program)
      fun error st' => Changes m P st'.program ∧ (known → Refutes s root error) := by
  have hle := hm.decls.le_of_framed
  have hlevels : (s.size + 1) * 2 ≤ levels s := Nat.mul_le_mul_left _ (by omega)
  obtain ⟨k, hk⟩ : ∃ k, levels s = k + 4 := Nat.exists_eq_add_of_le' (by omega)
  refine Goes.bind (goes_ask hm.errorMarkers_eq _) ?_
  have hvisit : Ends (accept visitRoot root) ⟨s, true⟩ (.start P)
      (fun _ st' => ModuleDone s root m known [] m.decls P st'.program)
      fun error st' => Changes m P st'.program ∧ (known → Refutes s root error) := by
    refine ends_pushed (Goes.bind (goes_read _ _) ?_)
    rw [hk]
    have hstart : known → Tracks s root m [] (P.claimName m.name.text) :=
      fun hk => (htracks hk).congr (functions_claimName ..) (globals_claimName ..)
    refine ends_visit hm.root (Goes.bind (goes_modifyProgram _ _ _) ?_)
    have hclaim : Change m P (P.claimName m.name.text) := .claimName
    have hdecls : List.Forall₂ (s.DeclIn root k) m.decls ids := hm.standing hnamed (by omega)
    refine Ends.bind ((ends_items hm hnamed hdecls (List.nil_append _) (Nat.le_refl _) rfl
      hstart).mono (fun _ _ h => h) fun _ _ h => ⟨.head hclaim h.1, h.2⟩)
      fun _ st₁ hdone => ends_pure ?_
    refine ⟨.head hclaim hdone.changes, hdone.realizes, fun hlisted => ?_, hdone.tracks,
      hdone.wellFormed⟩
    exact hdone.listed (hlisted.needs (.claimName _ _))
  refine hvisit.bind fun _ st₁ hdone => ?_
  obtain ⟨span, hget⟩ := hm.root
  refine Goes.bind (goes_read _ st₁) ?_
  rw [hget]
  exact Goes.bind (goes_get _ st₁) (Goes.ends (goes_note _ st₁ _) hdone)

/-- Lowering a module into an empty program ends well on a well-formed tree, and then the
program holds what the declarations say.  Otherwise it is refused, and never faults. -/
theorem ends_lowerModule (name : String) :
    Ends (lowerModule root) ⟨s, true⟩ (.start (.empty name)) (fun _ st' =>
      Tracks s root m m.decls st'.program ∧ s.WellFormedBelow Coerces root root)
      fun error _ => Refutes s root error := by
  refine (ends_lowering hm hnamed True fun _ => .empty s root m name).mono
    (fun _ _ hdone => ⟨hdone.tracks trivial, ?_⟩) fun _ _ h => h.2 trivial
  exact (wellFormedBelow_module_iff hm hnamed).mpr (hdone.wellFormed trivial)

/-- Lowering a module into any program changes it by changes of the module.  If lowering ends
well, the program then has a struct, a global or a function for each declaration. -/
theorem changes_lowerModule (P : Program) :
    let lowered := (lowerModule root).runOn ⟨s, true⟩ P
    Changes m P lowered.program ∧
      (lowered.result = .ok () → ∀ d ∈ m.decls, Realizes lowered.program d) := by
  intro lowered
  rcases (ends_lowering hm hnamed False False.elim).run_cases with
    ⟨_, st, -, hprogram, hdone⟩ | ⟨error, st, hresult, hprogram, hchanges, -⟩
  · rw [show lowered.program = st.program from hprogram]
    exact ⟨hdone.changes, fun _ => hdone.realizes⟩
  · rw [show lowered.program = st.program from hprogram]
    exact ⟨hchanges, fun hok => absurd (hok.symm.trans hresult) (by simp)⟩

section Lowered

variable (name : String)
  (hlower : ((lowerModule root).runOn ⟨s, true⟩ (.empty name)).result = .ok ())
include hlower

/-- A program lists what the declarations of a module declare, after the module was lowered into
it. -/
theorem listed_lowerModule :
    Listed m.decls ((lowerModule root).runOn ⟨s, true⟩ (.empty name)).program := by
  rcases (ends_lowering hm hnamed False False.elim).run_cases with
    ⟨_, st, -, hprogram, hdone⟩ | ⟨error, st, hresult, -⟩
  · rw [hprogram]
    exact hdone.listed (.empty name)
  · exact absurd (hlower.symm.trans hresult) (by simp)

/-- A module that is lowered is well formed, and what it leaves is tracked. -/
theorem tracks_lowerModule :
    Tracks s root m m.decls ((lowerModule root).runOn ⟨s, true⟩ (.empty name)).program ∧
      s.WellFormedBelow Coerces root root := by
  rcases (ends_lowerModule hm hnamed name).runOn_cases with
    ⟨_, st, -, hprogram, hdone⟩ | ⟨error, herror, -⟩
  · rw [hprogram]
    exact hdone
  · exact absurd (herror.symm.trans hlower) (by simp)

end Lowered

/-- A module is lowered if its declarations are well formed, and refused if one of them is not. -/
theorem lowerModule_ok_iff_wellFormed (name : String) :
    ((lowerModule root).runOn ⟨s, true⟩ (.empty name)).result = .ok () ↔
      ∀ d ∈ m.decls, d.WellFormed Coerces m.item? := by
  rw [← wellFormedBelow_module_iff hm hnamed]
  rcases (ends_lowerModule hm hnamed name).runOn_cases with
    ⟨_, st, hok, -, -, hwell⟩ | ⟨error, herror, hill, -⟩
  · exact iff_of_true hok hwell
  · refine iff_of_false (fun hok => ?_) hill
    exact absurd (hok.symm.trans herror) (by simp)

end Module

/-! ## Modules that are parsed and lowered -/

/-- Tokens are parsed as a module, and the module is lowered. -/
def lowers (tokens : List (Located Token)) (name : String) : Bool :=
  match Grammar.parseModule tokens .empty #[] with
  | .error _ => false
  | .ok parsed =>
    match parsed.result with
    | .error _ => false
    | .ok root =>
      match ((lowerModule root).runOn ⟨parsed.store, true⟩ (.empty name)).result with
      | .error _ => false
      | .ok _ => true

theorem exists_of_lowers {tokens : List (Located Token)} {name : String}
    (h : lowers tokens name = true) :
    ∃ parsed root, Grammar.parseModule tokens .empty #[] = .ok parsed ∧
      parsed.result = .ok root ∧
      ((lowerModule root).runOn ⟨parsed.store, true⟩ (.empty name)).result = .ok () := by
  rw [lowers] at h
  split at h
  · cases h
  · split at h
    · cases h
    · split at h
      · cases h
      · exact ⟨_, _, by assumption, by assumption, by assumption⟩

end FrontEnd.Lowering
