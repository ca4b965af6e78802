import FrontEnd.Proofs.Lowering.Prototypes

/-!
# Lowering expressions

Visiting an expression appends code to the body in progress and yields an operand.  The code
is numbered from the next slot on, and its calls fit the program.  If the program is known, it
is the code of the expression.

A name is found in the tree by looking outward, and in the code as the slot of the node
that was found.  `Bound` says that both agree: the names around a node are bound to the
slots of the locals.  A variable is none of the names around it, so a binding that is made
later never replaces theirs.

## Main definitions

* `Bound`: names around a node and locals of the code.
* `Emits`: what visiting a part of a body changes.
* `ExprDone`: what visiting an expression leaves behind.
-/

namespace FrontEnd.Lowering

open Code (Func Instr Numbered Operand Program Signature)
open Phrase Store

variable {α : Type} {s : Store} {m : Phrase.Module} {root id : NodeId} {ids : List NodeId}
  {names : List (Ident × NodeId)} {n : Nat} {p : Option NodeId} {st st' st'' : State}
  {good : α → State → Prop} {known : Prop} {needed : List Ident} {done : List Decl}
  {f f' f'' : Frame} {locals : Locals} {code code' : List Instr}

/-! ## Bindings -/

/-- A node is bound to a slot that is written. -/
def InSlot (f : Frame) (node : NodeId) (slot : Nat) : Prop :=
  f.binding? node = some (.slot slot) ∧ slot < f.next

/-- Names are bound to the slots of locals. -/
def Bound (f : Frame) (names : List (Ident × NodeId)) (locals : Locals) : Prop :=
  List.Forall₂ (fun a b => a.1 = b.1 ∧ InSlot f a.2 b.2) names locals

/-- Names are bound as they were. -/
def KeepsBindings (names : List (Ident × NodeId)) (f f' : Frame) : Prop :=
  (∀ e ∈ names, f'.binding? e.2 = f.binding? e.2) ∧ f.next ≤ f'.next

theorem KeepsBindings.of_eq (h : f'.bindings = f.bindings) (hle : f.next ≤ f'.next) :
    KeepsBindings names f f' := by
  refine ⟨fun e _ => ?_, hle⟩
  rw [Frame.binding?, h, Frame.binding?]

theorem KeepsBindings.trans (h : KeepsBindings names f f') (h' : KeepsBindings names f' f'') :
    KeepsBindings names f f'' :=
  ⟨fun e he => (h'.1 e he).trans (h.1 e he), Nat.le_trans h.2 h'.2⟩

/-- A binding of another node is one more. -/
theorem KeepsBindings.cons {op : Operand} (h : f'.bindings = (id, op) :: f.bindings)
    (hother : ∀ e ∈ names, e.2 ≠ id) (hle : f.next ≤ f'.next) : KeepsBindings names f f' := by
  refine ⟨fun e he => ?_, hle⟩
  rw [Frame.binding?, h, List.find?_cons_of_neg (by simpa using (hother e he).symm),
    Frame.binding?]

theorem binding?_self {op : Operand} (h : f'.bindings = (id, op) :: f.bindings) :
    f'.binding? id = some op := by
  rw [Frame.binding?, h, List.find?_cons_of_pos (by simp)]
  rfl

theorem Bound.keep (h : Bound f names locals) (hkeeps : KeepsBindings names f f') :
    Bound f' names locals := by
  obtain ⟨hbindings, hle⟩ := hkeeps
  induction h with
  | nil => exact .nil
  | cons hhead _ ih =>
    obtain ⟨hname, hbinding, hlt⟩ := hhead
    refine .cons ⟨hname, (hbindings _ (by simp)).trans hbinding, by omega⟩ (ih fun e he => ?_)
    exact hbindings e (by simp [he])

/-! ## Code in the making -/

/-- Code is appended to the body in progress, numbered from the next slot on, and its calls fit the
program. -/
structure Emits (f : Frame) (code : List Instr) (f' : Frame) (st : State) : Prop where
  frame : st.frame = some f'
  body : f'.body = f.body ++ code
  numbered : Numbered f.next code f'.next
  linked : ∀ i ∈ code, Linked st.program i

namespace Emits

theorem refl (hframe : st.frame = some f) : Emits f [] f st :=
  ⟨hframe, by simp, .nil, by simp⟩

theorem le (h : Emits f code f' st) : f.next ≤ f'.next := h.numbered.filterMap_output?.2

theorem trans (h : Emits f code f' st) (h' : Emits f' code' f'' st')
    (hdeclares : Declares m st.program st'.program) : Emits f (code ++ code') f'' st' where
  frame := h'.frame
  body := by rw [h'.body, h.body, List.append_assoc]
  numbered := h.numbered.append h'.numbered
  linked := List.forall_mem_append.mpr
    ⟨fun i hi => (h.linked i hi).keep hdeclares.keeps, h'.linked⟩

/-- An instruction without output is appended. -/
theorem walks_emit (h : Emits f code f' st) (i : Instr) (houtput : i.output? = none)
    (hoperands : ∀ op ∈ i.operands, op.Available f'.next) (hlinked : Linked st.program i)
    {k : Unit → Lower α}
    (hk : ∀ st' f'', Emits f (code ++ [i]) f'' st' → f''.bindings = f'.bindings →
      f''.next = f'.next → st'.program = st.program →
      Walks s root m known needed (k ()) st' good) :
    Walks s root m known needed (emit i >>= k) st good := by
  refine Goes.walks_bind (goes_emit h.frame i) rfl
    (hk _ { f' with body := f'.body ++ [i] } ⟨rfl, ?_, ?_, ?_⟩ rfl rfl rfl)
  · rw [h.body, List.append_assoc]
  · exact h.numbered.snoc hoperands (.inr ⟨houtput, rfl⟩)
  · exact List.forall_mem_append.mpr ⟨h.linked, by simpa using hlinked⟩

/-- An instruction is appended that writes to the next slot. -/
theorem walks_output (h : Emits f code f' st) (i : Nat → Instr)
    (houtput : (i f'.next).output? = some f'.next)
    (hoperands : ∀ op ∈ (i f'.next).operands, op.Available f'.next)
    (hlinked : Linked st.program (i f'.next)) {k : Nat → Unit → Lower α}
    (hk : ∀ st' f'', Emits f (code ++ [i f'.next]) f'' st' → f''.bindings = f'.bindings →
      f''.next = f'.next + 1 → st'.program = st.program →
      Walks s root m known needed (k f'.next ()) st' good) :
    Walks s root m known needed (newSlot >>= fun slot => emit (i slot) >>= k slot) st good := by
  refine Goes.walks_bind (goes_newSlot h.frame) rfl (Goes.walks_bind (goes_emit rfl _) rfl
    (hk _ { f' with next := f'.next + 1, body := f'.body ++ [i f'.next] } ⟨rfl, ?_, ?_, ?_⟩
      rfl rfl rfl))
  · rw [h.body, List.append_assoc]
  · exact h.numbered.snoc hoperands (.inl ⟨houtput, rfl⟩)
  · exact List.forall_mem_append.mpr ⟨h.linked, by simpa using hlinked⟩

/-- A node is bound to a slot. -/
theorem walks_bindTo (h : Emits f code f' st) (id : NodeId) (op : Operand) {k : Unit → Lower α}
    (hk : ∀ st' f'', Emits f code f'' st' → f''.bindings = (id, op) :: f'.bindings →
      f''.next = f'.next → st'.program = st.program →
      Walks s root m known needed (k ()) st' good) :
    Walks s root m known needed (bindTo id op >>= k) st good :=
  Goes.walks_bind (goes_bindTo h.frame id op) rfl
    (hk _ { f' with bindings := (id, op) :: f'.bindings } ⟨rfl, h.body, h.numbered, h.linked⟩
      rfl rfl rfl)

end Emits

/-! ## Names -/

/-- What visiting an expression leaves behind. -/
structure ExprDone (m : Phrase.Module) (known : Prop) (names : List (Ident × NodeId))
    (locals : Locals) (f : Frame) (e : Expr) (op : Operand) (st : State) : Prop where
  code : ∃ code f', Emits f code f' st ∧ f'.bindings = f.bindings ∧ op.Available f'.next ∧
    (known → ExprCode m st.program locals f.next e code op f'.next)
  wellFormed : known → e.WellFormed m.item? (names.map Prod.fst)

/-- A name used as a value. -/
theorem walks_visitReference (hm : ModuleAt s m root ids) {name : Ident}
    (h : s.Situated root names p id (.reference name)) (hframe : st.frame = some f)
    (hbound : Bound f names locals) :
    Walks s root m known [] (visitReference id name) st fun y st' => ∃ op, y = .operand op ∧
      ExprDone m known names locals f (.reference name) op st' := by
  have hlookup := h.lookup rfl name
  refine Goes.walks_bind (goes_ask hlookup st) rfl ?_
  rcases assoc?_cases hbound name with ⟨hnone, hnone'⟩ | ⟨node, slot, hnode, hslot, hbinding, hlt⟩
  · have hmeaning : s.meaning root names name = s.itemNamed? root name := by
      rw [meaning, hnone]
      rfl
    have hnovalue : (∀ type own value, m.item? name ≠ some (.global type own value)) →
        ¬ s.NamesValue id name := by
      intro hitem hvalue
      rcases (namesValue_iff hm h).mp hvalue with ⟨n, hn, hsame⟩ | ⟨_, _, _, hglobal⟩
      · obtain ⟨e, he, rfl⟩ := List.mem_map.mp hn
        exact List.find?_eq_none.mp (Option.map_eq_none_iff.mp hnone) e he hsame
      · exact hitem _ _ _ hglobal
    rw [hmeaning] at hlookup ⊢
    rcases hm.item?_cases name with ⟨hdecl, hitem⟩ | ⟨d, item, _, _, hdecl, hitem, hat, -, -⟩
    · -- The name means nothing.
      rw [hitem] at hlookup ⊢
      exact .refuse_at h (fun _ => hnovalue (by simp [hdecl])) ⟨rfl, hlookup⟩
    · rw [hitem]
      rw [hdecl] at hnovalue
      cases hat with
      | @global _ _ _ _ _ type own value t v _ _ _ _ _ hn =>
        refine Goes.walks_bind (goes_ask hn.construct_eq st) rfl ?_
        refine (Emits.refl hframe).walks_output (.load own) rfl (by simp [Instr.operands]) trivial ?_
        intro st' f' hemits hbindings hnext _
        refine .pure ⟨_, rfl, ⟨_, f', hemits, hbindings, ?_, fun _ => ?_⟩, fun _ => ?_⟩
        · simp [Operand.Available, hnext]
        · rw [hnext]
          exact .global hnone' hdecl
        · exact .inr ⟨type, own, value, hdecl⟩
      | struct _ _ _ hn | external _ _ _ _ hn | function _ _ _ _ _ hn =>
        refine Goes.walks_bind (goes_ask hn.construct_eq st) rfl ?_
        exact .refuse_at h (fun _ => hnovalue (by simp)) rfl
  · -- A variable or an argument is in its slot.
    have hmeaning : s.meaning root names name = some node := by
      rw [meaning, hnode]
      rfl
    obtain ⟨e, hfind, rfl⟩ := Option.map_eq_some_iff.mp hnode
    have hmem := List.mem_of_find?_eq_some hfind
    have hdone : ExprDone m known names locals f (.reference name) (.slot slot) st := by
      refine ⟨⟨[], f, .refl hframe, rfl, hlt, fun _ => .inSlot hslot⟩, fun _ => .inl ?_⟩
      exact ⟨e.1, List.mem_map_of_mem hmem, by simpa using List.find?_some hfind⟩
    obtain ⟨c, hconstruct, hlocal⟩ := h.locals e hmem
    rw [hmeaning]
    refine Goes.walks_bind (goes_ask hconstruct st) rfl ?_
    cases c with
    | varDecl _ | typeRef _ =>
      refine Goes.walks_bind (goes_frame hframe) rfl ?_
      rw [hbinding]
      exact .pure ⟨_, rfl, hdone⟩
    | _ => cases hlocal

/-! ## Calls -/

/-- The prototype of a function of a module stands somewhere in it. -/
structure Callable (s : Store) (root : NodeId) (m : Phrase.Module) (callee : Ident) (d : Decl)
    (proto : Proto) (prototype : NodeId) : Prop where
  item : m.item? callee = some d
  proto?_eq : d.proto? = some proto
  placed : ∃ names nodes, s.ProtoIn root names proto nodes prototype

/-- A signature accepts the numbers of arguments that its parameters take. -/
theorem accepts_iff {proto : Proto} {F : Func} (count : Nat) (hF : Registered s root F proto) :
    accepts F.signature count = true ↔ proto.Takes count := by
  rw [accepts, hF.arity, hF.variadic, Proto.Takes]
  cases proto.variadic with
  | false =>
    simp only [Bool.or_false, Bool.and_eq_true, decide_eq_true_eq, Bool.false_eq_true, false_and,
      or_false]
    omega
  | true =>
    simp only [Bool.or_true, Bool.and_true, decide_eq_true_eq, true_and]
    omega

/-- What visiting the arguments of a call leaves behind. -/
structure ArgumentsDone (m : Phrase.Module) (known : Prop) (names : List (Ident × NodeId))
    (locals : Locals) (f : Frame) (arguments : List Expr) (ops : List Operand) (st : State) :
    Prop where
  code : ∃ code f', Emits f code f' st ∧ f'.bindings = f.bindings ∧
    (∀ op ∈ ops, op.Available f'.next) ∧
    (known → Chained (ExprCode m st.program locals) f.next arguments code ops f'.next)
  wellFormed : known → ExprsWellFormed m.item? (names.map Prod.fst) arguments
  length_eq : ops.length = arguments.length

/-- Arguments are visited in order.  The code of one is still its code after the next has
declared functions. -/
theorem walks_arguments {arguments : List Expr} {nodes : List NodeId} {Item : Expr → NodeId → Prop}
    (h : List.Forall₂ Item arguments nodes)
    (hitem : ∀ {a id st f}, Item a id → st.frame = some f →
      (known → Tracks s root m done st.program) → Bound f names locals →
      Walks s root m known a.needs (operand (visit n) id) st (ExprDone m known names locals f a))
    (hm : ModuleAt s m root ids) (hframe : st.frame = some f)
    (htracks : known → Tracks s root m done st.program) (hbound : Bound f names locals) :
    Walks s root m known (needsOfAll arguments) (nodes.mapM (operand (visit n))) st
      (ArgumentsDone m known names locals f arguments) := by
  induction h generalizing st f with
  | nil =>
    exact .pure ⟨⟨[], f, .refl hframe, rfl, by simp, fun _ => .nil f.next⟩, fun _ => trivial, rfl⟩
  | cons hhead _ ih =>
    rw [List.mapM_cons]
    refine (hitem hhead hframe htracks hbound).bind fun op st₁ hdeclares₁ hop => ?_
    obtain ⟨⟨code, f₁, hemits, hbindings, havailable, hcode⟩, hwell⟩ := hop
    refine (ih hemits.frame (fun hk => (htracks hk).declares hm hdeclares₁)
      (hbound.keep (.of_eq hbindings hemits.le))).before fun ops st₂ hdeclares₂ hops => ?_
    obtain ⟨⟨codes, f₂, hemits', hbindings', havailable', hcodes⟩, hwells, hlength⟩ := hops
    refine .pure ⟨⟨_, f₂, hemits.trans hemits' hdeclares₂, hbindings'.trans hbindings, ?_,
      fun hk => ?_⟩, fun hk => ⟨hwell hk, hwells hk⟩, by simp [hlength]⟩
    · exact List.forall_mem_cons.mpr ⟨havailable.mono hemits'.le, havailable'⟩
    · exact .cons ((hcode hk).grow hdeclares₂.grows) (hcodes hk)

variable (hm : ModuleAt s m root ids) (hnamed : m.WellNamed)
include hm hnamed

/-- The name of a function of the module can be called, and no other name. -/
theorem calleePrototype_cases (hmodule : s.moduleOf id = .ok (some root)) (callee : Ident) :
    (∃ d proto prototype, s.calleePrototype id callee = .ok prototype ∧
      Callable s root m callee d proto prototype) ∨
    ((∀ a, ¬ s.NamesFunction root callee a) ∧ ∃ error,
      s.calleePrototype id callee = .error (.unresolved error) ∧
      (error = .undefined callee ∧ s.itemNamed? root callee = none ∨
        error = .notAFunction callee)) := by
  have hread : s.read .module root = .ok _ := hm.root.read_eq rfl
  have hlookup : Scope.lookup ⟨(m.decls.map Decl.name).zip ids⟩ callee = s.itemNamed? root callee :=
    (hm.itemNamed?_eq callee).symm
  simp only [Store.calleePrototype, hmodule, liftM, monadLift,
    MonadLift.monadLift, Except.mapError, bind, Except.bind, hread, pure, Except.pure, hlookup]
  rcases hm.item_cases hnamed callee with ⟨-, hnone⟩ | ⟨d, item, hdecl, hitem, hd⟩
  · rw [hnone]
    refine .inr ⟨fun a hfunction => ?_, _, rfl, .inl ⟨rfl, rfl⟩⟩
    obtain ⟨item, _, _, _, hitem, -⟩ := hfunction
    exact absurd (hitem.symm.trans hnone) (by simp)
  · rw [hitem]
    have hother : ∀ c, s.Has (some root) item c → c.prototype? = none →
        ∀ a, ¬ s.NamesFunction root callee a := by
      intro c hc hnone a hfunction
      obtain ⟨item', c', prototype, node, hitem', hc', hprototype, -, -⟩ := hfunction
      obtain rfl := Option.some.inj (hitem.symm.trans hitem')
      rw [hc.construct_eq] at hc'
      cases hc'
      rw [hnone] at hprototype
      cases hprototype
    cases d with
    | struct name fields =>
      obtain ⟨_, h, -⟩ := hd
      simp only [h.has.construct_eq]
      exact .inr ⟨hother _ h.has rfl, _, rfl, .inr rfl⟩
    | global type name value =>
      obtain ⟨_, _, h, -⟩ := hd
      simp only [h.has.construct_eq]
      exact .inr ⟨hother _ h.has rfl, _, rfl, .inr rfl⟩
    | external attributes proto =>
      obtain ⟨_, prototype, nodes, h, -, hproto⟩ := hd
      simp only [h.has.construct_eq]
      exact .inl ⟨_, proto, prototype, rfl, hdecl, rfl, [], nodes, hproto⟩
    | function attributes proto body =>
      obtain ⟨_, prototype, _, nodes, h, -, -, hproto, -⟩ := hd
      simp only [h.has.construct_eq]
      exact .inl ⟨_, proto, prototype, rfl, hdecl, rfl, _, nodes, hproto⟩

/-- The function that a call calls, found in the program or declared for the call. -/
theorem walks_target {callee : Ident} {d : Decl} {proto : Proto} {prototype : NodeId}
    (hcallable : Callable s root m callee d proto prototype)
    (htracks : known → Tracks s root m done st.program) {k : Nat → Lower α}
    (hk : ∀ i st' F, Declares m st.program st'.program → st'.frame = st.frame →
      st'.program.functions[i]? = some F → F.name.same proto.name = true →
      Walks s root m known needed (k i) st' good) :
    Walks s root m known (callee :: needed) (registered? proto.name >>= fun
      | some index => pure index >>= k
      | none => functionOf (visit (n + 2)) prototype >>= k) st good := by
  obtain ⟨names', nodes, hproto⟩ := hcallable.placed
  obtain ⟨hd, hsame⟩ := mem_of_item? hcallable.item
  rw [name_eq_of_proto? hcallable.proto?_eq] at hsame
  refine Goes.walks_bind (goes_registered? s st _) rfl ?_
  rcases function?_cases st.program proto.name with ⟨hnone, -⟩ | ⟨i, F, hi, hF, hname⟩
  · rw [hnone]
    have hdeclared : Walks s root m known (proto.name :: needed)
        (functionOf (visit (n + 2)) prototype >>= k) st good := by
      refine (walks_functionOf hm hnamed hproto hd hcallable.proto?_eq htracks
        (fun _ i F hi _ => absurd (hi.symm.trans hnone) (by simp)) n).bind
        fun i st' hdeclares hfunction => ?_
      obtain ⟨hframe, F, hF, hname, -⟩ := hfunction
      exact hk i st' F hdeclares hframe hF hname
    -- The program knows the function under the spelling of its declaration.
    refine Ends.imp hdeclared fun _ _ h => ⟨⟨h.1.1, h.1.2.respell ?_⟩, h.2⟩
    rw [List.map_cons, List.map_cons, Ident.same_iff.mp hsame]
  · rw [hi]
    exact .again (List.mem_of_getElem? hF) (Ident.same_trans hname hsame)
      (Goes.walks_bind rfl rfl (hk i st F .refl rfl hF hname))

/-- A call: its function, its arguments, and the call itself. -/
theorem walks_visitCall {callee : Ident} {arguments : List Expr} {nodes : List NodeId}
    (h : s.Situated root names p id (.call ⟨callee, nodes⟩))
    (hlength : arguments.length = nodes.length)
    (harguments : ∀ {st}, st.frame = some f → (known → Tracks s root m done st.program) →
      Walks s root m known needed (nodes.mapM (operand (visit (n + 2)))) st
        (ArgumentsDone m known names locals f arguments))
    (hframe : st.frame = some f) (htracks : known → Tracks s root m done st.program) :
    Walks s root m known (callee :: needed) (visitCall (visit (n + 2)) id ⟨callee, nodes⟩) st
      fun y st' => ∃ op, y = .operand op ∧
        ExprDone m known names locals f (.call callee arguments) op st' := by
  rcases calleePrototype_cases hm hnamed h.moduleOf callee with
    ⟨d, proto, prototype, hcallee, hcallable⟩ | ⟨hnone, error, hcallee, herror⟩
  · obtain ⟨names', nodes', _, list, result, hproto, -⟩ := hcallable.placed
    refine Goes.walks_bind (goes_resolveOr hcallee id st) rfl
      (Goes.walks_bind (goes_ask (hproto.has.read_eq rfl) st) rfl ?_)
    refine walks_target hm hnamed hcallable htracks fun i st₁ F hdeclares₁ hframe₁ hF hname => ?_
    have htracks₁ : known → Tracks s root m done st₁.program :=
      fun hk => (htracks hk).declares hm hdeclares₁
    have hregistered : known → Registered s root F proto := fun hk =>
      (htracks₁ hk).registered_of_same hnamed (mem_of_item? hcallable.item).1 hcallable.proto?_eq
        hF hname
    refine Goes.walks_bind (goes_functionAt hF) rfl ?_
    dsimp only
    by_cases haccepts : accepts F.signature nodes.length = true
    · rw [if_pos haccepts]
      refine (harguments (hframe₁.trans hframe) htracks₁).before fun ops st₂ hdeclares₂ hops => ?_
      obtain ⟨⟨code, f₂, hemits, hbindings, havailable, hcode⟩, hwell, hcount⟩ := hops
      -- The arguments may have declared functions, but the callee is where it was.
      have hF₂ := Declares.getElem? hdeclares₂ hF
      have hlinked : ∀ output, (output = none ↔ F.signature.returnType = .void) →
          Linked st₂.program (.call i ops output) := fun output hvoid =>
        ⟨F, hF₂, (hcount.trans hlength) ▸ takesCount_of_accepts haccepts, hvoid⟩
      have hcalls : known → Calls st₂.program i proto.name := fun hk =>
        ⟨F, hF₂, (hregistered hk).name⟩
      have hwell' : known → (Expr.call callee arguments).WellFormed m.item? (names.map Prod.fst) :=
        fun hk => ⟨⟨d, proto, hcallable.item, hcallable.proto?_eq,
          hlength ▸ (accepts_iff nodes.length (hregistered hk)).mp haccepts⟩, hwell hk⟩
      by_cases hvoid : F.signature.returnType = .void
      · rw [if_pos hvoid]
        refine hemits.walks_emit (.call i ops none) rfl havailable (hlinked none (by simp [hvoid])) ?_
        intro st₃ f₃ hemits₃ hbindings₃ hnext₃ hprogram
        refine .pure ⟨_, rfl, ⟨_, f₃, hemits₃, hbindings₃.trans hbindings, trivial, fun hk => ?_⟩,
          hwell'⟩
        rw [hnext₃, hprogram]
        exact .callVoid hcallable.item hcallable.proto?_eq ((hregistered hk).void.mp hvoid)
          (hcalls hk) (hcode hk)
      · rw [if_neg hvoid]
        refine hemits.walks_output (fun slot => .call i ops (some slot)) rfl havailable
          (hlinked _ (by simp [hvoid])) ?_
        intro st₃ f₃ hemits₃ hbindings₃ hnext₃ hprogram
        refine .pure ⟨_, rfl, ⟨_, f₃, hemits₃, hbindings₃.trans hbindings, ?_, fun hk => ?_⟩, hwell'⟩
        · simp [Operand.Available, hnext₃]
        · rw [hnext₃, hprogram]
          exact .call hcallable.item hcallable.proto?_eq
            (fun h => hvoid ((hregistered hk).void.mpr h)) (hcalls hk) (hcode hk)
    · rw [if_neg haccepts]
      refine .stop (Walks.refuse_at h (fun hk hwell => haccepts ?_) rfl)
      obtain ⟨d', proto', hitem, hproto', htakes⟩ := (namesFunction_iff hm callee _).mp hwell
      obtain rfl := Option.some.inj (hitem.symm.trans hcallable.item)
      obtain rfl := Option.some.inj (hproto'.symm.trans hcallable.proto?_eq)
      exact (accepts_iff nodes.length (hregistered hk)).mpr htakes
  · refine .stop (ends_resolveOr hcallee ?_)
    have hat : ¬ s.WellFormedAt Coerces root id (.call ⟨callee, nodes⟩) := by
      intro hwell
      obtain ⟨a, ha, -⟩ := hwell
      exact hnone a ha
    rcases herror with ⟨rfl, hitem⟩ | rfl
    · exact Walks.refuse_at h (fun _ => hat) ⟨rfl, hitem⟩
    · exact Walks.refuse_at h (fun _ => hat) rfl

/-! ## Expressions -/

/-- Visiting an expression appends its code and yields its operand. -/
theorem walks_expr {e : Expr} {k : Nat}
    (h : s.ExprIn root names n e id) (hfuel : n + 2 ≤ k) (hframe : st.frame = some f)
    (htracks : known → Tracks s root m done st.program) (hbound : Bound f names locals) :
    Walks s root m known e.needs (operand (visit k) id) st (ExprDone m known names locals f e) := by
  induction n generalizing e id k st f with
  | zero => exact h.elim
  | succ n ih =>
    obtain ⟨k, rfl⟩ : ∃ l, k = l + 3 := ⟨k - 3, by omega⟩
    cases e with
    | literal l =>
      obtain ⟨p, h⟩ := h
      refine .operand (.visit h.has (.pure ⟨_, rfl, ⟨[], f, .refl hframe, rfl, trivial, ?_⟩, ?_⟩))
      · exact fun _ => .literal l
      · exact fun _ => trivial
    | reference name =>
      obtain ⟨⟨p, h⟩, -⟩ := h
      exact .operand (.visit h.has (walks_visitReference hm h hframe hbound))
    | call callee arguments =>
      obtain ⟨p, nodes, h, hnodes⟩ := h
      refine .operand (.visit h.has (walks_visitCall hm hnamed h hnodes.length_eq
        (fun hframe htracks => ?_) hframe htracks))
      exact walks_arguments hnodes (fun ha hframe htracks hbound =>
        ih ha (by omega) hframe htracks hbound) hm hframe htracks hbound
    | binary op lhs rhs =>
      obtain ⟨p, l, r, h, -, hl, hr⟩ := h
      refine .operand (.visit h.has ?_)
      refine (ih hl (by omega) hframe htracks hbound).bind fun a st₁ hdeclares₁ ha => ?_
      obtain ⟨⟨left, f₁, hemits, hbindings, havailable, hleft⟩, hwell⟩ := ha
      refine (ih hr (by omega) hemits.frame (fun hk => (htracks hk).declares hm hdeclares₁)
        (hbound.keep (.of_eq hbindings hemits.le))).before fun b st₂ hdeclares₂ hb => ?_
      obtain ⟨⟨right, f₂, hemits', hbindings', havailable', hright⟩, hwell'⟩ := hb
      refine (hemits.trans hemits' hdeclares₂).walks_output (.binary op a b) rfl ?_ trivial ?_
      · simpa [Instr.operands] using ⟨havailable.mono hemits'.le, havailable'⟩
      · intro st₃ f₃ hemits₃ hbindings₃ hnext₃ hprogram
        refine .pure ⟨_, rfl, ⟨_, f₃, hemits₃, ?_, ?_, fun hk => ?_⟩,
          fun hk => ⟨hwell hk, hwell' hk⟩⟩
        · rw [hbindings₃, hbindings', hbindings]
        · simp [Operand.Available, hnext₃]
        · rw [hnext₃, hprogram]
          exact .binary ((hleft hk).grow hdeclares₂.grows) (hright hk)

end FrontEnd.Lowering
