import FrontEnd.Proofs.Lowering.Expressions

/-!
# Lowering statements

Visiting a statement appends its code to the body in progress and binds the variable that
it declares.  The statements of a block see what the statements before them declare, and what is
bound around the block.  The code of a return, and of statements that end in one, ends in a return.

## Main definitions

* `StmtDone`, `StmtsDone`: what visiting statements leaves behind.
-/

namespace FrontEnd.Lowering

open Code (Func Instr Operand Program Signature)
open Phrase Store

variable {s : Store} {m : Phrase.Module} {root id : NodeId} {ids : List NodeId}
  {names : List (Ident × NodeId)} {n : Nat} {st : State} {known : Prop} {done : List Decl}
  {f : Frame} {locals : Locals}

/-- A statement is a return, or a block that ends in one. -/
def closesFlow : Stmt → Bool
  | .ret _ => true
  | .block body => endsInReturn body
  | _ => false

/-- Code ends in a return. -/
def Returns (code : List Instr) : Prop := ∃ value, code.getLast? = some (.ret value)

/-- What visiting a statement leaves behind.  What it declares is bound after it. -/
structure StmtDone (m : Phrase.Module) (known : Prop) (names : List (Ident × NodeId))
    (locals : Locals) (f : Frame) (stmt : Stmt) (id : NodeId) (st : State) : Prop where
  code : ∃ code f' locals', Emits f code f' st ∧ KeepsBindings names f f' ∧
    Bound f' ((stmt.declared?.map (·, id)).toList ++ names) locals' ∧
    (closesFlow stmt = true → Returns code) ∧
    (known → StmtCode m st.program locals f.next stmt code locals' f'.next)
  wellFormed : known → stmt.WellFormed m.item? (names.map Prod.fst)

/-- What visiting statements one after the other leaves behind. -/
structure StmtsDone (m : Phrase.Module) (known : Prop) (names : List (Ident × NodeId))
    (locals : Locals) (f : Frame) (body : List Stmt) (st : State) : Prop where
  code : ∃ code f' locals', Emits f code f' st ∧ KeepsBindings names f f' ∧
    (endsInReturn body = true → Returns code) ∧ (body = [] → code = []) ∧
    (known → Threaded (StmtCode m st.program) locals f.next body code locals' f'.next)
  wellFormed : known → StmtsWellFormed m.item? (names.map Prod.fst) body

/-- The last of some statements closes the flow if they end in a return. -/
theorem returns_append {stmt : Stmt} {body : List Stmt} {code codes : List Instr}
    (hhead : closesFlow stmt = true → Returns code) (hbody : endsInReturn body = true → Returns codes)
    (hempty : body = [] → codes = []) (h : endsInReturn (stmt :: body) = true) :
    Returns (code ++ codes) := by
  cases body with
  | nil =>
    rw [hempty rfl, List.append_nil]
    refine hhead ?_
    cases stmt with
    | ret value => rfl
    | _ => cases h
  | cons next rest =>
    obtain ⟨value, hlast⟩ := hbody (by rwa [endsInReturn, List.getLast?_cons_cons] at h)
    exact ⟨value, by rw [List.getLast?_append, hlast]; rfl⟩

/-- Statements of a block are visited in order. -/
theorem walks_statements {Item : List (Ident × NodeId) → Stmt → NodeId → Prop} {body : List Stmt}
    {nodes : List NodeId} (h : BodyIn Item names body nodes)
    (hitem : ∀ {names stmt id locals st f}, Item names stmt id → st.frame = some f →
      (known → Tracks s root m done st.program) → Bound f names locals →
      Walks s root m known stmt.needs (statement (visit n) id) st fun _ =>
        StmtDone m known names locals f stmt id)
    (hm : ModuleAt s m root ids) (hframe : st.frame = some f)
    (htracks : known → Tracks s root m done st.program) (hbound : Bound f names locals) :
    Walks s root m known (needsOfBody body) (nodes.forM (statement (visit n))) st fun _ =>
      StmtsDone m known names locals f body := by
  induction h generalizing st f locals with
  | nil =>
    exact .pure ⟨⟨[], f, locals, .refl hframe, .of_eq rfl (Nat.le_refl _), by simp [endsInReturn],
      fun _ => rfl, fun _ => .nil locals f.next⟩, fun _ => trivial⟩
  | @cons names stmt body id nodes hhead _ ih =>
    refine (hitem hhead hframe htracks hbound).bind fun _ st₁ hdeclares₁ hdone => ?_
    obtain ⟨⟨code, f₁, locals₁, hemits, hkeeps, hbound₁, hcloses, hcode⟩, hwell⟩ := hdone
    have hlater := ih hemits.frame (fun hk => (htracks hk).declares hm hdeclares₁) hbound₁
    refine Ends.imp hlater fun _ st₂ hdone => ?_
    obtain ⟨hneeds, ⟨codes, f₂, locals₂, hemits₂, hkeeps₂, hreturns, hempty, hcodes⟩, hwells⟩ := hdone
    refine ⟨hneeds, ⟨_, f₂, locals₂, hemits.trans hemits₂ hneeds.1, hkeeps.trans ?_,
      returns_append hcloses hreturns hempty, by simp, fun hk => ?_⟩, fun hk => ⟨hwell hk, ?_⟩⟩
    · exact ⟨fun e he => hkeeps₂.1 e (by simp [he]), hkeeps₂.2⟩
    · exact .cons ((hcode hk).grow (Declares.grows hneeds.1)) (hcodes hk)
    · have henv : ((stmt.declared?.map (·, id)).toList ++ names).map Prod.fst =
          stmt.declared?.toList ++ names.map Prod.fst := by
        cases stmt.declared? <;> rfl
      exact henv ▸ hwells hk

section Kinds

variable (hm : ModuleAt s m root ids) (hnamed : m.WellNamed) {k : Nat} (hfuel : n + 2 ≤ k)
  (hframe : st.frame = some f) (htracks : known → Tracks s root m done st.program)
  (hbound : Bound f names locals)
include hm hnamed hfuel hframe htracks hbound

/-- A variable is in a slot of its own from there on. -/
theorem walks_varDecl {name : Ident} {type : Option TypeName} {value : Expr}
    (h : s.StmtIn root n names (.varDecl name type value) id) :
    Walks s root m known value.needs (statement (visit k) id) st fun _ =>
      StmtDone m known names locals f (.varDecl name type value) id := by
  cases n with
  | zero => exact h.elim
  | succ n =>
    obtain ⟨p, t, v, h, hother, -, htype, hvalue⟩ := h
    obtain ⟨k, rfl⟩ : ∃ l, k = l + 2 := ⟨k - 2, by omega⟩
    refine .statement (.visit h.has ?_)
    have hwritten : Walks s root m known []
        (t.forM fun written => discard (Lowering.type (visit (k + 1)) written)) st
        fun _ st' => st' = st ∧ ∀ ty ∈ type, ty.WellFormed m.item? := by
      cases htype with
      | none => exact .pure ⟨rfl, by simp⟩
      | some htype =>
        exact .discard ((walks_type hm htype k).imp fun _ _ h => ⟨h.1, by simpa using h.2.wellFormed⟩)
    refine hwritten.after fun _ st₁ _ hst => ?_
    obtain ⟨rfl, htypes⟩ := hst
    refine (walks_expr hm hnamed hvalue (by omega) hframe htracks hbound).before fun op st₂ _ hop => ?_
    obtain ⟨⟨code, f₂, hemits, hbindings, havailable, hcode⟩, hwell⟩ := hop
    refine hemits.walks_output (.move op) rfl (by simpa [Instr.operands] using havailable) trivial ?_
    intro st₃ f₃ hemits₃ hbindings₃ hnext₃ hprogram₃
    refine hemits₃.walks_bindTo id (.slot f₂.next) ?_
    intro st₄ f₄ hemits₄ hbindings₄ hnext₄ hprogram₄
    have hcons : f₄.bindings = (id, .slot f₂.next) :: f.bindings := by
      rw [hbindings₄, hbindings₃, hbindings]
    have hkeeps : KeepsBindings names f f₄ := .cons hcons hother hemits₄.le
    refine .pure ⟨rfl, ⟨_, f₄, (name, f₂.next) :: locals, hemits₄, hkeeps, ?_, by simp [closesFlow],
      fun hk => ?_⟩, fun hk => ⟨htypes, hwell hk⟩⟩
    · exact .cons ⟨rfl, binding?_self hcons, by omega⟩ (hbound.keep hkeeps)
    · rw [hnext₄, hnext₃, hprogram₄, hprogram₃]
      exact .varDecl (hcode hk)

/-- A return, with or without a value. -/
theorem walks_ret {value : Option Expr} (h : s.StmtIn root n names (.ret value) id) :
    Walks s root m known (Stmt.ret value).needs (statement (visit k) id) st fun _ =>
      StmtDone m known names locals f (.ret value) id := by
  cases n with
  | zero => exact h.elim
  | succ n =>
    obtain ⟨p, v, h, hvalue⟩ := h
    obtain ⟨k, rfl⟩ : ∃ l, k = l + 1 := Nat.exists_eq_add_one.mpr (by omega)
    refine .statement (.visit h.has ?_)
    cases hvalue with
    | none =>
      refine Goes.walks_bind (a := none) rfl rfl ((Emits.refl hframe).walks_emit (.ret none) rfl
        (by simp [Instr.operands]) trivial ?_)
      intro st₁ f₁ hemits hbindings hnext _
      have hkeeps : KeepsBindings names f f₁ := .of_eq hbindings hemits.le
      refine .pure ⟨rfl, ⟨_, f₁, locals, hemits, hkeeps, hbound.keep hkeeps, fun _ => ⟨none, rfl⟩,
        fun _ => ?_⟩, fun _ => by simp [Stmt.WellFormed]⟩
      rw [hnext]
      exact .retNone
    | @some value v hvalue =>
      have hreturned : Walks s root m known value.needs (Option.mapM (operand (visit k)) (some v)) st
          fun result st' => ∃ op, result = some op ∧ ExprDone m known names locals f value op st' :=
        (walks_expr hm hnamed hvalue (by omega) hframe htracks hbound).before
          fun op _ _ hop => .pure ⟨op, rfl, hop⟩
      refine hreturned.before fun result st₁ _ hresult => ?_
      obtain ⟨op, rfl, ⟨code, f₁, hemits, hbindings, havailable, hcode⟩, hwell⟩ := hresult
      refine hemits.walks_emit (.ret (some op)) rfl (by simpa [Instr.operands] using havailable)
        trivial ?_
      intro st₂ f₂ hemits₂ hbindings₂ hnext₂ hprogram
      have hkeeps : KeepsBindings names f f₂ := .of_eq (hbindings₂.trans hbindings) hemits₂.le
      refine .pure ⟨rfl, ⟨_, f₂, locals, hemits₂, hkeeps, hbound.keep hkeeps,
        fun _ => ⟨some op, List.getLast?_concat⟩, fun hk => ?_⟩,
        fun hk => by simpa [Stmt.WellFormed] using hwell hk⟩
      rw [hnext₂, hprogram]
      exact .ret (hcode hk)

/-- An expression whose value is dropped. -/
theorem walks_exprStatement {value : Expr}
    (h : s.StmtIn root n names (.exprStatement value) id) :
    Walks s root m known value.needs (statement (visit k) id) st fun _ =>
      StmtDone m known names locals f (.exprStatement value) id := by
  cases n with
  | zero => exact h.elim
  | succ n =>
    obtain ⟨p, v, h, hvalue⟩ := h
    obtain ⟨k, rfl⟩ : ∃ l, k = l + 1 := Nat.exists_eq_add_one.mpr (by omega)
    refine .statement (.visit h.has ?_)
    have hdropped : Walks s root m known value.needs (discard (operand (visit k) v)) st
        fun _ st' => ∃ op, ExprDone m known names locals f value op st' :=
      .discard ((walks_expr hm hnamed hvalue (by omega) hframe htracks hbound).imp
        fun op _ hop => ⟨op, hop⟩)
    refine hdropped.before fun _ st₁ _ hop => ?_
    obtain ⟨op, ⟨code, f₁, hemits, hbindings, -, hcode⟩, hwell⟩ := hop
    have hkeeps : KeepsBindings names f f₁ := .of_eq hbindings hemits.le
    exact .pure ⟨rfl, ⟨code, f₁, locals, hemits, hkeeps, hbound.keep hkeeps, by simp [closesFlow],
      fun hk => .exprStatement (hcode hk)⟩, hwell⟩

end Kinds

/-- Visiting a statement appends its code and binds what it declares. -/
theorem walks_stmt (hm : ModuleAt s m root ids) (hnamed : m.WellNamed) {stmt : Stmt} {k : Nat}
    (h : s.StmtIn root n names stmt id) (hfuel : n + 2 ≤ k) (hframe : st.frame = some f)
    (htracks : known → Tracks s root m done st.program) (hbound : Bound f names locals) :
    Walks s root m known stmt.needs (statement (visit k) id) st fun _ =>
      StmtDone m known names locals f stmt id := by
  induction n generalizing stmt id names k st f locals with
  | zero => exact h.elim
  | succ n ih =>
    cases stmt with
    | block body =>
      obtain ⟨p, nodes, h, hbody⟩ := h
      obtain ⟨k, rfl⟩ : ∃ l, k = l + 1 := Nat.exists_eq_add_one.mpr (by omega)
      refine .statement (.visit h.has ?_)
      refine (walks_statements hbody (fun hstmt hframe htracks hbound =>
        ih hstmt (by omega) hframe htracks hbound) hm hframe htracks hbound).before
        fun _ st₁ _ hdone => ?_
      obtain ⟨⟨code, f₁, locals₁, hemits, hkeeps, hreturns, -, hcode⟩, hwell⟩ := hdone
      exact .pure ⟨rfl, ⟨code, f₁, locals, hemits, hkeeps, hbound.keep hkeeps, hreturns,
        fun hk => .block (hcode hk)⟩, hwell⟩
    | varDecl name type value => exact walks_varDecl hm hnamed hfuel hframe htracks hbound h
    | ret value => exact walks_ret hm hnamed hfuel hframe htracks hbound h
    | exprStatement value =>
      exact walks_exprStatement hm hnamed hfuel hframe htracks hbound h

end FrontEnd.Lowering
