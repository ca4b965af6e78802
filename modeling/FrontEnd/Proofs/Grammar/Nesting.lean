import FrontEnd.Proofs.Grammar.Forms
import FrontEnd.Proofs.Grammar.Limits
import FrontEnd.Proofs.Grammar.Units

/-!
# Nesting

At each token of a function some blocks and expressions are open: the blocks around the token, the
expression of a statement, what stands in parentheses, and the arguments of calls.  A declaration is
read exactly if nowhere more of them are open than there is room for.  One that is too deep is
dropped whole, with a single notice, and the rest of the module is what it would be without it.

The count is part of how a declaration is written, so it is said of forms, each token with the
number that is open at it.  That it does not depend on the form is shown by `peak`, which finds the
greatest count from the tokens alone.

## Main definitions

* `StmtForm`, `DeclForm`: statements and declarations as they are written.
* `Form.marked`, `StmtForm.marked`, `DeclForm.marked`: tokens, with what is open at each.
* `DeclForm.TooDeep`: somewhere more is open than there is room for.

## Main statements

* `DeclForm.declarationTokens`, `DeclForm.atMost_of_declarationTokens`: a declaration is written as
  the grammar says exactly if not too much is open.
* `parseModule_nesting`: which declarations of a module are read, and with which notices.
-/

namespace FrontEnd.Grammar

open Phrase Store

/-! ## Statements as they are written -/

/-- A statement as it is written. -/
inductive StmtForm
  | block (body : List StmtForm)
  | varDecl (name : Ident) (type : Option TypeName) (value : Form)
  | ret (value : Option Form)
  | exprStatement (value : Form)

/-- Induction on statements, with the hypothesis for each statement of a block. -/
@[induction_eliminator]
theorem StmtForm.induct {motive : StmtForm → Prop}
    (block : ∀ body, (∀ st ∈ body, motive st) → motive (.block body))
    (varDecl : ∀ name type value, motive (.varDecl name type value))
    (ret : ∀ value, motive (.ret value))
    (exprStatement : ∀ value, motive (.exprStatement value)) : ∀ st, motive st :=
  @StmtForm.rec motive (fun body => ∀ st ∈ body, motive st)
    block varDecl ret exprStatement
    (by simp) (fun _ _ head tail => List.forall_mem_cons.mpr ⟨head, tail⟩)

mutual

/-- The statement that is written. -/
def StmtForm.stmt : StmtForm → Stmt
  | .block body => .block (stmts body)
  | .varDecl name type value => .varDecl name type value.expr
  | .ret value => .ret (value.map Form.expr)
  | .exprStatement value => .exprStatement value.expr

/-- The statements that some forms are. -/
def stmts : List StmtForm → List Stmt
  | [] => []
  | st :: rest => st.stmt :: stmts rest

end

mutual

/-- The expressions of a statement are grouped. -/
def StmtForm.Grouped : StmtForm → Prop
  | .block body => BodyGrouped body
  | .varDecl _ _ value => value.Grouped
  | .ret value => ∀ f ∈ value, f.Grouped
  | .exprStatement value => value.Grouped

/-- The expressions of some statements are grouped. -/
def BodyGrouped : List StmtForm → Prop
  | [] => True
  | st :: rest => st.Grouped ∧ BodyGrouped rest

end

/-! ## What is open at a token -/

mutual

/-- The tokens of a form that stands where `n` blocks and expressions are open, the form itself
among them. -/
def Form.marked (n : Nat) : Form → List (Token × Nat)
  | .literal value => value.tokens.map (·, n)
  | .reference name => [(.ident name, n)]
  | .call callee arguments =>
    (.ident callee, n) :: (.symbol .openParen, n) ::
      (markedArguments n arguments ++ [(.symbol .closeParen, n)])
  | .paren inner =>
    (.symbol .openParen, n) :: (inner.marked (n + 1) ++ [(.symbol .closeParen, n)])
  | .binary op lhs rhs => lhs.marked n ++ (.symbol op.symbol, n) :: rhs.marked n

/-- The tokens of the arguments of a call; each argument is open at its own tokens. -/
def markedArguments (n : Nat) : List Form → List (Token × Nat)
  | [] => []
  | [f] => f.marked (n + 1)
  | f :: f' :: rest => f.marked (n + 1) ++ (.symbol .comma, n) :: markedArguments n (f' :: rest)

end

mutual

/-- The tokens of a statement that stands where `n` blocks are open. -/
def StmtForm.marked (n : Nat) : StmtForm → List (Token × Nat)
  | .block body =>
    (.symbol .openCurly, n + 1) :: (markedBody (n + 1) body ++ [(.symbol .closeCurly, n + 1)])
  | .varDecl name type value =>
    (declarator type, n) :: (.ident name, n) :: (.symbol .assign, n) ::
      (value.marked (n + 1) ++ [(.symbol .semicolon, n)])
  | .ret none => [(.keyword .ret, n), (.symbol .semicolon, n)]
  | .ret (some value) =>
    (.keyword .ret, n) :: (value.marked (n + 1) ++ [(.symbol .semicolon, n)])
  | .exprStatement value => value.marked (n + 1) ++ [(.symbol .semicolon, n)]

/-- The tokens of the statements of a block, where `n` blocks are open. -/
def markedBody (n : Nat) : List StmtForm → List (Token × Nat)
  | [] => []
  | st :: rest => st.marked n ++ markedBody n rest

end

/-- The tokens of a statement. -/
def StmtForm.tokens (st : StmtForm) : List Token := (st.marked 0).map Prod.fst

/-- Nowhere are more than `m` open. -/
def AtMost (m : Nat) (marks : List (Token × Nat)) : Prop := ∀ mark ∈ marks, mark.2 ≤ m

section Marks

variable {m n : Nat}

@[simp] theorem atMost_nil : AtMost m [] := by simp [AtMost]

@[simp] theorem atMost_cons {t : Token} {k : Nat} {marks : List (Token × Nat)} :
    AtMost m ((t, k) :: marks) ↔ k ≤ m ∧ AtMost m marks := by
  simp [AtMost]

@[simp] theorem atMost_append {marks more : List (Token × Nat)} :
    AtMost m (marks ++ more) ↔ AtMost m marks ∧ AtMost m more := by
  simp [AtMost, or_imp, forall_and]

theorem map_fst_markedArguments {fs : List Form}
    (h : ∀ f ∈ fs, (f.marked (n + 1)).map Prod.fst = f.tokens) :
    (markedArguments n fs).map Prod.fst = separated (tokenLists fs) := by
  induction fs with
  | nil => rfl
  | cons f rest ih =>
    obtain ⟨hfirst, hrest⟩ := List.forall_mem_cons.mp h
    cases rest with
    | nil => exact hfirst
    | cons f' rest =>
      rw [markedArguments, List.map_append, List.map_cons, hfirst, ih hrest]
      rfl

@[simp] theorem Form.map_fst_marked (f : Form) : (f.marked n).map Prod.fst = f.tokens := by
  induction f generalizing n with
  | literal value => simp [Form.marked, Form.tokens, Function.comp_def]
  | reference name => rfl
  | call callee arguments ih =>
    simp [Form.marked, Form.tokens, inParens, map_fst_markedArguments fun f hf => ih f hf]
  | paren inner ih => simp [Form.marked, Form.tokens, inParens, ih]
  | binary op lhs rhs ihl ihr => simp [Form.marked, Form.tokens, ihl, ihr]

theorem atMost_markedArguments {fs : List Form} (hn : n ≤ m)
    (h : ∀ f ∈ fs, AtMost m (f.marked (n + 1)) ↔ n + 1 + f.depth ≤ m) :
    AtMost m (markedArguments n fs) ↔ n + greatestDepth fs ≤ m := by
  induction fs with
  | nil => simp [markedArguments, greatestDepth, hn]
  | cons f rest ih =>
    obtain ⟨hfirst, hrest⟩ := List.forall_mem_cons.mp h
    cases rest with
    | nil =>
      rw [markedArguments, hfirst, greatestDepth, greatestDepth]
      omega
    | cons f' rest =>
      rw [markedArguments, atMost_append, atMost_cons, hfirst, ih hrest]
      simp only [greatestDepth]
      omega

/-- The greatest count in a form is its depth above the count around it. -/
theorem Form.atMost_marked {f : Form} : AtMost m (f.marked n) ↔ n + f.depth ≤ m := by
  induction f generalizing n with
  | literal value => cases value <;> simp [Form.marked, LitForm.tokens, Form.depth]
  | reference name => simp [Form.marked, Form.depth]
  | call callee arguments ih =>
    rw [Form.marked, atMost_cons, atMost_cons, atMost_append, Form.depth]
    constructor
    · rintro ⟨hn, -, harguments, -⟩
      exact (atMost_markedArguments hn fun f hf => ih f hf).mp harguments
    · intro h
      have hn : n ≤ m := by omega
      have harguments := (atMost_markedArguments hn fun f hf => ih f hf).mpr h
      simp [hn, harguments]
  | paren inner ih =>
    rw [Form.marked, atMost_cons, atMost_append, ih, Form.depth]
    simp only [atMost_cons, atMost_nil, and_true]
    omega
  | binary op lhs rhs ihl ihr =>
    rw [Form.marked, atMost_append, atMost_cons, ihl, ihr, Form.depth]
    omega

theorem map_fst_markedBody {body : List StmtForm}
    (h : ∀ st ∈ body, (st.marked n).map Prod.fst = st.tokens) :
    (markedBody n body).map Prod.fst = body.flatMap StmtForm.tokens := by
  induction body with
  | nil => rfl
  | cons st rest ih =>
    obtain ⟨hfirst, hrest⟩ := List.forall_mem_cons.mp h
    rw [markedBody, List.map_append, hfirst, ih hrest, List.flatMap_cons]

/-- The tokens do not depend on what is open around them. -/
theorem StmtForm.map_fst_marked (st : StmtForm) (n : Nat) :
    (st.marked n).map Prod.fst = st.tokens := by
  induction st generalizing n with
  | block body ih =>
    simp [StmtForm.tokens, StmtForm.marked, map_fst_markedBody fun st hst => ih st hst _]
  | varDecl name type value => simp [StmtForm.tokens, StmtForm.marked]
  | ret value => cases value <;> simp [StmtForm.tokens, StmtForm.marked]
  | exprStatement value => simp [StmtForm.tokens, StmtForm.marked]

theorem StmtForm.tokens_block (body : List StmtForm) :
    (StmtForm.block body).tokens =
      .symbol .openCurly :: (body.flatMap StmtForm.tokens ++ [.symbol .closeCurly]) := by
  simp [StmtForm.tokens, StmtForm.marked,
    map_fst_markedBody fun st _ => st.map_fst_marked _]

end Marks

/-! ## Forms and the grammar -/

section Written

variable {room n : Nat} {ts : List Token} {body : List StmtForm}

/-- An expression in a statement, with what is open around the statement. -/
theorem Form.expressionTokens {f : Form} (hgrouped : f.Grouped)
    (hmost : AtMost (n + room) (f.marked (n + 1))) : ExpressionTokens room f.tokens f.expr := by
  rw [Form.atMost_marked] at hmost
  exact expressionTokens_iff.mpr ⟨f, ⟨hgrouped, by omega⟩, rfl, rfl⟩

theorem bodyGrouped_iff : BodyGrouped body ↔ ∀ st ∈ body, st.Grouped := by
  induction body with
  | nil => simp [BodyGrouped]
  | cons st rest ih => rw [BodyGrouped, ih, List.forall_mem_cons]

theorem mem_stmts {st : StmtForm} (h : st ∈ body) : st.stmt ∈ stmts body := by
  induction body with
  | nil => cases h
  | cons first rest ih =>
    rw [stmts, List.mem_cons]
    exact (List.mem_cons.mp h).imp (congrArg StmtForm.stmt) ih

theorem atMost_markedBody {m : Nat} :
    AtMost m (markedBody n body) ↔ ∀ st ∈ body, AtMost m (st.marked n) := by
  induction body with
  | nil => simp [markedBody]
  | cons st rest ih => rw [markedBody, atMost_append, ih, List.forall_mem_cons]

/-- Statements one after the other are written as the grammar says if each of them is. -/
theorem sequence_stmts {Item : List Token → Stmt → Prop} (h : ∀ st ∈ body, Item st.tokens st.stmt) :
    Sequence Item (body.flatMap StmtForm.tokens) (stmts body) := by
  induction body with
  | nil => exact .nil
  | cons st rest ih =>
    obtain ⟨hfirst, hrest⟩ := List.forall_mem_cons.mp h
    exact .cons hfirst (ih hrest)

/-- A statement at which not too much is open is written as the grammar says. -/
theorem StmtForm.statementTokens {st : StmtForm} (hgrouped : st.Grouped)
    (hnamed : st.stmt.WellNamed) (hmost : AtMost (n + room) (st.marked n)) :
    StatementTokens (BlockTokens room) (ExpressionTokens room) st.tokens st.stmt := by
  induction st generalizing room n with
  | block body ih =>
    rw [StmtForm.marked, atMost_cons, atMost_append] at hmost
    obtain ⟨hopen, hbody, -⟩ := hmost
    obtain ⟨room, rfl⟩ : ∃ r, room = r + 1 := Nat.exists_eq_add_one.mpr (by omega)
    rw [StmtForm.stmt, Stmt.WellNamed, stmtsWellNamed_iff] at hnamed
    rw [StmtForm.tokens_block]
    refine .block (.mk (sequence_stmts fun st hst => ?_) hnamed.1)
    have hmost := atMost_markedBody.mp hbody st hst
    rw [← Nat.add_assoc, Nat.add_right_comm] at hmost
    exact ih st hst (bodyGrouped_iff.mp hgrouped st hst) (hnamed.2 _ (mem_stmts hst)) hmost
  | varDecl name type value =>
    simp only [StmtForm.marked, atMost_cons, atMost_append] at hmost
    have hvalue := Form.expressionTokens hgrouped hmost.2.2.2.1
    simpa [StmtForm.tokens, StmtForm.marked, StmtForm.stmt] using
      StatementTokens.varDecl name type hvalue
  | ret value =>
    cases value with
    | none => exact .retNone
    | some value =>
      simp only [StmtForm.marked, atMost_cons, atMost_append] at hmost
      have hvalue := Form.expressionTokens (hgrouped value rfl) hmost.2.1
      simpa [StmtForm.tokens, StmtForm.marked, StmtForm.stmt] using
      StatementTokens.ret hvalue
  | exprStatement value =>
    simp only [StmtForm.marked, atMost_append] at hmost
    have hvalue := Form.expressionTokens hgrouped hmost.1
    simpa [StmtForm.tokens, StmtForm.marked, StmtForm.stmt] using
      StatementTokens.exprStatement hvalue

/-- A block at which not too much is open is written as the grammar says. -/
theorem blockTokens_of_atMost (hgrouped : BodyGrouped body)
    (hnamed : (Stmt.block (stmts body)).WellNamed)
    (hmost : AtMost room ((StmtForm.block body).marked 0)) :
    BlockTokens room (StmtForm.block body).tokens (stmts body) := by
  have hst : StatementTokens (BlockTokens room) (ExpressionTokens room)
      (StmtForm.block body).tokens (StmtForm.block body).stmt :=
    StmtForm.statementTokens (n := 0) hgrouped hnamed (by rwa [Nat.zero_add])
  generalize (StmtForm.block body).tokens = ts at hst ⊢
  cases hst with
  | block hbody => exact hbody

end Written

/-! ## The count from the tokens alone -/

/-- The greatest count at the tokens of statements, where `n` braces and parentheses are open before
them.  A name or a value is in an expression, or in a statement that has one. -/
def peak (n : Nat) : List Token → Nat
  | [] => 0
  | .symbol .openCurly :: rest => max (n + 1) (peak (n + 1) rest)
  | .symbol .openParen :: rest => peak (n + 1) rest
  | .symbol .closeCurly :: rest => peak (n - 1) rest
  | .symbol .closeParen :: rest => peak (n - 1) rest
  | .ident _ :: rest => max (n + 1) (peak n rest)
  | .integer _ :: rest => max (n + 1) (peak n rest)
  | .character _ :: rest => max (n + 1) (peak n rest)
  | .keyword (.truth _) :: rest => max (n + 1) (peak n rest)
  | _ :: rest => peak n rest

section Peak

variable {m n : Nat} {ts : List Token}

theorem peak_operator (op : Operator) : peak n (.symbol op.symbol :: ts) = peak n ts := by
  cases op <;> rfl

theorem peak_arguments {fs : List Form} (hne : fs ≠ [])
    (h : ∀ f ∈ fs, ∀ ts, peak n (f.tokens ++ ts) = max (n + 1 + f.depth) (peak n ts)) :
    peak n (separated (tokenLists fs) ++ ts) = max (n + greatestDepth fs) (peak n ts) := by
  induction fs with
  | nil => exact absurd rfl hne
  | cons f rest ih =>
    obtain ⟨hfirst, hrest⟩ := List.forall_mem_cons.mp h
    cases rest with
    | nil =>
      change peak n (f.tokens ++ ts) = _
      rw [hfirst, greatestDepth, greatestDepth]
      omega
    | cons f' rest =>
      change peak n ((f.tokens ++ .symbol .comma :: separated (tokenLists (f' :: rest))) ++ ts) = _
      rw [List.append_assoc, hfirst, List.cons_append]
      change max _ (peak n (separated (tokenLists (f' :: rest)) ++ ts)) = _
      rw [ih (by simp) hrest]
      simp only [greatestDepth]
      omega

/-- The count of a form, in a statement of its own. -/
theorem Form.peak_tokens (f : Form) (ts : List Token) :
    peak n (f.tokens ++ ts) = max (n + 1 + f.depth) (peak n ts) := by
  induction f generalizing n ts with
  | literal value => cases value <;> rfl
  | reference name => rfl
  | call callee arguments ih =>
    have hargs : peak (n + 1) (separated (tokenLists arguments) ++ (.symbol .closeParen :: ts)) =
        max (if arguments = [] then 0 else n + 1 + greatestDepth arguments) (peak n ts) := by
      by_cases hnil : arguments = []
      · subst hnil
        simp [tokenLists, separated, peak]
      · rw [peak_arguments hnil fun f hf ts => ih f hf ts, if_neg hnil]
        rfl
    have htokens : (Form.call callee arguments).tokens ++ ts = .ident callee ::
        .symbol .openParen :: (separated (tokenLists arguments) ++ .symbol .closeParen :: ts) := by
      simp [Form.tokens, inParens]
    rw [htokens, peak, peak, hargs, Form.depth]
    split
    next hnil =>
      rw [hnil, greatestDepth]
      omega
    next => omega
  | paren inner ih =>
    have htokens : (Form.paren inner).tokens ++ ts = .symbol .openParen ::
        (inner.tokens ++ .symbol .closeParen :: ts) := by
      simp [Form.tokens, inParens]
    rw [htokens, peak, ih, Form.depth, peak, Nat.add_sub_cancel]
    omega
  | binary op lhs rhs ihl ihr =>
    have htokens : (Form.binary op lhs rhs).tokens ++ ts =
        lhs.tokens ++ .symbol op.symbol :: (rhs.tokens ++ ts) := by
      simp [Form.tokens]
    rw [htokens, ihl, peak_operator, ihr, Form.depth]
    omega

theorem Form.peak_le_iff {f : Form} :
    peak n (f.tokens ++ ts) ≤ m ↔ AtMost m (f.marked (n + 1)) ∧ peak n ts ≤ m := by
  rw [Form.peak_tokens, Nat.max_le, Form.atMost_marked]

theorem peak_declarator (name : Ident) (type : Option TypeName) :
    peak n (declarator type :: .ident name :: .symbol .assign :: ts) = max (n + 1) (peak n ts) := by
  cases type with
  | none => rfl
  | some type =>
    cases type with
    | named other =>
      change max (n + 1) (max (n + 1) (peak n ts)) = _
      omega
    | prim type => rfl

theorem peak_body {body : List StmtForm} (h : ∀ st ∈ body, ∀ ts,
      peak n (st.tokens ++ ts) ≤ m ↔ AtMost m (st.marked n) ∧ peak n ts ≤ m) :
    peak n (body.flatMap StmtForm.tokens ++ ts) ≤ m ↔
      AtMost m (markedBody n body) ∧ peak n ts ≤ m := by
  induction body with
  | nil => simp [markedBody]
  | cons st rest ih =>
    obtain ⟨hfirst, hrest⟩ := List.forall_mem_cons.mp h
    rw [List.flatMap_cons, List.append_assoc, hfirst, ih hrest, markedBody, atMost_append,
      and_assoc]

/-- The tokens of a statement tell whether somewhere more is open than fits. -/
theorem StmtForm.peak_le_iff {st : StmtForm} (hn : n ≤ m) :
    peak n (st.tokens ++ ts) ≤ m ↔ AtMost m (st.marked n) ∧ peak n ts ≤ m := by
  induction st generalizing n ts with
  | block body ih =>
    rw [StmtForm.tokens_block, StmtForm.marked, atMost_cons, atMost_append, List.cons_append,
      List.append_assoc, peak, Nat.max_le]
    constructor
    · rintro ⟨hopen, hbody⟩
      obtain ⟨hmost, hrest⟩ := (peak_body fun st hst ts => ih st hst hopen).mp hbody
      exact ⟨⟨hopen, hmost, by simp [hopen]⟩, by simpa [peak] using hrest⟩
    · rintro ⟨⟨hopen, hmost, -⟩, hrest⟩
      exact ⟨hopen, (peak_body fun st hst ts => ih st hst hopen).mpr
        ⟨hmost, by simpa [peak] using hrest⟩⟩
  | varDecl name type value =>
    have htokens : (StmtForm.varDecl name type value).tokens ++ ts = declarator type ::
        .ident name :: .symbol .assign :: (value.tokens ++ .symbol .semicolon :: ts) := by
      simp [StmtForm.tokens, StmtForm.marked]
    rw [htokens, peak_declarator, Nat.max_le, Form.peak_le_iff]
    simp only [StmtForm.marked, atMost_cons, atMost_append, atMost_nil, hn, true_and, and_true,
      peak, Form.atMost_marked]
    -- The value is open at its own tokens, so the name of the variable counts no more.
    omega
  | ret value =>
    cases value with
    | none => simp [StmtForm.tokens, StmtForm.marked, peak, hn]
    | some value =>
      simp [StmtForm.tokens, StmtForm.marked, peak, hn, Form.peak_le_iff]
  | exprStatement value =>
    simp [StmtForm.tokens, StmtForm.marked, peak, hn, Form.peak_le_iff]

/-! What the grammar writes with some room does not count for more. -/

variable {room : Nat} {us : List Token}

theorem ExpressionTokens.peak_le {e : Expr} (h : ExpressionTokens room ts e) (hm : n + room ≤ m)
    (hus : peak n us ≤ m) : peak n (ts ++ us) ≤ m := by
  obtain ⟨f, ⟨-, hdepth⟩, rfl, -⟩ := expressionTokens_iff.mp h
  rw [Form.peak_tokens]
  omega

theorem StatementTokens.peak_le {Block : List Token → List Stmt → Prop} {st : Stmt}
    (h : StatementTokens Block (ExpressionTokens room) ts st) (hm : n + room ≤ m)
    (hblock : ∀ {ts body}, Block ts body → peak n (ts ++ us) ≤ m) (hus : peak n us ≤ m) :
    peak n (ts ++ us) ≤ m := by
  have hend : peak n (.symbol .semicolon :: us) ≤ m := hus
  cases h with
  | block hbody => exact hblock hbody
  | varDecl name type hvalue =>
    obtain ⟨f, ⟨-, hdepth⟩, -⟩ := expressionTokens_iff.mp hvalue
    have hvalue := hvalue.peak_le hm hend
    simp only [List.cons_append, List.append_assoc, List.nil_append]
    rw [peak_declarator]
    omega
  | retNone => exact hus
  | ret hvalue => simpa [peak] using hvalue.peak_le hm hend
  | exprStatement hvalue => simpa using hvalue.peak_le hm hend

theorem Sequence.peak_le {Item : List Token → Stmt → Prop} {body : List Stmt}
    (h : Sequence Item ts body)
    (hitem : ∀ {ts us st}, Item ts st → peak n us ≤ m → peak n (ts ++ us) ≤ m)
    (hus : peak n us ≤ m) : peak n (ts ++ us) ≤ m := by
  induction h with
  | nil => exact hus
  | cons ha _ ih =>
    rw [List.append_assoc]
    exact hitem ha ih

theorem BlockTokens.peak_le {body : List Stmt} (h : BlockTokens room ts body)
    (hm : n + room ≤ m) (hus : peak n us ≤ m) : peak n (ts ++ us) ≤ m := by
  induction room generalizing n ts us body with
  | zero => exact h.elim
  | succ room ih =>
    obtain @⟨ts, body, hitems, -⟩ := h
    rw [List.cons_append, List.append_assoc, peak, Nat.max_le]
    refine ⟨by omega, hitems.peak_le (fun hitem hus => ?_) hus⟩
    exact hitem.peak_le (by omega) (fun hbody => ih hbody (by omega) hus) hus

end Peak

/-! ## Declarations as they are written -/

/-- A declaration as it is written: one that has no body, or a function with its body. -/
inductive DeclForm
  | plain (tokens : List Token) (decl : Decl) (written : DeclarationTokens 0 tokens decl)
  | function (attributes : List Ident) (head : List Token) (proto : Proto) (body : List StmtForm)
      (written : PrototypeTokens head proto) (grouped : BodyGrouped body)
      (wellNamed : (Stmt.block (stmts body)).WellNamed)

namespace DeclForm

/-- The declaration that is written. -/
def decl : DeclForm → Decl
  | .plain _ decl _ => decl
  | .function attributes _ proto body _ _ _ => .function attributes proto (stmts body)

/-- The tokens of a declaration; nothing is open but in the body of a function. -/
def marked : DeclForm → List (Token × Nat)
  | .plain tokens _ _ => tokens.map (·, 0)
  | .function attributes head _ body _ _ _ =>
    (attributeTokens attributes ++ .keyword .fn :: head).map (·, 0) ++
      (StmtForm.block body).marked 0

/-- The tokens of a declaration. -/
def tokens (d : DeclForm) : List Token := d.marked.map Prod.fst

/-- At some token more blocks and expressions are open than there is room for. -/
def TooDeep (d : DeclForm) : Prop := ∃ mark ∈ d.marked, maxNesting < mark.2

instance (d : DeclForm) : Decidable d.TooDeep :=
  inferInstanceAs (Decidable (∃ mark ∈ d.marked, maxNesting < mark.2))

theorem not_tooDeep_iff {d : DeclForm} : ¬ d.TooDeep ↔ AtMost maxNesting d.marked := by
  simp [TooDeep, AtMost]

end DeclForm

section Declarations

variable {room : Nat} {ts us : List Token} {d : Decl} {proto : Proto}

theorem DeclForm.tokens_plain (h : DeclarationTokens 0 ts d) :
    (DeclForm.plain ts d h).tokens = ts := by
  simp [DeclForm.tokens, DeclForm.marked, Function.comp_def]

theorem DeclForm.tokens_function {attributes : List Ident} {head : List Token}
    {body : List StmtForm} {written : PrototypeTokens head proto} {grouped : BodyGrouped body}
    {wellNamed : (Stmt.block (stmts body)).WellNamed} :
    (DeclForm.function attributes head proto body written grouped wellNamed).tokens =
      attributeTokens attributes ++ .keyword .fn :: (head ++ (StmtForm.block body).tokens) := by
  simp [DeclForm.tokens, DeclForm.marked, Function.comp_def, StmtForm.tokens]

theorem atMost_zero (ts : List Token) : AtMost room (ts.map (·, 0)) := by
  simp [AtMost]

/-- A declaration at which not too much is open is written as the grammar says. -/
theorem DeclForm.declarationTokens {d : DeclForm} (h : AtMost room d.marked) :
    DeclarationTokens room d.tokens d.decl := by
  cases d with
  | plain tokens decl written =>
    rw [DeclForm.tokens_plain]
    cases written with
    | struct name fields hdistinct => exact .struct name fields hdistinct
    | global type name hvalue => exact .global type name hvalue
    | external attributes hproto => exact .external attributes hproto
    | function _ _ hbody => exact hbody.elim
  | function attributes head proto body written grouped wellNamed =>
    rw [DeclForm.marked, atMost_append] at h
    rw [DeclForm.tokens_function]
    exact .function attributes written (blockTokens_of_atMost grouped wellNamed h.2)

/-! ## Where the body of a function begins -/

theorem typeName_token_ne (type : TypeName) : .symbol .openCurly ≠ type.token := by
  cases type <;> simp [TypeName.token]

theorem brace_notMem_attributes (attributes : List Ident) :
    .symbol .openCurly ∉ attributeTokens attributes := by
  simp [attributeTokens]

theorem ParamTokens.brace_notMem {params : List Param} {variadic : Bool}
    (h : ParamTokens ts params variadic) : .symbol .openCurly ∉ ts := by
  induction h with
  | ellipsis => simp
  | last param => simp [Param.tokens, typeName_token_ne]
  | cons param _ ih => simpa [Param.tokens, typeName_token_ne] using ih

theorem PrototypeTokens.brace_notMem (h : PrototypeTokens ts proto) :
    .symbol .openCurly ∉ ts := by
  obtain ⟨name, harguments, hresult⟩ := h
  rw [List.mem_cons, List.mem_append, not_or, not_or]
  refine ⟨by simp, ?_, ?_⟩
  · cases harguments with
    | none => simp
    | some hparams _ => simpa using hparams.brace_notMem
  · cases hresult with
    | void => simp
    | written type => simp [typeName_token_ne]

/-- The tokens from the first brace on. -/
def fromBrace (ts : List Token) : List Token := ts.dropWhile (· ≠ .symbol .openCurly)

theorem fromBrace_append (h : .symbol .openCurly ∉ ts) : fromBrace (ts ++ us) = fromBrace us := by
  refine List.dropWhile_append_of_pos fun t ht => ?_
  have hne : t ≠ .symbol .openCurly := by
    rintro rfl
    exact h ht
  simpa using hne

theorem fromBrace_eq_nil (h : .symbol .openCurly ∉ ts) : fromBrace ts = [] := by
  have happend : fromBrace (ts ++ []) = fromBrace [] := fromBrace_append h
  rwa [List.append_nil] at happend

/-- The body of a function is what is written from the first brace on. -/
theorem DeclarationTokens.exists_body {attributes : List Ident} {head : List Token}
    (h : DeclarationTokens room
      (attributeTokens attributes ++ .keyword .fn :: (head ++ .symbol .openCurly :: us)) d)
    (hhead : PrototypeTokens head proto) :
    ∃ body, BlockTokens room (.symbol .openCurly :: us) body := by
  have hfrom : fromBrace (attributeTokens attributes ++
      .keyword .fn :: (head ++ .symbol .openCurly :: us)) = .symbol .openCurly :: us := by
    have hbefore : .symbol .openCurly ∉ attributeTokens attributes ++ .keyword .fn :: head := by
      simp [brace_notMem_attributes, hhead.brace_notMem]
    rw [← List.cons_append, ← List.append_assoc, fromBrace_append hbefore]
    rfl
  generalize hts : attributeTokens attributes ++
    .keyword .fn :: (head ++ .symbol .openCurly :: us) = ts at h hfrom
  cases h with
  | struct name fields _ => cases attributes <;> simp [attributeTokens] at hts
  | global type name _ => cases attributes <;> simp [attributeTokens] at hts
  | @external head' _ attributes' hproto =>
    have hnone : .symbol .openCurly ∉ attributeTokens attributes' ++
        .keyword .external :: .keyword .fn :: (head' ++ [.symbol .semicolon]) := by
      simpa [brace_notMem_attributes] using hproto.brace_notMem
    rw [fromBrace_eq_nil hnone] at hfrom
    cases hfrom
  | @function head' _ _ _ attributes' hproto hbody =>
    obtain ⟨vs, rfl⟩ := hbody.exists_cons
    have hbefore : .symbol .openCurly ∉ attributeTokens attributes' ++ .keyword .fn :: head' := by
      simpa [brace_notMem_attributes] using hproto.brace_notMem
    rw [← List.cons_append, ← List.append_assoc, fromBrace_append hbefore] at hfrom
    have hsame : .symbol .openCurly :: vs = .symbol .openCurly :: us := hfrom
    exact ⟨_, hsame ▸ hbody⟩

/-- Where too much is open the grammar has no room. -/
theorem DeclForm.atMost_of_declarationTokens {f : DeclForm}
    (h : DeclarationTokens room f.tokens d) : AtMost room f.marked := by
  cases f with
  | plain tokens decl written => exact atMost_zero tokens
  | function attributes head proto body written grouped wellNamed =>
    rw [DeclForm.tokens_function, StmtForm.tokens_block] at h
    obtain ⟨body', hbody⟩ := h.exists_body written
    rw [← StmtForm.tokens_block] at hbody
    rw [DeclForm.marked, atMost_append]
    refine ⟨atMost_zero _, ?_⟩
    have hpeak : peak 0 ((StmtForm.block body).tokens ++ []) ≤ room :=
      hbody.peak_le (Nat.le_of_eq (Nat.zero_add room)) (Nat.zero_le _)
    exact ((StmtForm.peak_le_iff (Nat.zero_le _)).mp hpeak).1

theorem exists_atMost (marks : List (Token × Nat)) : ∃ m, AtMost m marks := by
  induction marks with
  | nil => exact ⟨0, atMost_nil⟩
  | cons mark rest ih =>
    obtain ⟨m, hm⟩ := ih
    refine ⟨max mark.2 m, atMost_cons.mpr ⟨Nat.le_max_left _ _, fun p hp => ?_⟩⟩
    exact Nat.le_trans (hm p hp) (Nat.le_max_right _ _)

end Declarations

/-! ## The declarations of a module -/

/-- What becomes of a declaration. -/
inductive Judged : DeclForm → Piece → Prop
  | kept {d tokens} : ¬ d.TooDeep → Judged d (.read tokens d.decl)
  | rejected {d tokens span} : d.TooDeep →
      Judged d (.dropped tokens (.of (.nestingTooDeep maxNesting) span))

section Modules

variable {s : State} {store : Store} {root : NodeId} {name : Ident} {around : Option Position}
  {decls : List DeclForm} {d : DeclForm} {tokens : List (Located Token)}

/-- A declaration is read or rejected in one turn. -/
theorem turnTakes_declForm
    (htokens : tokens.map Located.value = d.tokens) : TurnTakes maxNesting tokens (Judged d) := by
  obtain ⟨m, hm⟩ := exists_atMost d.marked
  have hfits : AtMost (m + maxNesting) d.marked :=
    fun mark hmark => Nat.le_trans (hm mark hmark) (Nat.le_add_right m maxNesting)
  have hwritten := DeclForm.declarationTokens hfits
  by_cases hdeep : d.TooDeep
  · rw [← htokens] at hwritten
    obtain ⟨_, _, hts, hstart⟩ := hwritten.exists_cons
    obtain ⟨first, others, rfl, rfl, -⟩ := List.map_eq_cons_iff.mp hts
    refine ⟨⟨first, others, rfl, hstart⟩, ?_⟩
    intro s store root name tally next rest around hs hstands hupcoming hnext
    obtain ⟨marker, s₁, s₂, span, hfail, hsync, hmoved, hdepth, hstands'⟩ :=
      drop_declaration around hs hstands hwritten
        (fun d' hd' => DeclForm.not_tooDeep_iff.mpr
          (DeclForm.atMost_of_declarationTokens (htokens ▸ hd')) hdeep)
        hupcoming hnext
    obtain ⟨hcurly, hmore⟩ : s.cursor.kind ≠ .symbol .closeCurly ∧ s.cursor.hasNext = true := by
      refine hasNext_of_startsDeclaration ?_
      rwa [Cursor.kind, (List.cons.inj hupcoming).1]
    exact ⟨_, _, s₂, .failed hcurly hmore hfail hsync, .rejected hdeep, ⟨_, span, rfl, rfl⟩, rfl,
      rfl, hmoved, hdepth, hstands'⟩
  · have hread := DeclForm.declarationTokens (DeclForm.not_tooDeep_iff.mp hdeep)
    rw [← htokens] at hread
    exact turnTakes_read hread (.kept hdeep)

/-- Declarations are each read or rejected. -/
theorem loopTakes_declForms
    (htokens : tokens.map Located.value = decls.flatMap DeclForm.tokens) :
    LoopTakes maxNesting tokens (List.Forall₂ Judged decls) := by
  induction decls generalizing tokens with
  | nil =>
    obtain rfl : tokens = [] := by simpa using htokens
    exact .nil .nil
  | cons d decls ih =>
    obtain ⟨first, more, rfl, hfirst, hmore⟩ := List.map_eq_append_iff.mp htokens
    exact (ih hmore).cons (turnTakes_declForm hfirst) fun _ _ => .cons

/-- The declarations that are not too deep. -/
def keptDecls (decls : List DeclForm) : List Decl :=
  (decls.filter fun d => ¬ d.TooDeep).map DeclForm.decl

/-- Of declarations with distinct names all that are not too deep count, and each of the others
leaves one notice. -/
theorem foldl_add_of_judged {pieces : List Piece} (h : List.Forall₂ Judged decls pieces)
    (tally : Tally) (hdistinct : DistinctNames ((tally.decls ++ keptDecls decls).map Decl.name)) :
    ∃ new, pieces.foldl Tally.add tally =
        ⟨tally.decls ++ keptDecls decls, tally.notices ++ new⟩ ∧
      new.map Notice.diagnostic =
        (decls.filter fun d => d.TooDeep).map fun _ => .nestingTooDeep maxNesting := by
  induction h generalizing tally with
  | nil => exact ⟨[], by simp [keptDecls], rfl⟩
  | @cons d piece decls pieces hd _ ih =>
    cases hd with
    | @rejected tokens span hdeep =>
      have hkept : keptDecls (d :: decls) = keptDecls decls := by simp [keptDecls, hdeep]
      rw [hkept] at hdistinct ⊢
      obtain ⟨new, hfold, hnew⟩ :=
        ih (tally.add (.dropped tokens (.of (.nestingTooDeep maxNesting) span))) hdistinct
      refine ⟨.of (.nestingTooDeep maxNesting) span :: new, ?_, ?_⟩
      · rw [List.foldl_cons, hfold]
        simp [Tally.add]
      · rw [List.filter_cons_of_pos (by simpa using hdeep), List.map_cons, List.map_cons, hnew]
        rfl
    | @kept tokens hdeep =>
      have hkept : keptDecls (d :: decls) = d.decl :: keptDecls decls := by
        simp [keptDecls, hdeep]
      rw [hkept, List.append_cons] at hdistinct ⊢
      obtain ⟨new, hfold, hnew⟩ := ih ⟨tally.decls ++ [d.decl], tally.notices⟩ hdistinct
      refine ⟨new, by rw [List.foldl_cons, Tally.add_read tokens hdistinct, hfold], ?_⟩
      rw [hnew, List.filter_cons_of_neg (by simpa using hdeep)]

/-- Parsing succeeds with a module, and records notices with these diagnostics. -/
def ReadsAs (tokens : List (Located Token)) (store : Store) (notices : Notices) (m : Module)
    (diagnostics : List Diagnostic) : Prop :=
  ∃ parsed root ids new, parseModule tokens store notices = .ok parsed ∧
    parsed.result = .ok root ∧ ModuleAt parsed.store m root ids ∧
    parsed.notices.toList = notices.toList ++ new ∧ new.map Notice.diagnostic = diagnostics

/-- The tokens of a module with some declarations. -/
def moduleTokens (name : Ident) (decls : List DeclForm) : List Token :=
  headerTokens name ++ (decls.flatMap DeclForm.tokens ++ [.symbol .closeCurly, .eof])

theorem readsAs_keptDecls (store : Store) (notices : Notices)
    (htokens : tokens.map Located.value = moduleTokens name decls)
    (hdistinct : DistinctNames ((keptDecls decls).map Decl.name)) :
    ReadsAs tokens store notices ⟨name, keptDecls decls⟩
      (((decls.filter fun d => d.TooDeep).map fun _ => .nestingTooDeep maxNesting) ++
        if decls.isEmpty then [.emptyModule name] else []) := by
  obtain ⟨parsed, root, pieces, ids, span, hparse, hresult, hjudged, hplaced, hnotices⟩ :=
    parseModule_of_loopTakes store notices htokens fun _ hmiddle => loopTakes_declForms hmiddle
  obtain ⟨new, hfold, hnew⟩ := foldl_add_of_judged hjudged ⟨[], notices.toList⟩ hdistinct
  rw [hfold] at hplaced hnotices
  have hempty : pieces.isEmpty = decls.isEmpty := by cases hjudged <;> rfl
  rw [hempty, List.append_assoc] at hnotices
  refine ⟨parsed, root, ids, _, hparse, hresult, hplaced, hnotices, ?_⟩
  rw [List.map_append, hnew]
  split <;> rfl

/-- **The nesting limit.**  Of a module whose declarations have distinct names, a declaration is
rejected exactly if at some token of it more than `maxNesting` blocks and expressions are open.
Each rejected declaration leaves the notice that it nests too deeply, and there is no other notice
but that about a module without declarations.  The module is the one that is read without what is
rejected. -/
theorem parseModule_nesting {name : Ident} {decls : List DeclForm} {tokens : List (Located Token)}
    (store : Store) (notices : Notices)
    (htokens : tokens.map Located.value = moduleTokens name decls)
    (hdistinct : DistinctNames ((keptDecls decls).map Decl.name)) :
    ReadsAs tokens store notices ⟨name, keptDecls decls⟩
        (((decls.filter fun d => d.TooDeep).map fun _ => .nestingTooDeep maxNesting) ++
          if decls.isEmpty then [.emptyModule name] else []) ∧
      ∀ tokens' : List (Located Token),
        tokens'.map Located.value = moduleTokens name (decls.filter fun d => ¬ d.TooDeep) →
        ReadsAs tokens' store notices ⟨name, keptDecls decls⟩
          (if (keptDecls decls).isEmpty then [.emptyModule name] else []) := by
  refine ⟨readsAs_keptDecls store notices htokens hdistinct, fun tokens' htokens' => ?_⟩
  have hkept : keptDecls (decls.filter fun d => ¬ d.TooDeep) = keptDecls decls := by
    simp [keptDecls]
  have hnone : ((decls.filter fun d => ¬ d.TooDeep).filter fun d => d.TooDeep) = [] := by
    simp [List.filter_filter]
  have hreads := readsAs_keptDecls store notices htokens' (hkept ▸ hdistinct)
  rw [hkept, hnone] at hreads
  simpa [keptDecls] using hreads

/-- The number one in parentheses. -/
def parens : Nat → Form
  | 0 => .literal (.int 1)
  | n + 1 => .paren (parens n)

theorem parens_grouped (n : Nat) : (parens n).Grouped := by
  induction n with
  | zero => trivial
  | succ n ih => exact ih

theorem depth_parens (n : Nat) : (parens n).depth = n := by
  induction n with
  | zero => rfl
  | succ n ih => rw [parens, Form.depth, ih]

/-- `fn name() { { h(((1))); } }` with some parentheses in the argument. -/
def nestedCall (name : Ident) (n : Nat) : DeclForm :=
  .function [] [.ident name, .symbol .openParen, .symbol .closeParen]
    ⟨name, [], false, .prim .void⟩ [.block [.exprStatement (.call ⟨"h"⟩ [parens n])]]
    (.mk name .none .void) ⟨⟨⟨parens_grouped n, trivial⟩, trivial⟩, trivial⟩
    ⟨distinctNames_nil, ⟨distinctNames_nil, trivial, trivial⟩, trivial⟩

/-- Two blocks, the expression of the statement and the argument are open around the number. -/
theorem nestedCall_tooDeep_iff {name : Ident} {n : Nat} :
    (nestedCall name n).TooDeep ↔ maxNesting < n + 4 := by
  rw [← not_iff_not, DeclForm.not_tooDeep_iff]
  simp only [nestedCall, DeclForm.marked, atMost_append, atMost_zero, StmtForm.marked, markedBody,
    atMost_cons, atMost_nil, Form.atMost_marked, Form.depth, greatestDepth, depth_parens,
    maxNesting, true_and, and_true]
  omega

/-- The first function is one level too deep, and the second is as deep as may be. -/
theorem parseModule_nesting_boundary :
    let decls := [nestedCall ⟨"f"⟩ 125, nestedCall ⟨"g"⟩ 124]
    DistinctNames ((keptDecls decls).map Decl.name) ∧
      ReadsAs ((moduleTokens ⟨"m"⟩ decls).map (⟨·, default⟩)) .empty #[]
        ⟨⟨"m"⟩, [(nestedCall ⟨"g"⟩ 124).decl]⟩ [.nestingTooDeep maxNesting] := by
  intro decls
  have hdeep : (nestedCall ⟨"f"⟩ 125).TooDeep := nestedCall_tooDeep_iff.mpr (by decide)
  have hfits : ¬ (nestedCall ⟨"g"⟩ 124).TooDeep := mt nestedCall_tooDeep_iff.mp (by decide)
  have hkept : keptDecls decls = [(nestedCall ⟨"g"⟩ 124).decl] := by
    simp [decls, keptDecls, hdeep, hfits]
  have hdistinct : DistinctNames ((keptDecls decls).map Decl.name) := by
    rw [hkept]
    decide
  have htokens : ((moduleTokens ⟨"m"⟩ decls).map (fun t => Located.mk t default)).map
      Located.value = moduleTokens ⟨"m"⟩ decls := by
    simp [Function.comp_def]
  have hreads := (parseModule_nesting .empty #[] htokens hdistinct).1
  rw [hkept] at hreads
  exact ⟨hdistinct, by simpa [decls, hdeep, hfits] using hreads⟩

end Modules

end FrontEnd.Grammar
