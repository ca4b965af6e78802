import FrontEnd.Proofs.Lowering.Linking
import FrontEnd.Proofs.Lowering.Numbering
import FrontEnd.Proofs.Lowering.Types

/-!
# Calls and literals, in the tree and in code

Lowering makes one instruction for each call of a body, and one operand for each literal that is
part of an expression or of a statement; a literal that is a statement of its own is dropped.  Here
the calls and literals are collected from the tree of a body and from its code, each with what is
written there.

## Main definitions

* `Collected`: the wanted nodes in a part of a tree, in the order of the store.
* `Expr.literals`, `Stmt.literals`: the written literals that are used.
* `constants`: the constants among the operands of code.

## Main statements

* `exists_calls`, `exists_literals`: the nodes of a statement stand for what is written in it.
* `FunctionCode.constants_perm`: the constants of code are the written literals.
-/

namespace FrontEnd

/-! ## Written literals -/

namespace Phrase

mutual

/-- The literals of an expression. -/
def Expr.literals : Expr → List Literal
  | .literal l => [l.sized]
  | .reference _ => []
  | .call _ arguments => literalsOfAll arguments
  | .binary _ lhs rhs => lhs.literals ++ rhs.literals

/-- The literals of expressions one after the other. -/
def literalsOfAll : List Expr → List Literal
  | [] => []
  | e :: rest => e.literals ++ literalsOfAll rest

end

/-- The literals of an expression whose value is dropped: without itself if it is one. -/
def Expr.innerLiterals : Expr → List Literal
  | .literal _ => []
  | e => e.literals

mutual

/-- What is written in a statement, given what is written in an expression that it uses and in one
whose value it drops. -/
def Stmt.gather {β : Type} (used dropped : Expr → List β) : Stmt → List β
  | .block body => gatherBody used dropped body
  | .varDecl _ _ value => used value
  | .ret none => []
  | .ret (some value) => used value
  | .exprStatement value => dropped value

/-- What is written in statements one after the other. -/
def gatherBody {β : Type} (used dropped : Expr → List β) : List Stmt → List β
  | [] => []
  | st :: rest => st.gather used dropped ++ gatherBody used dropped rest

end

/-- The literals of statements whose values are used. -/
def literalsOfBody : List Stmt → List Literal := gatherBody Expr.literals Expr.innerLiterals

theorem callsOfAll_eq (es : List Expr) : callsOfAll es = es.flatMap Expr.calls := by
  induction es with
  | nil => rfl
  | cons e es ih => rw [callsOfAll, ih, List.flatMap_cons]

theorem literalsOfAll_eq (es : List Expr) : literalsOfAll es = es.flatMap Expr.literals := by
  induction es with
  | nil => rfl
  | cons e es ih => rw [literalsOfAll, ih, List.flatMap_cons]

theorem gatherBody_eq {β : Type} (used dropped : Expr → List β) (body : List Stmt) :
    gatherBody used dropped body = body.flatMap (Stmt.gather used dropped) := by
  induction body with
  | nil => rfl
  | cons st body ih => rw [gatherBody, ih, List.flatMap_cons]

/-- Calls are made whether or not their values are used. -/
theorem Stmt.gather_calls (st : Stmt) : st.gather Expr.calls Expr.calls = st.calls := by
  induction st with
  | block body ih =>
    rw [gather, Stmt.calls]
    induction body with
    | nil => rfl
    | cons st body ihs =>
      rw [gatherBody, callsOfBody, ih st (by simp), ihs fun st' h => ih st' (by simp [h])]
  | ret value => cases value <;> rfl
  | varDecl _ _ _ => rfl
  | exprStatement _ => rfl

theorem gatherBody_calls (body : List Stmt) :
    gatherBody Expr.calls Expr.calls body = callsOfBody body :=
  Stmt.gather_calls (.block body)

end Phrase

/-! ## Nodes that are wanted -/

namespace Store

open Phrase

variable {β : Type} {s : Store} {Wanted : NodeId → Prop} {R : NodeId → β → Prop} {id : NodeId}
  {lo mid hi : Nat} {p : Option NodeId} {c : Construct} {e : Expr}

/-- Nodes are all the wanted ones at and below others, in the order of the store, and each stands
for an entry of a list. -/
structure Collected (s : Store) (Wanted : NodeId → Prop) (R : NodeId → β → Prop) (lo hi : Nat)
    (tops nodes : List NodeId) (entries : List β) : Prop where
  mem_iff : ∀ id, id ∈ nodes ↔ (∃ top ∈ tops, s.Below top id) ∧ Wanted id
  ascending : nodes.Pairwise fun a b => a.index < b.index
  within : ∀ id ∈ nodes, lo ≤ id.index ∧ id.index < hi
  related : List.Forall₂ R nodes entries

namespace Collected

variable {tops tops' nodes nodes' : List NodeId} {entries entries' : List β}

theorem nil : Collected s Wanted R lo hi [] [] [] where
  mem_iff := by simp
  ascending := .nil
  within := by simp
  related := .nil

theorem widen (h : Collected s Wanted R lo hi tops nodes entries) {lo' hi' : Nat} (hlo : lo' ≤ lo)
    (hhi : hi ≤ hi') : Collected s Wanted R lo' hi' tops nodes entries where
  mem_iff := h.mem_iff
  ascending := h.ascending
  within id hid := by
    have := h.within id hid
    omega
  related := h.related

/-- Trees that lie one after the other. -/
theorem append (h : Collected s Wanted R lo mid tops nodes entries)
    (h' : Collected s Wanted R mid hi tops' nodes' entries') (hlo : lo ≤ mid) (hhi : mid ≤ hi) :
    Collected s Wanted R lo hi (tops ++ tops') (nodes ++ nodes') (entries ++ entries') where
  mem_iff id := by
    simp only [List.mem_append, h.mem_iff, h'.mem_iff, or_and_right, exists_or]
  ascending := by
    refine List.pairwise_append.mpr ⟨h.ascending, h'.ascending, fun a ha b hb => ?_⟩
    have hleft := h.within a ha
    have hright := h'.within b hb
    omega
  within := by
    refine List.forall_mem_append.mpr ⟨fun id hid => ?_, fun id hid => ?_⟩
    · have := h.within id hid
      omega
    · have := h'.within id hid
      omega
  related := List.rel_append h.related h'.related

/-- A node that is not wanted has the wanted nodes below its children. -/
theorem node (h : Collected s Wanted R lo hi c.children nodes entries) (hnode : s.Has p id c)
    (hnot : ¬ Wanted id) : Collected s Wanted R lo hi [id] nodes entries where
  mem_iff other := by
    rw [h.mem_iff]
    refine and_congr_left fun hwanted => ?_
    obtain ⟨span, hget⟩ := hnode
    constructor
    · rintro ⟨child, hchild, hbelow⟩
      exact ⟨id, by simp, hbelow.head hget hchild⟩
    · rintro ⟨top, htop, hbelow⟩
      obtain rfl := List.mem_singleton.mp htop
      rcases hbelow.cases_head hget with rfl | hbelow
      · exact absurd hwanted hnot
      · exact hbelow
  ascending := h.ascending
  within := h.within
  related := h.related

/-- A wanted node comes after those below its children. -/
theorem snoc (h : Collected s Wanted R lo mid c.children nodes entries) (hnode : s.Has p id c)
    (hwanted : Wanted id) {entry : β} (hentry : R id entry) (hlo : lo ≤ mid)
    (hmid : mid ≤ id.index) (hhi : id.index < hi) :
    Collected s Wanted R lo hi [id] (nodes ++ [id]) (entries ++ [entry]) where
  mem_iff other := by
    obtain ⟨span, hget⟩ := hnode
    rw [List.mem_append, h.mem_iff, List.mem_singleton]
    constructor
    · rintro (⟨⟨child, hchild, hbelow⟩, hother⟩ | rfl)
      · exact ⟨⟨id, by simp, hbelow.head hget hchild⟩, hother⟩
      · exact ⟨⟨other, by simp, .refl other⟩, hwanted⟩
    · rintro ⟨⟨top, htop, hbelow⟩, hother⟩
      obtain rfl := List.mem_singleton.mp htop
      rcases hbelow.cases_head hget with rfl | hbelow
      · exact .inr rfl
      · exact .inl ⟨hbelow, hother⟩
  ascending := by
    refine List.pairwise_append.mpr ⟨h.ascending, List.pairwise_singleton _ _, fun a ha b hb => ?_⟩
    obtain rfl := List.mem_singleton.mp hb
    have := h.within a ha
    omega
  within := by
    refine List.forall_mem_append.mpr ⟨fun a ha => ?_, fun a ha => ?_⟩
    · have := h.within a ha
      omega
    · obtain rfl := List.mem_singleton.mp ha
      omega
  related := List.rel_append h.related (.cons hentry .nil)

/-- Phrases that are placed one after the other, each with its entries. -/
theorem laid {α : Type} {At : Placing α} [Framed At] {as : List α} {roots : List NodeId}
    (h : Laid (At s) lo hi p as roots) (entriesOf : α → List β)
    (hitem : ∀ a ∈ as, ∀ {lo hi id}, At s lo hi p a id →
      ∃ nodes, Collected s Wanted R lo hi [id] nodes (entriesOf a)) :
    ∃ nodes, Collected s Wanted R lo hi roots nodes (as.flatMap entriesOf) := by
  induction h with
  | nil _ => exact ⟨[], nil⟩
  | @cons p lo mid hi a rest id roots hhead hrest ih =>
    have hin := Framed.within hhead
    have hle := hrest.le_of_framed
    obtain ⟨nodes, hnodes⟩ := hitem a (by simp) hhead
    obtain ⟨nodes', hnodes'⟩ := ih fun b hb => hitem b (by simp [hb])
    exact ⟨nodes ++ nodes', hnodes.append hnodes' (by omega) hle⟩

end Collected

/-! ## Calls and literals of a tree -/

/-- A node is a call of a name with a number of arguments. -/
def CallsAt (s : Store) (id : NodeId) (written : Ident × Nat) : Prop :=
  ∃ c, s.construct id = .ok (.call c) ∧ c.callee = written.1 ∧ c.arguments.length = written.2

/-- A node is a literal. -/
def LiteralAt (s : Store) (id : NodeId) (l : Literal) : Prop := s.construct id = .ok (.literal l)

/-- A node is a literal, and not a statement of its own. -/
def IsOperand (s : Store) (id : NodeId) : Prop :=
  s.HasKind [.literal] id ∧
    ∀ parent, s.parent id = .ok (some parent) → ¬ s.HasKind [.exprStatement] parent

/-- The calls in the tree of an expression are those that are written in it. -/
theorem exists_calls_expr (h : ExprAt s lo hi p e id) :
    ∃ nodes, Collected s (s.HasKind [.call]) (CallsAt s) lo hi [id] nodes e.calls := by
  induction e generalizing lo hi p id with
  | literal l =>
    cases h with
    | literal _ _ hnode =>
      exact ⟨[], Collected.nil.node hnode (by simp [hnode.hasKind_iff, Construct.kind])⟩
  | reference name =>
    cases h with
    | reference _ _ hnode =>
      exact ⟨[], Collected.nil.node hnode (by simp [hnode.hasKind_iff, Construct.kind])⟩
  | call callee arguments ih =>
    cases h with
    | @call _ _ mid _ _ _ roots _ hlaid hmid hhi hnode =>
      obtain ⟨nodes, hnodes⟩ := Collected.laid hlaid _ fun a ha => ih a ha
      refine ⟨nodes ++ [id], ?_⟩
      rw [Expr.calls, callsOfAll_eq, ← hlaid.length_eq]
      exact hnodes.snoc hnode (hnode.hasKind_iff.mpr (by simp [Construct.kind]))
        ⟨_, hnode.construct_eq, rfl, rfl⟩ (hlaid.le_of_framed) hmid hhi
  | binary op lhs rhs ihl ihr =>
    cases h with
    | @binary _ _ mid top _ _ _ _ l r _ hl hr htop hhi hnode =>
      have hin := hl.within
      have hin' := hr.within
      obtain ⟨nodes, hnodes⟩ := ihl hl
      obtain ⟨nodes', hnodes'⟩ := ihr hr
      refine ⟨nodes ++ nodes', ?_⟩
      have hboth := hnodes.append hnodes' (by omega) (by omega)
      exact (hboth.node hnode (by simp [hnode.hasKind_iff, Construct.kind])).widen (Nat.le_refl _)
        (by omega)

/-- The literals in the tree of an expression are those that are written in it, unless it is a
literal and a statement of its own. -/
theorem exists_literals_expr (h : ExprAt s lo hi p e id)
    (hparent : ∀ l, e = .literal l → ∀ parent, p = some parent →
      ¬ s.HasKind [.exprStatement] parent) :
    ∃ nodes, Collected s s.IsOperand (LiteralAt s) lo hi [id] nodes e.literals := by
  induction e generalizing lo hi p id with
  | literal l =>
    cases h with
    | literal hlo hhi hnode =>
      refine ⟨[] ++ [id], Collected.nil.snoc hnode ⟨?_, fun parent hid => ?_⟩ hnode.construct_eq
        (Nat.le_refl lo) hlo hhi⟩
      · exact hnode.hasKind_iff.mpr (by simp [Construct.kind])
      · exact hparent l rfl parent (Except.ok.inj (hnode.parent_eq.symm.trans hid))
  | reference name =>
    cases h with
    | reference _ _ hnode =>
      exact ⟨[], Collected.nil.node hnode
        (by simp [IsOperand, hnode.hasKind_iff, Construct.kind])⟩
  | call callee arguments ih =>
    cases h with
    | @call _ _ mid _ _ _ roots _ hlaid hmid hhi hnode =>
      obtain ⟨nodes, hnodes⟩ := Collected.laid hlaid _ fun a ha _ _ _ hat =>
        ih a ha hat fun _ _ parent hid => by
          cases hid
          simp [hnode.hasKind_iff, Construct.kind]
      refine ⟨nodes, ?_⟩
      rw [Expr.literals, literalsOfAll_eq]
      exact (hnodes.node hnode (by simp [IsOperand, hnode.hasKind_iff, Construct.kind])).widen
        (Nat.le_refl _) (by omega)
  | binary op lhs rhs ihl ihr =>
    cases h with
    | @binary _ _ mid top _ _ _ _ l r _ hl hr htop hhi hnode =>
      have hin := hl.within
      have hin' := hr.within
      have hown : ∀ parent, some id = some parent → ¬ s.HasKind [.exprStatement] parent := by
        intro parent hid
        cases hid
        simp [hnode.hasKind_iff, Construct.kind]
      obtain ⟨nodes, hnodes⟩ := ihl hl fun _ _ => hown
      obtain ⟨nodes', hnodes'⟩ := ihr hr fun _ _ => hown
      refine ⟨nodes ++ nodes', ?_⟩
      have hboth := hnodes.append hnodes' (by omega) (by omega)
      exact (hboth.node hnode (by simp [IsOperand, hnode.hasKind_iff, Construct.kind])).widen
        (Nat.le_refl _) (by omega)

/-- A literal that is a statement of its own is no operand. -/
theorem exists_literals_dropped {q : NodeId} (h : ExprAt s lo hi (some q) e id)
    (hq : s.HasKind [.exprStatement] q) :
    ∃ nodes, Collected s s.IsOperand (LiteralAt s) lo hi [id] nodes e.innerLiterals := by
  cases e with
  | literal l =>
    cases h with
    | literal _ _ hnode =>
      refine ⟨[], Collected.nil.node hnode fun hoperand => ?_⟩
      exact hoperand.2 q hnode.parent_eq hq
  | reference _ | call _ _ | binary _ _ _ =>
    exact exists_literals_expr h fun l hl => by cases hl

section Statements

variable {used dropped : Expr → List β} (hkind : ∀ id, Wanted id → s.HasKind Kind.expressions id)
  (hused : ∀ {e lo hi p q c id}, s.Has p q c → c.kind ≠ .exprStatement →
    ExprAt s lo hi (some q) e id → ∃ nodes, Collected s Wanted R lo hi [id] nodes (used e))
  (hdropped : ∀ {e lo hi q id}, s.HasKind [.exprStatement] q → ExprAt s lo hi (some q) e id →
    ∃ nodes, Collected s Wanted R lo hi [id] nodes (dropped e))
include hkind hused hdropped

/-- What is wanted in a statement is wanted in its expressions. -/
theorem exists_collected_stmt {st : Stmt} (h : StmtAt s lo hi p st id) :
    ∃ nodes, Collected s Wanted R lo hi [id] nodes (st.gather used dropped) := by
  have hnot : ∀ {p id c}, s.Has p id c → c.kind ∉ Kind.expressions → ¬ Wanted id :=
    fun hnode hplain hwanted => hplain (hnode.hasKind_iff.mp (hkind _ hwanted))
  induction st generalizing lo hi p id with
  | block body ih =>
    cases h with
    | @block _ _ _ _ roots _ hlo hlaid hnode =>
      obtain ⟨nodes, hnodes⟩ := Collected.laid hlaid _ fun st hst => ih st hst
      refine ⟨nodes, ?_⟩
      rw [Stmt.gather, gatherBody_eq]
      exact (hnodes.node hnode (hnot hnode (by simp [Construct.kind, Kind.expressions]))).widen
        (by omega) (Nat.le_refl _)
  | varDecl name type value =>
    cases h with
    | @varDecl _ _ mid top _ _ _ _ t v _ htype hvalue htop hhi hnode =>
      have hle := htype.le_of_framed
      have hin := hvalue.within
      obtain ⟨none, hnone⟩ := Collected.laid htype (fun _ => [])
        fun _ _ _ _ _ hat => ⟨[], Collected.nil.node hat.2.2
          (hnot hat.2.2 (by simp [Construct.kind, Kind.expressions]))⟩
      obtain ⟨nodes, hnodes⟩ := hused hnode (by simp [Construct.kind]) hvalue
      have hboth := hnone.append hnodes hle (by omega)
      refine ⟨none ++ nodes, ?_⟩
      rw [List.flatMap_eq_nil_iff.mpr (fun _ _ => rfl), List.nil_append] at hboth
      exact (hboth.node hnode (hnot hnode (by simp [Construct.kind, Kind.expressions]))).widen
        (Nat.le_refl _) (by omega)
  | ret value =>
    cases h with
    | @ret _ _ mid _ _ v _ hlaid hmid hhi hnode =>
      obtain ⟨nodes, hnodes⟩ := Collected.laid hlaid _ fun _ _ _ _ _ hat =>
        hused hnode (by simp [Construct.kind]) hat
      have hgather : (Stmt.ret value).gather used dropped = value.toList.flatMap used := by
        cases value <;> simp [Stmt.gather]
      refine ⟨nodes, ?_⟩
      rw [hgather]
      exact (hnodes.node hnode (hnot hnode (by simp [Construct.kind, Kind.expressions]))).widen
        (Nat.le_refl _) (by omega)
  | exprStatement value =>
    cases h with
    | @exprStatement _ _ mid _ _ v _ hvalue hmid hhi hnode =>
      obtain ⟨nodes, hnodes⟩ :=
        hdropped (hnode.hasKind_iff.mpr (by simp [Construct.kind])) hvalue
      refine ⟨nodes, ?_⟩
      exact (hnodes.node hnode (hnot hnode (by simp [Construct.kind, Kind.expressions]))).widen
        (Nat.le_refl _) (by omega)

end Statements

/-- The calls in the tree of a body are those that are written in it. -/
theorem exists_calls {body : List Stmt} (h : StmtAt s lo hi p (.block body) id) :
    ∃ nodes, Collected s (s.HasKind [.call]) (CallsAt s) lo hi [id] nodes (callsOfBody body) := by
  rw [← gatherBody_calls]
  refine exists_collected_stmt (fun id hcall => ?_) (fun _ _ => exists_calls_expr)
    (fun _ => exists_calls_expr) h
  obtain ⟨kind, hmem, hid⟩ := hcall
  refine ⟨kind, ?_, hid⟩
  rw [List.mem_singleton.mp hmem]
  simp [Kind.expressions]

/-- The literals in the tree of a body that are operands are those that are used in it. -/
theorem exists_literals {body : List Stmt} (h : StmtAt s lo hi p (.block body) id) :
    ∃ nodes, Collected s s.IsOperand (LiteralAt s) lo hi [id] nodes (literalsOfBody body) := by
  refine exists_collected_stmt (fun id hliteral => ?_) (fun hnode hkind hat => ?_)
    (fun hq hat => exists_literals_dropped hat hq) h
  · obtain ⟨⟨kind, hmem, hid⟩, -⟩ := hliteral
    refine ⟨kind, ?_, hid⟩
    rw [List.mem_singleton.mp hmem]
    simp [Kind.expressions]
  · refine exists_literals_expr hat fun _ _ parent hid hparent => ?_
    cases hid
    exact hkind (List.mem_singleton.mp (hnode.hasKind_iff.mp hparent))

end Store

/-! ## Constants of code -/

/-- The constant that an operand is, if it is one. -/
def Code.Operand.constants : Code.Operand → List Code.Constant
  | .const value => [value]
  | _ => []

namespace Lowering

open Code Phrase

variable {m : Phrase.Module} {P : Program} {n n' : Nat} {locals locals' : Locals}
  {code : List Instr}

/-- The constants among the operands of code. -/
def constants (code : List Instr) : List Constant :=
  code.flatMap fun instr => instr.operands.flatMap Operand.constants

@[simp] theorem constants_append (code code' : List Instr) :
    constants (code ++ code') = constants code ++ constants code' := by
  simp [constants]

@[simp] theorem constants_singleton (instr : Instr) :
    constants [instr] = instr.operands.flatMap Operand.constants := by
  simp [constants]

/-- The operands of two pieces of code may be told after both. -/
theorem perm_append_swap {α : Type} (as bs cs ds : List α) :
    (as ++ bs ++ (cs ++ ds)).Perm (as ++ cs ++ (bs ++ ds)) := by
  have hswap : (bs ++ cs).Perm (cs ++ bs) := List.perm_append_comm
  simpa only [List.append_assoc] using (hswap.append_right ds).append_left as

/-- The constants of arguments and their code are the literals of the arguments. -/
theorem Chained.constants_perm {arguments : List Expr} {operands : List Operand}
    (h : Chained (ExprCode m P locals) n arguments code operands n')
    (hitem : ∀ a ∈ arguments, ∀ {n code op n'}, ExprCode m P locals n a code op n' →
      (constants code ++ op.constants).Perm (a.literals.map constantOf)) :
    (constants code ++ operands.flatMap Operand.constants).Perm
      ((literalsOfAll arguments).map constantOf) := by
  induction h with
  | nil n => exact .nil
  | @cons n n₁ n₂ a as code codes op ops hhead _ ih =>
    have hfirst := hitem a (by simp) hhead
    have hrest := ih fun a ha => hitem a (by simp [ha])
    rw [constants_append, List.flatMap_cons, literalsOfAll, List.map_append]
    exact (perm_append_swap _ _ _ _).trans (hfirst.append hrest)

theorem ExprCode.constants_perm {e : Expr} {op : Operand}
    (h : ExprCode m P locals n e code op n') :
    (constants code ++ op.constants).Perm (e.literals.map constantOf) := by
  induction e generalizing n code op n' with
  | literal l =>
    cases h
    exact .refl _
  | reference name =>
    cases h with
    | inSlot _ => exact .refl _
    | global _ _ => exact .refl _
  | call callee arguments ih =>
    cases h with
    | call _ _ _ _ harguments =>
      simpa [Instr.operands, Operand.constants, Expr.literals] using
        harguments.constants_perm fun a ha => ih a ha
    | callVoid _ _ _ _ harguments =>
      simpa [Instr.operands, Operand.constants, Expr.literals] using
        harguments.constants_perm fun a ha => ih a ha
  | binary op lhs rhs ihl ihr =>
    cases h with
    | @binary _ _ _ _ _ _ left right a b hl hr =>
      have hboth := (perm_append_swap (constants left) (constants right) a.constants
        b.constants).trans ((ihl hl).append (ihr hr))
      simpa [Instr.operands, Operand.constants, Expr.literals] using hboth

/-- The constants of code whose operand is dropped. -/
theorem ExprCode.constants_perm_dropped {e : Expr} {op : Operand}
    (h : ExprCode m P locals n e code op n') :
    (constants code).Perm (e.innerLiterals.map constantOf) := by
  have hperm := h.constants_perm
  cases h with
  | literal l => exact .nil
  | inSlot _ | global _ _ | call _ _ _ _ _ | callVoid _ _ _ _ _ | binary _ _ =>
    rw [show Operand.constants _ = [] from rfl, List.append_nil] at hperm
    exact hperm

theorem Threaded.constants_perm {body : List Stmt}
    (h : Threaded (StmtCode m P) locals n body code locals' n')
    (hitem : ∀ st ∈ body, ∀ {locals n code locals' n'}, StmtCode m P locals n st code locals' n' →
      (constants code).Perm
        ((st.gather Expr.literals Expr.innerLiterals).map constantOf)) :
    (constants code).Perm ((literalsOfBody body).map constantOf) := by
  induction h with
  | nil locals n => exact .nil
  | cons hhead _ ih =>
    rw [constants_append, literalsOfBody, gatherBody, List.map_append]
    exact (hitem _ (by simp) hhead).append (ih fun st hst => hitem st (by simp [hst]))

theorem StmtCode.constants_perm {st : Stmt} (h : StmtCode m P locals n st code locals' n') :
    (constants code).Perm ((st.gather Expr.literals Expr.innerLiterals).map constantOf) := by
  induction st generalizing locals n code locals' n' with
  | block body ih =>
    cases h with
    | block hbody => exact hbody.constants_perm fun st hst => ih st hst
  | varDecl name type value =>
    cases h with
    | varDecl hvalue =>
      simpa [Instr.operands, Stmt.gather] using hvalue.constants_perm
  | ret value =>
    cases h with
    | retNone => exact .nil
    | ret hvalue => simpa [Instr.operands, Stmt.gather] using hvalue.constants_perm
  | exprStatement value =>
    cases h with
    | exprStatement hvalue => exact hvalue.constants_perm_dropped

/-- The constants in the code of a function are the literals that are used in its body. -/
theorem FunctionCode.constants_perm {proto : Proto} {body : List Stmt}
    (h : FunctionCode m P proto body code) :
    (constants code).Perm ((literalsOfBody body).map constantOf) := by
  obtain ⟨main, locals, n, hmain, rfl⟩ := h
  have hperm := hmain.constants_perm fun _ _ => StmtCode.constants_perm
  split
  · exact hperm
  · simpa [Instr.operands] using hperm

end Lowering

end FrontEnd
