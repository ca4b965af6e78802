import FrontEnd.Tree.Construct
import Mathlib.Data.List.Nodup

/-!
# Phrases

The language apart from any store: literals, types, expressions, statements,
declarations and modules as trees that hold their parts.  A phrase has no spans, no
node numbers and no parents, and parentheses leave no trace in it.

Names of a list are distinct when no two of them are the same name, whatever their
case.

## Main definitions

* `Expr`, `Stmt`, `Decl`, `Module`: the phrases.
* `DistinctNames`: no name of a list comes twice.
* `assoc?`: what a list of named things holds under a name.
* `Module.WellNamed`: the names that the language requires to be distinct are.
-/

namespace FrontEnd

/-- No name of a list comes twice, in any case. -/
def DistinctNames (names : List Ident) : Prop := (names.map Ident.key).Nodup

instance (names : List Ident) : Decidable (DistinctNames names) :=
  inferInstanceAs (Decidable (names.map Ident.key).Nodup)

@[simp] theorem distinctNames_nil : DistinctNames [] := List.nodup_nil

variable {names : List Ident}

theorem distinctNames_append {more : List Ident} : DistinctNames (names ++ more) ↔
    DistinctNames names ∧ DistinctNames more ∧ ∀ n ∈ names, ∀ n' ∈ more, n.same n' = false := by
  simp only [DistinctNames, List.map_append, List.nodup_append, List.forall_mem_map]
  refine and_congr_right fun _ => and_congr_right fun _ => ?_
  refine forall₂_congr fun n _ => forall₂_congr fun n' _ => ?_
  rw [Bool.eq_false_iff, Ne, Ne, Ident.same_iff]

/-- A name may go after distinct names if it is none of them. -/
theorem distinctNames_append_singleton {name : Ident} :
    DistinctNames (names ++ [name]) ↔ DistinctNames names ∧ ∀ n ∈ names, n.same name = false := by
  rw [distinctNames_append]
  simp [DistinctNames]

/-- A thing may go after things with distinct names if none has its name. -/
theorem distinctNames_map_snoc {α : Type} {f : α → Ident} {as : List α} {a : α}
    (h : DistinctNames (as.map f)) (hnew : ∀ b ∈ as, (f b).same (f a) = false) :
    DistinctNames ((as ++ [a]).map f) := by
  rw [List.map_append, List.map_singleton, distinctNames_append_singleton]
  exact ⟨h, by simpa using hnew⟩

theorem DistinctNames.of_append_left {more : List Ident} (h : DistinctNames (names ++ more)) :
    DistinctNames names := by
  rw [DistinctNames, List.map_append] at h
  exact h.of_append_left

/-- What the first entry of a name holds. -/
def assoc? {α : Type} (entries : List (Ident × α)) (name : Ident) : Option α :=
  (entries.find? fun e => e.1.same name).map Prod.snd

/-- Entries that correspond to each other name corresponding things. -/
theorem assoc?_cases {α β : Type} {R : α → β → Prop} {as : List (Ident × α)}
    {bs : List (Ident × β)} (h : List.Forall₂ (fun a b => a.1 = b.1 ∧ R a.2 b.2) as bs)
    (name : Ident) : (assoc? as name = none ∧ assoc? bs name = none) ∨
      ∃ a b, assoc? as name = some a ∧ assoc? bs name = some b ∧ R a b := by
  induction h with
  | nil => exact .inl ⟨rfl, rfl⟩
  | @cons a b as bs hhead _ ih =>
    obtain ⟨hname, hrelated⟩ := hhead
    simp only [assoc?, List.find?_cons, hname] at ih ⊢
    cases b.1.same name with
    | true => exact .inr ⟨a.2, b.2, rfl, rfl, hrelated⟩
    | false => exact ih

namespace Phrase

/-! ## Literals and types -/

/-- A literal.  The width of an integer follows from its value. -/
inductive Lit
  | int (value : Int)
  | bool (value : Bool)
  | char (value : Char)
deriving DecidableEq

/-- The literal with its width. -/
def Lit.sized : Lit → Literal
  | .int value => .int value (.fitting value)
  | .bool value => .bool value
  | .char value => .char value

/-- A type: a struct by name, or a primitive type. -/
inductive TypeName
  | named (name : Ident)
  | prim (type : Prim)
deriving DecidableEq

/-- The type as a node refers to it. -/
def TypeName.ref : TypeName → TypeRef
  | .named name => .named name
  | .prim type => .known (.prim type)

/-! ## Expressions and statements -/

/-- An expression. -/
inductive Expr
  | literal (value : Lit)
  | reference (name : Ident)
  | call (callee : Ident) (arguments : List Expr)
  | binary (op : Operator) (lhs rhs : Expr)

/-- A statement. -/
inductive Stmt
  | block (body : List Stmt)
  /-- A variable; without a type it has its value's type. -/
  | varDecl (name : Ident) (type : Option TypeName) (value : Expr)
  | ret (value : Option Expr)
  | exprStatement (value : Expr)

/-- The variable that a statement declares in its own block. -/
def Stmt.declared? : Stmt → Option Ident
  | .varDecl name _ _ => some name
  | _ => none

/-- The variables that statements declare directly, in order. -/
def declaredNames (body : List Stmt) : List Ident := body.filterMap Stmt.declared?

theorem declaredNames_append (body rest : List Stmt) :
    declaredNames (body ++ rest) = declaredNames body ++ declaredNames rest :=
  List.filterMap_append

/-- A statement may go after others with distinct variables if it declares none of
them. -/
theorem distinctNames_declaredNames_snoc {body : List Stmt} {st : Stmt} :
    DistinctNames (declaredNames (body ++ [st])) ↔ DistinctNames (declaredNames body) ∧
      ∀ name ∈ st.declared?, ∀ n ∈ declaredNames body, n.same name = false := by
  rw [declaredNames_append]
  cases h : st.declared? with
  | none => simp [declaredNames, h]
  | some name => simp [declaredNames, h, distinctNames_append_singleton]

/-! ## Declarations -/

/-- A parameter of a function, or a field of a struct. -/
structure Param where
  type : TypeName
  name : Ident
deriving DecidableEq

/-- The name, parameters and result of a function. -/
structure Proto where
  name : Ident
  params : List Param
  variadic : Bool
  result : TypeName
deriving DecidableEq

/-- A declaration at the top level. -/
inductive Decl
  | struct (name : Ident) (fields : List Param)
  | global (type : TypeName) (name : Ident) (value : Option Lit)
  | external (attributes : List Ident) (proto : Proto)
  | function (attributes : List Ident) (proto : Proto) (body : List Stmt)

/-- The name that a declaration declares. -/
def Decl.name : Decl → Ident
  | .struct name _ => name
  | .global _ name _ => name
  | .external _ proto => proto.name
  | .function _ proto _ => proto.name

/-- The attributes of a declaration; only functions have any. -/
def Decl.attributes : Decl → List Ident
  | .external attributes _ => attributes
  | .function attributes _ _ => attributes
  | _ => []

/-- The prototype of a function, whether or not it has a body here. -/
def Decl.proto? : Decl → Option Proto
  | .external _ proto => some proto
  | .function _ proto _ => some proto
  | _ => none

/-- A module. -/
structure Module where
  name : Ident
  decls : List Decl

/-- The declaration of a name in a module. -/
def Module.item? (m : Module) (name : Ident) : Option Decl :=
  m.decls.find? fun d => d.name.same name

/-! ## Names that have to be distinct -/

mutual

/-- In every block at or below a statement, the variables declared directly in it
are distinct. -/
def Stmt.WellNamed : Stmt → Prop
  | .block body => DistinctNames (declaredNames body) ∧ StmtsWellNamed body
  | _ => True

/-- Every one of some statements is well named. -/
def StmtsWellNamed : List Stmt → Prop
  | [] => True
  | s :: rest => s.WellNamed ∧ StmtsWellNamed rest

end

theorem stmtsWellNamed_iff {body : List Stmt} :
    StmtsWellNamed body ↔ ∀ st ∈ body, st.WellNamed := by
  induction body with
  | nil => simp [StmtsWellNamed]
  | cons st rest ih => rw [StmtsWellNamed, ih, List.forall_mem_cons]

/-- The fields of a struct, the parameters of a function and the variables of each
of its blocks are distinct. -/
def Decl.WellNamed : Decl → Prop
  | .struct _ fields => DistinctNames (fields.map Param.name)
  | .global _ _ _ => True
  | .external _ proto => DistinctNames (proto.params.map Param.name)
  | .function _ proto body =>
    DistinctNames (proto.params.map Param.name) ∧ (Stmt.block body).WellNamed

/-- Declared names are distinct, and so are the names inside each declaration. -/
def Module.WellNamed (m : Module) : Prop :=
  DistinctNames (m.decls.map Decl.name) ∧ ∀ d ∈ m.decls, d.WellNamed

mutual

def Stmt.decideWellNamed : (st : Stmt) → Decidable st.WellNamed
  | .block body =>
    have := decideStmtsWellNamed body
    inferInstanceAs (Decidable (DistinctNames (declaredNames body) ∧ StmtsWellNamed body))
  | .varDecl _ _ _ => isTrue trivial
  | .ret _ => isTrue trivial
  | .exprStatement _ => isTrue trivial

def decideStmtsWellNamed : (body : List Stmt) → Decidable (StmtsWellNamed body)
  | [] => isTrue trivial
  | st :: rest =>
    have := st.decideWellNamed
    have := decideStmtsWellNamed rest
    inferInstanceAs (Decidable (st.WellNamed ∧ StmtsWellNamed rest))

end

instance (st : Stmt) : Decidable st.WellNamed := st.decideWellNamed

instance (d : Decl) : Decidable d.WellNamed :=
  match d with
  | .struct _ fields => inferInstanceAs (Decidable (DistinctNames (fields.map Param.name)))
  | .global _ _ _ => isTrue trivial
  | .external _ proto => inferInstanceAs (Decidable (DistinctNames (proto.params.map Param.name)))
  | .function _ proto body =>
    inferInstanceAs (Decidable (DistinctNames (proto.params.map Param.name) ∧
      (Stmt.block body).WellNamed))

instance (m : Module) : Decidable m.WellNamed :=
  inferInstanceAs (Decidable (DistinctNames (m.decls.map Decl.name) ∧ ∀ d ∈ m.decls, d.WellNamed))

/-! ## Induction -/

/-- Induction on expressions, with the hypothesis for each argument of a call. -/
@[induction_eliminator]
theorem Expr.induct {motive : Expr → Prop}
    (literal : ∀ value, motive (.literal value))
    (reference : ∀ name, motive (.reference name))
    (call : ∀ callee arguments, (∀ a ∈ arguments, motive a) → motive (.call callee arguments))
    (binary : ∀ op lhs rhs, motive lhs → motive rhs → motive (.binary op lhs rhs)) :
    ∀ e, motive e :=
  @Expr.rec motive (fun arguments => ∀ a ∈ arguments, motive a)
    literal reference call binary
    (by simp) (fun _ _ head tail => List.forall_mem_cons.mpr ⟨head, tail⟩)

/-- Induction on statements and lists of statements at once. -/
theorem Stmt.induct_both {motive : Stmt → Prop} {many : List Stmt → Prop}
    (block : ∀ body, many body → motive (.block body))
    (varDecl : ∀ name type value, motive (.varDecl name type value))
    (ret : ∀ value, motive (.ret value))
    (exprStatement : ∀ value, motive (.exprStatement value))
    (nil : many []) (cons : ∀ s rest, motive s → many rest → many (s :: rest)) :
    (∀ s, motive s) ∧ ∀ body, many body :=
  ⟨@Stmt.rec motive many block varDecl ret exprStatement nil cons,
    @Stmt.rec_1 motive many block varDecl ret exprStatement nil cons⟩

/-- Induction on statements, with the hypothesis for each statement of a block. -/
@[induction_eliminator]
theorem Stmt.induct {motive : Stmt → Prop}
    (block : ∀ body, (∀ s ∈ body, motive s) → motive (.block body))
    (varDecl : ∀ name type value, motive (.varDecl name type value))
    (ret : ∀ value, motive (.ret value))
    (exprStatement : ∀ value, motive (.exprStatement value)) :
    ∀ s, motive s :=
  (Stmt.induct_both block varDecl ret exprStatement (by simp)
    fun _ _ head tail => List.forall_mem_cons.mpr ⟨head, tail⟩).1

end Phrase

end FrontEnd
