import FrontEnd.Proofs.Grammar.Calls
import FrontEnd.Proofs.Grammar.Forms
import FrontEnd.Proofs.Grammar.Units
import FrontEnd.Proofs.Tree.Descent

/-!
# How deep an input goes

The room for nesting does not count operators, and both the calls of productions and the levels of
the tree grow with them.  So the depth of a module is bounded by the room and the operators
together: a tree has a level for each open block and expression, and one more for each operator.
That the room alone bounds neither is shown by powers of powers, which need no parentheses.

## Main statements

* `depth_le_room_add_operators`: what bounds calls and levels.
* `no_bound_tower`: the room alone bounds neither.
-/

namespace FrontEnd.Grammar

open Phrase Store

variable {s : Store} {root id : NodeId} {p : Option NodeId} {lo hi room n : Nat}
  {ts us : List Token} {P : NodeId → Construct → Prop}

/-- The number of operators among tokens. -/
def operators (ts : List Token) : Nat := ts.countP fun t => (operatorOf? t.kind).isSome

theorem operators_append : operators (ts ++ us) = operators ts + operators us :=
  List.countP_append

theorem operators_le (h : ts.Sublist us) : operators ts ≤ operators us := h.countP_le

theorem operators_binary {op : Operator} :
    operators (ts ++ .symbol op.symbol :: us) = operators ts + operators us + 1 := by
  have hop : operatorOf? (.symbol op.symbol) = some op := operatorOf?_eq_some_iff.mpr rfl
  rw [operators_append, Nat.add_assoc]
  simp [operators, Token.kind, hop]

/-! ## Levels of phrases -/

theorem mem_exprs {fs : List Form} {e : Expr} : e ∈ exprs fs ↔ ∃ f ∈ fs, f.expr = e := by
  induction fs with
  | nil => simp [exprs]
  | cons f rest ih => simp [exprs, ih, eq_comm]

theorem sublist_separated {fs : List Form} {f : Form} (hf : f ∈ fs) :
    f.tokens.Sublist (separated (tokenLists fs)) := by
  induction fs with
  | nil => cases hf
  | cons f' rest ih =>
    cases rest with
    | nil =>
      obtain rfl := List.mem_singleton.mp hf
      exact .refl _
    | cons f'' rest =>
      change f.tokens.Sublist (f'.tokens ++ .symbol .comma :: separated (tokenLists (f'' :: rest)))
      rcases List.mem_cons.mp hf with rfl | hf
      · exact List.sublist_append_left _ _
      · exact ((ih hf).cons _).trans (List.sublist_append_right _ _)

theorem Sequence.exists_of_mem {α : Type} {Item : List Token → α → Prop} {as : List α} {a : α}
    (h : Sequence Item ts as) (ha : a ∈ as) : ∃ us, Item us a ∧ us.Sublist ts := by
  induction h with
  | nil => cases ha
  | @cons ts us a' as hitem _ ih =>
    rcases List.mem_cons.mp ha with rfl | ha
    · exact ⟨ts, hitem, List.sublist_append_left _ _⟩
    · obtain ⟨vs, hvs, hpart⟩ := ih ha
      exact ⟨vs, hvs, hpart.trans (List.sublist_append_right _ _)⟩

section Levels

variable (hP : ∀ id c, P id c)
include hP

/-- Nodes without children are one level. -/
theorem Laid.leaves {α : Type} {construct : α → Construct} {as : List α} {ids : List NodeId}
    {n : Nat} (h : Laid (LeafAt construct s) lo hi p as ids) (hnone : ∀ a, (construct a).children = [])
    (hn : 0 < n) : ∀ child ∈ ids, Within s P n child := by
  intro child hmem
  obtain ⟨a, -, _, _, -, -, -, -, hleaf⟩ := h.exists_of_mem hmem
  exact hleaf.within_leaf (hP _ _) (hnone a) hn

/-- An expression has a level for itself, and one for each operator and for each expression that is
open in it. -/
theorem Form.levels {f : Form} (h : ExprAt s lo hi p f.expr id) :
    Within s P (f.depth + 1 + operators f.tokens) id := by
  induction f generalizing lo hi p id with
  | literal value =>
    cases h with
    | literal _ _ hn => exact hn.within_leaf (hP _ _) rfl (by omega)
  | reference name =>
    cases h with
    | reference _ _ hn => exact hn.within_leaf (hP _ _) rfl (by omega)
  | call callee arguments ih =>
    have harguments := greatestDepth_le_iff.mp (Nat.le_refl (greatestDepth arguments))
    cases h with
    | call hargs _ _ hn =>
      have hwithin := hn.within (hP _ _)
        (n := greatestDepth arguments + operators (Form.call callee arguments).tokens) ?_
      · exact hwithin.mono (by rw [Form.depth]; omega)
      intro child hmem
      obtain ⟨e, he, _, _, _, _, hat⟩ := hargs.exists_of_mem hmem
      obtain ⟨f, hf, rfl⟩ := mem_exprs.mp he
      have hdepth := harguments f hf
      have htokens : operators f.tokens ≤ operators (Form.call callee arguments).tokens := by
        refine operators_le (List.Sublist.cons _ (List.Sublist.cons _ ?_))
        exact (sublist_separated hf).trans (List.sublist_append_left _ _)
      exact (ih f hf hat).mono (by omega)
  | paren inner ih =>
    have htokens : operators inner.tokens ≤ operators (Form.paren inner).tokens :=
      operators_le ((List.sublist_append_left _ _).cons _)
    exact (ih h).mono (by rw [Form.depth]; omega)
  | binary op lhs rhs ihl ihr =>
    have htokens : operators (Form.binary op lhs rhs).tokens =
        operators lhs.tokens + operators rhs.tokens + 1 := operators_binary
    cases h with
    | binary hl hr _ _ hn =>
      have hwithin := hn.within (hP _ _)
        (n := max lhs.depth rhs.depth + 1 + (operators lhs.tokens + operators rhs.tokens)) ?_
      · exact hwithin.mono (by rw [Form.depth]; omega)
      intro child hmem
      rcases List.mem_pair.mp hmem with rfl | rfl
      · exact (ihl hl).mono (by omega)
      · exact (ihr hr).mono (by omega)

theorem ExpressionTokens.levels {e : Expr} (h : ExpressionTokens room ts e)
    (hat : ExprAt s lo hi p e id) : Within s P (room + operators ts) id := by
  obtain ⟨f, ⟨-, hdepth⟩, rfl, rfl⟩ := expressionTokens_iff.mp h
  exact (f.levels hP hat).mono (by omega)

/-- A statement has a level for itself, and those of the block or the expression in it. -/
theorem StatementTokens.levels {Block : List Token → List Stmt → Prop} {st : Stmt}
    (h : StatementTokens Block (ExpressionTokens room) ts st)
    (hblock : ∀ {ts body lo hi p id}, Block ts body → StmtAt s lo hi p (.block body) id →
      Within s P (room + operators ts + 1) id)
    (hat : StmtAt s lo hi p st id) : Within s P (room + operators ts + 1) id := by
  cases h with
  | block hbody => exact hblock hbody hat
  | @varDecl ts value name type hvalue =>
    have htokens : operators ts ≤ operators (declarator type :: .ident name :: .symbol .assign ::
        (ts ++ [.symbol .semicolon])) :=
      operators_le ((((List.sublist_append_left _ _).cons _).cons _).cons _)
    cases hat with
    | varDecl htype hat _ _ hn =>
      have htree := hvalue.levels hP hat
      have hpos : 0 < room + operators ts := by
        by_contra hzero
        rw [Nat.eq_zero_of_not_pos hzero] at htree
        exact htree
      refine (hn.within (hP _ _) (n := room + operators ts) fun child hmem => ?_).mono (by omega)
      rcases List.mem_append.mp hmem with hmem | hmem
      · exact Laid.leaves hP htype (fun _ => rfl) hpos child hmem
      · rw [List.mem_singleton.mp hmem]
        exact htree
  | retNone =>
    cases hat with
    | ret hvalue _ _ hn =>
      obtain ⟨-, rfl⟩ | ⟨_, _, hnone, -⟩ := hvalue.option_cases
      · exact hn.within_leaf (hP _ _) rfl (by omega)
      · cases hnone
  | @ret ts value hvalue =>
    have htokens : operators ts ≤ operators (.keyword .ret :: (ts ++ [.symbol .semicolon])) :=
      operators_le ((List.sublist_append_left _ _).cons _)
    cases hat with
    | ret hlaid _ _ hn =>
      refine (hn.within (hP _ _) (n := room + operators ts) fun child hmem => ?_).mono (by omega)
      obtain ⟨e, he, _, _, _, _, hat⟩ := hlaid.exists_of_mem hmem
      obtain rfl : e = value := by simpa using he
      exact hvalue.levels hP hat
  | @exprStatement ts value hvalue =>
    have htokens : operators ts ≤ operators (ts ++ [.symbol .semicolon]) :=
      operators_le (List.sublist_append_left _ _)
    cases hat with
    | exprStatement hat _ _ hn =>
      refine (hn.within (hP _ _) (n := room + operators ts) fun child hmem => ?_).mono (by omega)
      rw [List.mem_singleton.mp hmem]
      exact hvalue.levels hP hat

/-- A block has a level for each block and expression that may be open, and for each operator. -/
theorem BlockTokens.levels {body : List Stmt} (h : BlockTokens room ts body)
    (hat : StmtAt s lo hi p (.block body) id) : Within s P (room + operators ts + 1) id := by
  induction room generalizing ts body lo hi p id with
  | zero => exact h.elim
  | succ room ih =>
    obtain @⟨ts, body, hitems, -⟩ := h
    have htokens : operators ts ≤ operators (.symbol .openCurly :: (ts ++ [.symbol .closeCurly])) :=
      operators_le ((List.sublist_append_left _ _).cons _)
    cases hat with
    | block _ hbody hn =>
      have hwithin := hn.within (hP _ _) (n := room + operators ts + 1) ?_
      · exact hwithin.mono (by omega)
      intro child hmem
      obtain ⟨st, hst, _, _, _, _, hat⟩ := hbody.exists_of_mem hmem
      obtain ⟨us, hitem, hpart⟩ := hitems.exists_of_mem hst
      have hless := operators_le hpart
      exact (hitem.levels hP (fun hblock hat => ih hblock hat) hat).mono (by omega)

/-- A prototype has a level for itself, its list of parameters and their types. -/
theorem ProtoAt.levels {proto : Proto} (h : ProtoAt s lo hi p proto id) : Within s P 3 id := by
  obtain ⟨hlist, hresult, _, _, hn⟩ := h
  refine hn.within (hP _ _) fun child hmem => ?_
  rcases List.mem_pair.mp hmem with rfl | rfl
  · obtain ⟨hparams, _, _, hn⟩ := hlist
    refine hn.within (hP _ _) fun child hmem => ?_
    obtain ⟨e, he, rfl⟩ := List.mem_map.mp hmem
    exact Laid.leaves hP hparams (fun _ => rfl) (by omega) e.2 (List.of_mem_zip he).2
  · exact hresult.2.2.within_leaf (hP _ _) rfl (by omega)

/-- A declaration has a level for itself, and those of its parts. -/
theorem DeclarationTokens.levels {d : Decl} (h : DeclarationTokens room ts d) (hroom : 3 ≤ room)
    (hat : DeclAt s lo hi p d id) : Within s P (room + operators ts + 2) id := by
  cases h with
  | struct name fields _ =>
    cases hat with
    | struct hfields _ _ hn =>
      refine hn.within (hP _ _) fun child hmem => ?_
      obtain ⟨e, he, rfl⟩ := List.mem_map.mp hmem
      exact Laid.leaves hP hfields (fun _ => rfl) (by omega) e.2 (List.of_mem_zip he).2
  | global type name _ =>
    cases hat with
    | global htype hvalue _ _ hn =>
      refine hn.within (hP _ _) fun child hmem => ?_
      rcases List.mem_cons.mp hmem with rfl | hmem
      · exact htype.2.2.within_leaf (hP _ _) rfl (by omega)
      · exact Laid.leaves hP hvalue (fun _ => rfl) (by omega) child hmem
  | external attributes _ =>
    cases hat with
    | external hattributes hproto _ _ hn =>
      refine hn.within (hP _ _) fun child hmem => ?_
      rcases List.mem_append.mp hmem with hmem | hmem
      · exact Laid.leaves hP hattributes (fun _ => rfl) (by omega) child hmem
      · rw [List.mem_singleton.mp hmem]
        exact (ProtoAt.levels hP hproto).mono (by omega)
  | @function ts us proto body attributes _ hbody =>
    have htokens : operators us ≤
        operators (attributeTokens attributes ++ .keyword .fn :: (ts ++ us)) :=
      operators_le (((List.sublist_append_right _ _).cons _).trans (List.sublist_append_right _ _))
    cases hat with
    | function hattributes hproto hat _ _ hn =>
      refine hn.within (hP _ _) fun child hmem => ?_
      rcases List.mem_append.mp hmem with hmem | hmem
      · exact Laid.leaves hP hattributes (fun _ => rfl) (by omega) child hmem
      · rcases List.mem_pair.mp hmem with rfl | rfl
        · exact (ProtoAt.levels hP hproto).mono (by omega)
        · exact (hbody.levels hP hat).mono (by omega)

end Levels

/-- The levels of the tree that is read from an input. -/
theorem parseModule_levels {tokens : List (Located Token)} {store : Store} {notices : Notices}
    {parsed : Parsed} (h : parseModule tokens store notices = .ok parsed)
    (hresult : parsed.result = .ok root) :
    Within parsed.store (fun _ _ => True) (maxNesting + operators (tokens.map Located.value) + 3)
      root := by
  obtain ⟨m, ids, hm, -, hparts⟩ := parseModule_parts h hresult
  refine hm.root.within trivial fun child hmem => ?_
  obtain ⟨d, hd, _, _, _, _, hat⟩ := hm.decls.exists_of_mem hmem
  obtain ⟨ts, hts, hpart⟩ := hparts d hd
  have hless := operators_le hpart
  exact (hts.levels (fun _ _ => trivial) (by decide) hat).mono (by omega)

/-! ## Towers -/

/-- The levels below a node are one less. -/
theorem within_children {c : Construct} (h : Within s P n id) (hn : s.Has p id c) :
    ∃ m, n = m + 1 ∧ ∀ child ∈ c.children, Within s P m child := by
  cases n with
  | zero => exact h.elim
  | succ n =>
    obtain ⟨node, hget, -, hchildren⟩ := h
    obtain ⟨span, hn⟩ := hn
    obtain rfl := Option.some.inj (hget.symm.trans hn)
    exact ⟨n, rfl, hchildren⟩

/-- A tower has a level for each of its operators. -/
theorem tower_lt_of_within {k : Nat} (hat : ExprAt s lo hi p (tower k) id) (h : Within s P n id) :
    k < n := by
  induction k generalizing lo hi p id n with
  | zero =>
    cases n with
    | zero => exact h.elim
    | succ n => exact Nat.succ_pos n
  | succ k ih =>
    cases hat with
    | binary _ hright _ _ hn =>
      obtain ⟨n, rfl, hchildren⟩ := within_children h hn
      exact Nat.succ_lt_succ (ih hright (hchildren _ (by simp [Construct.children])))

/-- `module m { fn f() { 1 ^ .. ^ 1; } }` with a number of power signs. -/
def towerModule (k : Nat) : Module :=
  ⟨⟨"m"⟩, [.function [] ⟨⟨"f"⟩, [], false, .prim .void⟩ [.exprStatement (tower k)]]⟩

/-- The tokens of the body of that function. -/
def towerBlock (k : Nat) : List Token :=
  .symbol .openCurly :: (towerTokens k ++ [.symbol .semicolon, .symbol .closeCurly])

/-- The tokens of that module. -/
def towerInput (k : Nat) : List Token :=
  [.keyword .module, .ident ⟨"m"⟩, .symbol .openCurly, .keyword .fn, .ident ⟨"f"⟩,
    .symbol .openParen, .symbol .closeParen] ++ (towerBlock k ++ [.symbol .closeCurly, .eof])

theorem blockTokens_towerBlock (room k : Nat) :
    BlockTokens (room + 2) (towerBlock k) [.exprStatement (tower k)] := by
  have hitems : Sequence (StatementTokens (BlockTokens (room + 1)) (ExpressionTokens (room + 1)))
      (towerTokens k ++ [.symbol .semicolon] ++ []) [.exprStatement (tower k)] :=
    .cons (.exprStatement (expressionTokens_tower room k)) .nil
  have hblock := BraceTokens.mk hitems distinctNames_nil
  rwa [List.append_nil, List.append_assoc] at hblock

theorem moduleTokens_towerInput (k : Nat) :
    ∃ ts, ModuleTokens maxNesting ts (towerModule k) ∧ towerInput k = ts ++ [.eof] := by
  have hproto : PrototypeTokens [.ident ⟨"f"⟩, .symbol .openParen, .symbol .closeParen]
      ⟨⟨"f"⟩, [], false, .prim .void⟩ := .mk ⟨"f"⟩ .none .void
  have hdecls : Sequence (DeclarationTokens maxNesting) _ (towerModule k).decls :=
    .cons (.function [] hproto (blockTokens_towerBlock 126 k)) .nil
  refine ⟨_, .mk hdecls (show DistinctNames [⟨"f"⟩] by decide), ?_⟩
  simp [towerInput, attributeTokens, towerModule]

theorem map_towerInput (k : Nat) :
    ((towerInput k).map (fun t => Located.mk t default)).map Located.value = towerInput k := by
  simp [Function.comp_def]

/-- However high a tower is, it is read without a notice. -/
theorem exists_parsed_tower (k : Nat) : ∃ parsed root ids,
    parseModule ((towerInput k).map (⟨·, default⟩)) .empty #[] = .ok parsed ∧
      parsed.result = .ok root ∧ parsed.notices = #[] ∧
      ModuleAt parsed.store (towerModule k) root ids := by
  obtain ⟨ts, hts, hinput⟩ := moduleTokens_towerInput k
  obtain ⟨parsed, root, ids, hparse, hresult, hplaced, new, hnotices, -, hnew⟩ :=
    parseModule_of_tokens .empty #[] hts ((map_towerInput k).trans hinput)
  refine ⟨parsed, root, ids, hparse, hresult, ?_, hplaced⟩
  rw [hnew (by simp [towerModule])] at hnotices
  exact Array.toList_eq_nil_iff.mp hnotices

theorem towerModule_lt_of_within {k : Nat} {ids : List NodeId}
    (hm : ModuleAt s (towerModule k) root ids) (h : Within s P n root) : k < n := by
  obtain ⟨hroot, hdecls⟩ := hm
  obtain ⟨n, rfl, hitems⟩ := within_children h hroot
  obtain _ | ⟨hfunction, -⟩ := hdecls
  obtain _ | _ | _ | ⟨-, -, hbody, -, -, hn⟩ := hfunction
  obtain ⟨n, rfl, hparts⟩ := within_children (hitems _ List.mem_cons_self) hn
  obtain ⟨-, hstatements, hn⟩ := hbody
  obtain ⟨n, rfl, hbody⟩ := within_children (hparts _ (by simp [Construct.children])) hn
  obtain _ | ⟨hstatement, -⟩ := hstatements
  obtain _ | _ | _ | ⟨hvalue, -, -, hn⟩ := hstatement
  obtain ⟨n, rfl, hvalue'⟩ := within_children (hbody _ List.mem_cons_self) hn
  have hlt := tower_lt_of_within hvalue (hvalue' _ List.mem_cons_self)
  omega

theorem carets_towerInput (k : Nat) : carets (towerInput k) = k := by
  have htower := carets_towerTokens k
  rw [carets] at htower
  simp [towerInput, towerBlock, carets, htower]

theorem operators_towerInput (k : Nat) : operators (towerInput k) = k := by
  have htower : operators (towerTokens k) = k := by
    induction k with
    | zero => rfl
    | succ k ih =>
      have hcons : operators ([.integer 1] ++ .symbol Operator.pow.symbol :: towerTokens k) =
          operators [.integer 1] + operators (towerTokens k) + 1 :=
        operators_binary
      rw [ih] at hcons
      exact hcons.trans (congrArg (· + 1) (Nat.zero_add k))
  have hparts : towerInput k = [.keyword .module, .ident ⟨"m"⟩, .symbol .openCurly, .keyword .fn,
      .ident ⟨"f"⟩, .symbol .openParen, .symbol .closeParen, .symbol .openCurly] ++
      (towerTokens k ++ [.symbol .semicolon, .symbol .closeCurly, .symbol .closeCurly, .eof]) := by
    simp [towerInput, towerBlock]
  rw [hparts, operators_append, operators_append, htower]
  exact Nat.zero_add k

/-- The state in which the body of that function is read from the rest of the input. -/
theorem exists_state_tower (k : Nat) :
    ∃ s : State, s.Ended ∧ s.values = towerBlock k ++ [.symbol .closeCurly, .eof] := by
  let ts : List Token := towerBlock k ++ [.symbol .closeCurly, .eof]
  let tokens := ts.map fun t => Located.mk t default
  have hvalues : tokens.map Located.value = ts := by simp [tokens, Function.comp_def]
  obtain ⟨cursor, hcursor⟩ : ∃ cursor, Cursor.ofTokens tokens = .ok cursor :=
    exists_ofTokens (by rw [hvalues, List.getLast?_append_of_ne_nil _ (by simp)]; rfl)
  obtain ⟨hupcoming, -, hended⟩ := start_of_ofTokens .empty #[] hcursor
  exact ⟨_, hended, by rw [State.values, hupcoming, hvalues]⟩

/-- An input that is read without a notice, whose tree has more levels than a given number, and in
which a body is read with more calls than that. -/
theorem exists_exceeding_tower (n : Nat) : ∃ parsed root,
    parseModule ((towerInput n).map (⟨·, default⟩)) .empty #[] = .ok parsed ∧
      parsed.result = .ok root ∧ parsed.notices = #[] ∧
      ¬ Within parsed.store (fun _ _ => True) n root ∧
      ∃ s : State, s.Ended ∧ s.values <:+ towerInput n ∧
        outcome (blockWithin maxNesting n) none s ≠ outcome (block maxNesting) none s := by
  obtain ⟨parsed, root, ids, hparse, hresult, hnotices, hm⟩ := exists_parsed_tower n
  obtain ⟨s, hended, hvalues⟩ := exists_state_tower n
  refine ⟨parsed, root, hparse, hresult, hnotices, fun hlevels => ?_, s, hended, ?_, ?_⟩
  · exact Nat.lt_irrefl n (towerModule_lt_of_within hm hlevels)
  · rw [hvalues]
    exact List.suffix_append _ _
  · obtain ⟨id, s', hok, -⟩ :=
      complete_block maxNesting none (blockTokens_towerBlock 126 n) hvalues trivial
    rw [towerBlock, List.cons_append, List.append_assoc] at hvalues
    obtain ⟨marker, s₁, hfail⟩ := blockWithin_tower 126 none hvalues (Nat.le_refl n)
    rw [hok]
    exact fun heq => nomatch hfail.symm.trans heq

/-! ## What bounds the depth, and what does not -/

/-- The room for nesting and the operators bound how deep an input goes.  Wherever the body of a
function starts, seven calls for each level of room and one for each power sign are as good as any
number of calls.  And the tree that is read has no more levels than there is room for, operators,
and three for the module, the function and its body. -/
theorem depth_le_room_add_operators (tokens : List (Located Token)) :
    (∀ (s : State) around calls, s.Ended → s.values <:+ tokens.map Located.value →
      7 * maxNesting + carets (tokens.map Located.value) < calls →
      outcome (blockWithin maxNesting calls) around s = outcome (block maxNesting) around s) ∧
    ∀ store notices parsed root, parseModule tokens store notices = .ok parsed →
      parsed.result = .ok root → Within parsed.store (fun _ _ => True)
        (maxNesting + operators (tokens.map Located.value) + 3) root := by
  refine ⟨fun s around calls hs hrest hcalls => ?_, fun _ _ _ _ => parseModule_levels⟩
  have hcarets : carets s.values ≤ carets (tokens.map Located.value) := by
    rw [carets, carets]
    exact hrest.sublist.count_le _
  exact blockWithin_eq maxNesting around hs (by omega)

/-- A tower with a thousand power signs, far more than there is room for levels. -/
theorem depth_le_room_add_operators_tower :
    let tokens := (towerInput 1000).map (fun t => Located.mk t default)
    (∃ s : State, s.Ended ∧ s.values <:+ tokens.map Located.value ∧
      outcome (blockWithin maxNesting 1897) none s = outcome (block maxNesting) none s) ∧
    ∃ parsed root, parseModule tokens .empty #[] = .ok parsed ∧ parsed.result = .ok root ∧
      Within parsed.store (fun _ _ => True) 1131 root := by
  have hcalls : ∀ k, ∃ s : State, s.Ended ∧
      s.values <:+ ((towerInput k).map (fun t => Located.mk t default)).map Located.value ∧
      outcome (blockWithin maxNesting (7 * maxNesting + k + 1)) none s =
        outcome (block maxNesting) none s := by
    intro k
    obtain ⟨s, hended, hvalues⟩ := exists_state_tower k
    have hrest : s.values <:+ ((towerInput k).map (fun t => Located.mk t default)).map
        Located.value := by
      rw [hvalues, map_towerInput]
      exact List.suffix_append _ _
    refine ⟨s, hended, hrest, (depth_le_room_add_operators _).1 s none _ hended hrest ?_⟩
    rw [map_towerInput, carets_towerInput]
    omega
  have hlevels : ∀ k, ∃ parsed root,
      parseModule ((towerInput k).map (⟨·, default⟩)) .empty #[] = .ok parsed ∧
        parsed.result = .ok root ∧
        Within parsed.store (fun _ _ => True) (maxNesting + k + 3) root := by
    intro k
    obtain ⟨parsed, root, ids, hparse, hresult, -, -⟩ := exists_parsed_tower k
    have hwithin := (depth_le_room_add_operators _).2 _ _ _ _ hparse hresult
    rw [map_towerInput, operators_towerInput] at hwithin
    exact ⟨parsed, root, hparse, hresult, hwithin⟩
  exact ⟨hcalls 1000, hlevels 1000⟩

/-- A tower with a thousand power signs is read without a notice, to a tree of more than a thousand
levels and with more than a thousand calls; and nothing bounds levels or calls for all inputs. -/
theorem no_bound_tower :
    (∃ parsed root, parseModule ((towerInput 1000).map (⟨·, default⟩)) .empty #[] = .ok parsed ∧
      parsed.result = .ok root ∧ parsed.notices = #[] ∧
      ¬ Within parsed.store (fun _ _ => True) 1000 root ∧
      ∃ s : State, s.Ended ∧ s.values <:+ towerInput 1000 ∧
        outcome (blockWithin maxNesting 1000) none s ≠ outcome (block maxNesting) none s) ∧
    (¬ ∃ bound, ∀ tokens parsed root, parseModule tokens .empty #[] = .ok parsed →
      parsed.result = .ok root → Within parsed.store (fun _ _ => True) bound root) ∧
    ¬ ∃ bound, ∀ s : State, s.Ended →
      outcome (blockWithin maxNesting bound) none s = outcome (block maxNesting) none s := by
  refine ⟨exists_exceeding_tower 1000, ?_, ?_⟩
  · rintro ⟨bound, hbound⟩
    obtain ⟨parsed, root, hparse, hresult, -, hexceeds, -⟩ := exists_exceeding_tower bound
    exact hexceeds (hbound _ parsed root hparse hresult)
  · rintro ⟨bound, hbound⟩
    obtain ⟨-, -, -, -, -, -, s, hended, -, hexceeds⟩ := exists_exceeding_tower bound
    exact hexceeds (hbound s hended)

end FrontEnd.Grammar
