import FrontEnd.Proofs.Grammar.Units
import FrontEnd.Proofs.Tree.Rendering

/-!
# Parsing under other names and numbers

Parsing looks at names only to compare them, and at numbers not at all.  So it does to a rendering
of the tokens, the store and the notices what it does to these, and what it adds and returns is
rendered as well.

`Renders r f p q` says that `q` does in the rendering `r` what `p` does without it, where `f` is
what becomes of the value of `p`.  One rule for each way to put productions together gives one lemma
for each production; those that take names or numbers take the rendered ones.

## Main definitions

* `Rendering.state`, `Rendering.outcome`: states and outcomes in a rendering.
* `Renders`, `Neutral`.
* `Rendering.parsed`: what parsing leaves behind, in a rendering.

## Main statements

* `parseModule_rendering`: parsing in a rendering is parsing without it, rendered.
-/

namespace FrontEnd

/-! ## Cursors and events -/

/-- An event whose names are changed. -/
def Event.rename (f : Ident → Ident) : Event → Event
  | .noticed diagnostic span => .noticed (diagnostic.rename f) span
  | .declared name kind => .declared (f name) kind
  | .registering name => .registering (f name)
  | .reusing name => .reusing (f name)
  | .bodyLowered function instructions => .bodyLowered (f function) instructions
  | .moduleLowered module functions globals => .moduleLowered (f module) functions globals
  | event => event

namespace Cursor

/-- A cursor on tokens whose names are changed. -/
def rename (f : Ident → Ident) (c : Cursor) : Cursor :=
  ⟨c.passed.map (Located.map (Token.rename f)), c.current.map (Token.rename f),
    c.ahead.map (Located.map (Token.rename f))⟩

variable (f : Ident → Ident) (c : Cursor)

theorem kind_rename : (c.rename f).kind = c.kind := Token.kind_rename f c.current.value

theorem kind_peek_rename : (c.rename f).peek.value.kind = c.peek.value.kind := by
  obtain ⟨passed, current, ahead⟩ := c
  cases ahead with
  | nil => exact Token.kind_rename f current.value
  | cons next rest => exact Token.kind_rename f next.value

theorem hasNext_rename : (c.rename f).hasNext = c.hasNext := by
  rw [hasNext, hasNext, kind_rename]

theorem position_rename : (c.rename f).position = c.position := List.length_map _

theorem lastSpan_rename : (c.rename f).lastSpan = c.lastSpan := by
  obtain ⟨passed, current, ahead⟩ := c
  cases passed <;> rfl

theorem advance_rename : (c.rename f).advance = c.advance.rename f := by
  rw [advance, advance, hasNext_rename]
  by_cases hnext : c.hasNext
  · rw [if_pos hnext, if_pos hnext]
    obtain ⟨passed, current, ahead⟩ := c
    cases ahead <;> rfl
  · rw [if_neg hnext, if_neg hnext]

/-- A cursor on renamed tokens is there exactly if one on the tokens is. -/
theorem ofTokens_rename (tokens : List (Located Token)) :
    ofTokens (tokens.map (Located.map (Token.rename f))) = (ofTokens tokens).map (rename f) := by
  cases tokens with
  | nil => rfl
  | cons first rest =>
    have heof : ∀ t : Token, t.rename f = .eof ↔ t = .eof := by
      intro t
      cases t <;> simp [Token.rename]
    have hlast : (((first :: rest).map (Located.map (Token.rename f))).getLast (by simp)).value =
        ((first :: rest).getLast (List.cons_ne_nil first rest)).value.rename f := by
      rw [List.getLast_map]
      rfl
    simp only [List.map_cons] at hlast
    simp only [List.map_cons, ofTokens, hlast, heof]
    split <;> rfl

end Cursor

/-! ## States and outcomes -/

namespace Rendering

open Grammar

variable (r : Rendering)

/-- A token in a rendering. -/
def token : Located Token → Located Token := Located.map (Token.rename r.name)

/-- A failure in a rendering. -/
def marker (m : Marker) : Marker := ⟨r.notice m.notice⟩

/-- A declaration in a rendering. -/
def declared (d : Declared) : Declared :=
  { d with name := r.name d.name, node := r.node d.node }

/-- A state in a rendering. -/
def state (s : State) : State where
  cursor := s.cursor.rename r.name
  depth := s.depth
  store := r.store s.store
  notices := r.notices s.notices
  events := s.events.map (Event.rename r.name)

/-- An outcome in a rendering, where `f` says what becomes of its value. -/
def outcome {α : Type} (f : α → α) : EStateM.Result Marker State α → EStateM.Result Marker State α
  | .ok a s => .ok (f a) (r.state s)
  | .error m s => .error (r.marker m) (r.state s)

theorem state_record (s : State) (d : Diagnostic) (span : Span) :
    (r.state s).record (d.rename r.name) span = r.state (s.record d span) := by
  simp only [state, State.record, ← Notice.rename_of, r.push_notices, Array.map_push]
  rfl

theorem state_note (s : State) (event : Event) :
    (r.state s).note (event.rename r.name) = r.state (s.note event) := by
  simp [state, State.note]

theorem state_advance (s : State) : (r.state s).advance = r.state s.advance := by
  have hdepth : ∀ t : Token, depthAfter (t.rename r.name) s.depth = depthAfter t s.depth := by
    intro t
    cases t <;> rfl
  have hcurrent : depthAfter (r.state s).cursor.current.value (r.state s).depth =
      depthAfter s.cursor.current.value s.depth := hdepth _
  rw [State.advance, hcurrent]
  simp only [state, Cursor.advance_rename]
  rfl

end Rendering

namespace Grammar

/-- A production does in a rendering what another one does without it. -/
def Renders {α : Type} (r : Rendering) (f : α → α) (p q : Parser α) : Prop :=
  ∀ around s, outcome q around (r.state s) = r.outcome f (outcome p around s)

/-- A production does the same in a rendering, and its value does not depend on it. -/
def Neutral {α : Type} (r : Rendering) (p : Parser α) : Prop := Renders r id p p

section Rules

variable {α β : Type} {r : Rendering} {f : α → α} {h : β → β} {p q : Parser α}
  {x y : α → Parser β}

theorem renders_pure (a : α) : Renders r f (pure a) (pure (f a)) := fun _ _ => rfl

theorem Renders.bind (hpq : Renders r f p q) (hxy : ∀ a, Renders r h (x a) (y (f a))) :
    Renders r h (p >>= x) (q >>= y) := by
  intro around s
  have hfirst := hpq around s
  cases hrun : outcome p around s with
  | ok a s₁ =>
    rw [hrun] at hfirst
    rw [bind_of_ok hrun, bind_of_ok hfirst]
    exact hxy a around s₁
  | error m s₁ =>
    rw [hrun] at hfirst
    rw [bind_of_error hrun, bind_of_error hfirst]
    rfl

theorem Neutral.bind (hp : Neutral r p) (hxy : ∀ a, Renders r h (x a) (y a)) :
    Renders r h (p >>= x) (p >>= y) :=
  Renders.bind hp hxy

theorem renders_ite {c : Prop} [Decidable c] {p' q' : Parser α} (hpq : Renders r f p q)
    (hpq' : Renders r f p' q') : Renders r f (if c then p else p') (if c then q else q') := by
  split
  · exact hpq
  · exact hpq'

theorem renders_get : Renders r r.state get get := fun _ _ => rfl

theorem renders_current : Renders r r.token current current := fun _ _ => rfl

theorem neutral_currentKind : Neutral r currentKind := by
  intro around s
  exact congrArg (EStateM.Result.ok · (r.state s)) (s.cursor.kind_rename r.name)

theorem neutral_isKind (kind : TokenKind) : Neutral r (isKind kind) :=
  neutral_currentKind.bind fun _ => renders_pure _

theorem neutral_isSymbol (sign : Symbol) : Neutral r (isSymbol sign) := neutral_isKind _

theorem neutral_nextIsKind (kind : TokenKind) : Neutral r (nextIsKind kind) := by
  intro around s
  have hkind := s.cursor.kind_peek_rename r.name
  exact congrArg (fun found => EStateM.Result.ok (decide (found = kind)) (r.state s)) hkind

theorem neutral_tokensAhead : Neutral r tokensAhead := by
  intro around s
  exact congrArg (EStateM.Result.ok · (r.state s)) (List.length_map _)

theorem neutral_lastSpan : Neutral r lastSpan := by
  intro around s
  exact congrArg (EStateM.Result.ok · (r.state s)) (s.cursor.lastSpan_rename r.name)

theorem neutral_advance : Neutral r advance := by
  intro around s
  exact congrArg (EStateM.Result.ok ()) (r.state_advance s)

/-- A failure names its notice by its number in the rendering. -/
theorem renders_failAt (d : Diagnostic) (span : Span) :
    Renders r f (failAt d span) (failAt (d.rename r.name) span) := by
  intro around s
  have hmarker : (⟨(r.state s).notices.size⟩ : Marker) = r.marker ⟨s.notices.size⟩ :=
    congrArg Marker.mk (r.size_notices s.notices)
  change EStateM.Result.error (⟨(r.state s).notices.size⟩ : Marker)
    ((r.state s).record (d.rename r.name) span) = _
  rw [r.state_record, hmarker]
  rfl

theorem renders_fail (d : Diagnostic) : Renders r f (fail d) (fail (d.rename r.name)) := by
  have hhere : Neutral r here := fun around _ => by cases around <;> rfl
  exact hhere.bind fun span => renders_failAt d span

theorem neutral_expect (kind : TokenKind) : Neutral r (expect kind) := by
  refine neutral_currentKind.bind fun found => ?_
  split
  · exact renders_pure _
  · exact renders_fail (.unexpectedToken kind found)

theorem neutral_skipOver (kind : TokenKind) : Neutral r (skipOver kind) :=
  (neutral_expect kind).bind fun _ => neutral_advance

theorem renders_ident : Renders r (Located.map r.name) ident ident := by
  refine renders_current.bind fun token => ?_
  obtain ⟨value, span⟩ := token
  cases value with
  | ident name => exact neutral_advance.bind fun _ => renders_pure (⟨name, span⟩ : Located Ident)
  | _ => exact renders_fail (.unexpectedToken .ident _)

theorem neutral_expectMore (kind : TokenKind) : Neutral r (expectMore kind) := by
  refine renders_get.bind fun s => ?_
  rw [show (r.state s).cursor.hasNext = s.cursor.hasNext from s.cursor.hasNext_rename r.name]
  exact renders_ite (renders_pure _) (neutral_expect kind)

theorem renders_record (d : Diagnostic) (span : Span) :
    Renders r id (record d span) (record (d.rename r.name) span) := by
  intro around s
  exact congrArg (EStateM.Result.ok ()) (r.state_record s d span)

/-- What comes after an attempt goes by its success or its failure. -/
theorem Renders.attempt_bind {x y : Except Marker α → Parser β} (hpq : Renders r f p q)
    (hok : ∀ a, Renders r h (x (.ok a)) (y (.ok (f a))))
    (herror : ∀ m, Renders r h (x (.error m)) (y (.error (r.marker m)))) :
    Renders r h (attempt p >>= x) (attempt q >>= y) := by
  intro around s
  rw [Grammar.attempt_bind, Grammar.attempt_bind, hpq]
  cases outcome p around s with
  | ok a s₁ => exact hok a around s₁
  | error m s₁ => exact herror m around s₁

/-- A production with its span. -/
theorem renders_mapped (hpq : Renders r f p q) :
    Renders r (Located.map f) (mapped p) (mapped q) := by
  refine renders_current.bind fun token => ?_
  have hinner : Renders r f (withReader (fun _ => some token.span.start) p)
      (withReader (fun _ => some token.span.start) q) :=
    fun _ s => hpq (some token.span.start) s
  exact hinner.bind fun a => neutral_lastSpan.bind fun span =>
    renders_pure (⟨a, _, span.stop⟩ : Located α)

theorem renders_build (c : Construct) (span : Option Span) :
    Renders r r.node (build c span) (build (r.construct c) span) := by
  intro around s
  change EStateM.Result.ok ((r.state s).store.build (r.construct c) span).1
    ((r.state s).withStore ((r.state s).store.build (r.construct c) span).2) = _
  rw [show (r.state s).store.build (r.construct c) span = _ from r.build_store s.store c span]
  rfl

theorem renders_setSpan (node : NodeId) (span : Span) :
    Renders r id (setSpan node span) (setSpan (r.node node) span) := by
  intro around s
  change EStateM.Result.ok ()
    ((r.state s).withStore ((r.state s).store.setSpan (r.node node) span)) = _
  rw [show (r.state s).store.setSpan (r.node node) span = _ from r.setSpan_store s.store node span]
  rfl

theorem renders_node {rule rule' : Parser Construct} (hrule : Renders r r.construct rule rule') :
    Renders r r.node (node rule) (node rule') :=
  (renders_mapped hrule).bind fun c => renders_build c.value (some c.span)

theorem renders_declaring {rule rule' : Parser (Ident × Construct)}
    (hrule : Renders r (fun d => (r.name d.1, r.construct d.2)) rule rule') :
    Renders r r.declared (declaring rule) (declaring rule') := by
  refine (renders_mapped hrule).bind fun d => (renders_build d.value.2 (some d.span)).bind
    fun node => ?_
  have hkind : (r.construct d.value.2).kind = d.value.2.kind := Construct.kind_relabel _ _
  change Renders r r.declared (pure ⟨_, d.value.2.kind, _, _⟩)
    (pure ⟨_, (r.construct _).kind, _, _⟩)
  rw [hkind]
  exact renders_pure (⟨d.value.1, d.value.2.kind, node, d.span⟩ : Declared)

end Rules

/-! ## Expressions -/

section Productions

variable {r : Rendering}

theorem literalOf?_rename (f : Ident → Ident) (negative : Bool) (t : Token) :
    literalOf? negative (t.rename f) = literalOf? negative t := by
  cases t <;> rfl

theorem renders_literal : Renders r r.node literal literal := by
  refine renders_node ((neutral_isSymbol .minus).bind fun negative => renders_ite
    (neutral_advance.bind fun _ => (neutral_expect .integer).bind fun _ => ?_) ?_)
  all_goals
    refine renders_current.bind fun token => ?_
    dsimp only [Rendering.token, Located.map]
    rw [literalOf?_rename, Token.kind_rename]
    split
    · exact neutral_advance.bind fun _ => renders_pure (Construct.literal _)
    · exact renders_fail (.expectedLiteral token.value.kind)

theorem renders_commaList {α : Type} {f : α → α} {rule rule' : Parser α}
    (h : Renders r f rule rule') (n : Nat) (items : List α) :
    Renders r (List.map f) (commaList rule n items) (commaList rule' n (items.map f)) := by
  induction n generalizing items with
  | zero => exact renders_pure items
  | succ n ih =>
    refine h.bind fun item => (neutral_isSymbol .comma).bind fun more => ?_
    have hitems : items.map f ++ [f item] = (items ++ [item]).map f := by simp
    rw [hitems]
    split
    · exact neutral_advance.bind fun _ => ih (items ++ [item])
    · exact renders_pure _

theorem renders_commaSeparated {α : Type} {f : α → α} {rule rule' : Parser α}
    (h : Renders r f rule rule') (close : Symbol) :
    Renders r (List.map f) (commaSeparated close rule) (commaSeparated close rule') := by
  refine (neutral_isSymbol close).bind fun closed => renders_ite ?_
    (neutral_tokensAhead.bind fun n => (renders_commaList h (n + 1) []).bind fun items => ?_)
  all_goals exact (neutral_skipOver _).bind fun _ => renders_pure _

section Expressions

variable {expression expression' : Parser NodeId} (h : Renders r r.node expression expression')
include h

theorem renders_call : Renders r r.node (call expression) (call expression') := by
  refine renders_node (renders_ident.bind fun callee => (neutral_skipOver _).bind fun _ => ?_)
  exact (renders_commaSeparated h .closeParen).bind fun arguments =>
    renders_pure (Construct.call ⟨callee.value, arguments⟩)

theorem renders_primary : Renders r r.node (primary expression) (primary expression') := by
  refine neutral_currentKind.bind fun kind => ?_
  split
  · exact renders_literal
  · exact renders_literal
  · exact renders_literal
  · exact renders_literal
  · refine (neutral_nextIsKind _).bind fun opened => ?_
    split
    · exact renders_call h
    · exact renders_node (renders_ident.bind fun name =>
        renders_pure (Construct.reference name.value))
  · exact neutral_advance.bind fun _ => h.bind fun inner => (neutral_skipOver _).bind fun _ =>
      renders_pure inner
  · exact renders_fail _

end Expressions

theorem renders_operations {operand operand' : Parser NodeId}
    (h : Renders r r.node operand operand') (n least : Nat) (start : Position) (lhs : NodeId) :
    Renders r r.node (operations operand n least start lhs)
      (operations operand' n least start (r.node lhs)) := by
  induction n generalizing least start lhs with
  | zero => exact renders_pure lhs
  | succ n ih =>
    refine neutral_currentKind.bind fun kind => ?_
    split
    · exact renders_pure lhs
    · split
      · exact renders_pure lhs
      · refine neutral_advance.bind fun _ => renders_current.bind fun token =>
          h.bind fun first => ?_
        refine (ih _ _ first).bind fun rhs => neutral_lastSpan.bind fun last => ?_
        exact (renders_build (.binary ⟨_, lhs, rhs⟩) _).bind fun whole => ih _ _ whole

theorem renders_expression (room : Nat) : Renders r r.node (expression room) (expression room) := by
  induction room with
  | zero => exact renders_fail _
  | succ room ih =>
    refine renders_current.bind fun token => (renders_primary ih).bind fun first => ?_
    exact neutral_tokensAhead.bind fun n =>
      renders_operations (renders_primary ih) (n + 1) 0 _ first

/-! ## Statements -/

/-- A written type holds the name in the rendering. -/
theorem typeOf?_rename (l : Relabelling) (t : Token) :
    typeOf? (t.rename l.name) = (typeOf? t).map (TypeRef.relabel l) := by
  cases t with
  | keyword word => cases word <;> rfl
  | _ => rfl

theorem renders_typeRef : Renders r r.node typeRef typeRef := by
  refine renders_node (renders_current.bind fun token => ?_)
  dsimp only [Rendering.token, Located.map]
  rw [typeOf?_rename r.toRelabelling, Token.kind_rename]
  cases typeOf? token.value with
  | some type => exact neutral_advance.bind fun _ => renders_pure (Construct.typeRef type)
  | none => exact renders_fail (.expectedType token.value.kind)

section Statements

variable {block block' expression expression' : Parser NodeId}
  (h : Renders r r.node expression expression')
include h

theorem renders_variableDecl : Renders r r.node (variableDecl expression)
    (variableDecl expression') := by
  refine renders_node ((neutral_isKind _).bind fun inferred => renders_ite
    (neutral_advance.bind fun _ => ?_) (renders_typeRef.bind fun type => ?_))
  all_goals
    exact renders_ident.bind fun name => (neutral_skipOver _).bind fun _ =>
      h.bind fun value => (neutral_skipOver _).bind fun _ => renders_pure (Construct.varDecl _)

theorem renders_returnStatement : Renders r r.node (returnStatement expression)
    (returnStatement expression') := by
  refine renders_node ((neutral_skipOver _).bind fun _ => (neutral_isSymbol _).bind fun empty =>
    renders_ite ?_ (h.bind fun value => ?_))
  all_goals exact (neutral_skipOver _).bind fun _ => renders_pure (Construct.ret _)

theorem renders_expressionStatement : Renders r r.node (expressionStatement expression)
    (expressionStatement expression') :=
  renders_node (h.bind fun value => (neutral_skipOver _).bind fun _ =>
    renders_pure (Construct.exprStatement value))

theorem renders_statement (hblock : Renders r r.node block block') :
    Renders r r.node (statement block expression) (statement block' expression') := by
  refine neutral_currentKind.bind fun kind => ?_
  split
  · exact hblock
  · exact renders_returnStatement h
  · exact renders_variableDecl h
  · exact renders_variableDecl h
  · refine (neutral_nextIsKind _).bind fun typed => ?_
    split
    · exact renders_variableDecl h
    · exact renders_expressionStatement h
  · exact renders_expressionStatement h

end Statements

theorem renders_append (block statement : NodeId) :
    Renders r id (append block statement) (append (r.node block) (r.node statement)) := by
  intro around s
  have hredeclared : (r.state s).store.redeclared? (r.node block) (r.node statement) = _ :=
    r.redeclared?_store s.store block statement
  have hspan : ((r.state s).store.get? (r.node statement)).bind Node.span = _ :=
    r.span_store s.store statement
  have hextend : (r.state s).store.extend (r.node block) (r.node statement) = _ :=
    r.extend_store s.store block statement
  rw [append, append, get_bind, get_bind, hredeclared]
  cases s.store.redeclared? block statement with
  | none =>
    dsimp only [Option.map_none]
    rw [hextend]
    rfl
  | some found =>
    dsimp only [Option.map_some]
    rw [hspan]
    cases (s.store.get? statement).bind Node.span with
    | some span => exact renders_failAt (.duplicateVariable found.1) span around s
    | none => exact renders_fail (.duplicateVariable found.1) around s

theorem renders_statements {rule rule' : Parser NodeId} (h : Renders r r.node rule rule')
    (block : NodeId) (n : Nat) :
    Renders r id (statements rule block n) (statements rule' (r.node block) n) := by
  induction n with
  | zero => exact renders_pure ()
  | succ n ih =>
    refine (neutral_isSymbol _).bind fun closed => ?_
    split
    · exact renders_pure ()
    · exact h.bind fun statement => (renders_append block statement).bind fun _ => ih

theorem renders_braces {rule rule' : Parser NodeId} (h : Renders r r.node rule rule') :
    Renders r r.node (braces rule) (braces rule') := by
  refine (renders_mapped (f := r.node) ?_).bind fun d =>
    (renders_setSpan d.value d.span).bind fun _ => renders_pure d.value
  refine (neutral_skipOver _).bind fun _ => (renders_build .emptyBlock none).bind fun block => ?_
  exact neutral_tokensAhead.bind fun n => (renders_statements h block (n + 1)).bind fun _ =>
    (neutral_skipOver _).bind fun _ => renders_pure block

theorem renders_block (room : Nat) : Renders r r.node (block room) (block room) := by
  induction room with
  | zero => exact renders_fail _
  | succ room ih => exact renders_braces (renders_statement (renders_expression room) ih)

/-! ## Declarations -/

theorem renders_argumentList (function : Ident) (n : Nat) (scope : Scope) :
    Renders r (fun list => ⟨r.scope list.scope, list.variadic⟩) (argumentList function n scope)
      (argumentList (r.name function) n (r.scope scope)) := by
  induction n generalizing scope with
  | zero => exact renders_pure (⟨scope, false⟩ : ArgumentsNode)
  | succ n ih =>
    refine (neutral_isSymbol _).bind fun variadic => ?_
    split
    · exact neutral_advance.bind fun _ => renders_pure (⟨scope, true⟩ : ArgumentsNode)
    · refine renders_typeRef.bind fun type => renders_ident.bind fun name => ?_
      dsimp only [Rendering.scope, Located.map]
      rw [Scope.insert_relabel]
      cases scope.insert name.value type with
      | error existing => exact renders_failAt (.duplicateArgument name.value function) name.span
      | ok longer =>
        refine (neutral_isSymbol _).bind fun more => ?_
        split
        · exact neutral_advance.bind fun _ => ih longer
        · exact renders_pure (⟨longer, false⟩ : ArgumentsNode)

theorem renders_arguments (function : Ident) :
    Renders r r.node (arguments function) (arguments (r.name function)) := by
  refine renders_node ((neutral_skipOver _).bind fun _ => (neutral_isSymbol _).bind fun empty =>
    renders_ite ?_ (neutral_tokensAhead.bind fun n =>
      (renders_argumentList function (n + 1) .empty).bind fun list => ?_))
  all_goals exact (neutral_skipOver _).bind fun _ => renders_pure (Construct.arguments _)

theorem renders_returnType : Renders r r.node returnType returnType := by
  refine (neutral_isSymbol _).bind fun written => ?_
  split
  · exact neutral_advance.bind fun _ => renders_typeRef
  · exact neutral_lastSpan.bind fun span =>
      renders_build (.typeRef (.known (.prim .void))) (some span)

theorem renders_prototype : Renders r r.declared prototype prototype := by
  refine renders_declaring (renders_ident.bind fun name => ?_)
  refine (renders_arguments name.value).bind fun arguments => renders_returnType.bind
    fun returnType => ?_
  exact renders_pure (name.value, Construct.prototype ⟨name.value, arguments, returnType⟩)

theorem renders_function (room : Nat) (attributes : List NodeId) :
    Renders r r.declared (function room attributes) (function room (attributes.map r.node)) :=
  renders_declaring ((neutral_skipOver _).bind fun _ => renders_prototype.bind fun prototype =>
    (renders_block room).bind fun body =>
      renders_pure (prototype.name, Construct.function ⟨attributes, prototype.node, body⟩))

theorem renders_external (attributes : List NodeId) :
    Renders r r.declared (external attributes) (external (attributes.map r.node)) :=
  renders_declaring ((neutral_skipOver _).bind fun _ => (neutral_skipOver _).bind fun _ =>
    renders_prototype.bind fun prototype => (neutral_skipOver _).bind fun _ =>
      renders_pure (prototype.name, Construct.external ⟨attributes, prototype.node⟩))

theorem renders_global : Renders r r.declared global global := by
  refine renders_declaring ((neutral_skipOver _).bind fun _ => renders_typeRef.bind fun type =>
    renders_ident.bind fun name => (neutral_isSymbol _).bind fun assigned => renders_ite
      (neutral_advance.bind fun _ => renders_literal.bind fun value => ?_) ?_)
  all_goals exact (neutral_skipOver _).bind fun _ => renders_pure (name.value, Construct.global _)

theorem renders_fields (owner : Ident) (n : Nat) (scope : Scope) :
    Renders r r.scope (fields owner n scope) (fields (r.name owner) n (r.scope scope)) := by
  induction n generalizing scope with
  | zero => exact renders_pure scope
  | succ n ih =>
    refine (neutral_isSymbol _).bind fun closed => ?_
    split
    · exact renders_pure scope
    · refine renders_typeRef.bind fun type => renders_ident.bind fun name =>
        (neutral_skipOver _).bind fun _ => ?_
      dsimp only [Rendering.scope, Located.map]
      rw [Scope.insert_relabel]
      cases scope.insert name.value type with
      | error existing => exact renders_failAt (.duplicateField name.value owner) name.span
      | ok longer => exact ih longer

theorem renders_struct : Renders r r.declared struct struct := by
  refine renders_declaring ((neutral_skipOver _).bind fun _ => renders_ident.bind fun name =>
    (neutral_skipOver _).bind fun _ => neutral_tokensAhead.bind fun n => ?_)
  refine (renders_fields name.value (n + 1) .empty).bind fun fields =>
    (neutral_skipOver _).bind fun _ => ?_
  exact renders_pure (name.value, Construct.struct ⟨name.value, fields⟩)

theorem renders_attributes (n : Nat) (read : List NodeId) :
    Renders r (List.map r.node) (attributes n read) (attributes n (read.map r.node)) := by
  induction n generalizing read with
  | zero => exact renders_pure read
  | succ n ih =>
    refine (neutral_isSymbol _).bind fun present => ?_
    split
    · have hone : Renders r r.node (node do symbol .atSign; return .attr (← ident).value)
          (node do symbol .atSign; return .attr (← ident).value) :=
        renders_node ((neutral_skipOver _).bind fun _ => renders_ident.bind fun name =>
          renders_pure (Construct.attr name.value))
      refine hone.bind fun one => ?_
      have hread : read.map r.node ++ [r.node one] = (read ++ [one]).map r.node := by simp
      rw [hread]
      exact ih (read ++ [one])
    · exact renders_pure read

theorem renders_declaration (room : Nat) :
    Renders r r.declared (declaration room) (declaration room) := by
  refine neutral_tokensAhead.bind fun n => (renders_attributes (n + 1) []).bind
    fun attributes => neutral_currentKind.bind fun found => ?_
  split
  · exact renders_function room attributes
  · exact renders_external attributes
  · simp only [ne_eq, List.map_eq_nil_iff]
    split
    · exact renders_fail _
    · split
      · exact renders_global
      · exact renders_struct
      · exact renders_fail _

/-! ## Modules -/

theorem renders_register (root : NodeId) (item : Declared) :
    Renders r id (register root item) (register (r.node root) (r.declared item)) := by
  intro around s
  have hitem : (r.state s).store.itemNamed? (r.node root) (r.name item.name) = _ :=
    r.itemNamed?_store s.store root item.name
  have henlist : (r.state s).store.enlist (r.node root) (r.name item.name) (r.node item.node) = _ :=
    r.enlist_store s.store root item.node item.name
  rw [register, register, get_bind, get_bind]
  dsimp only [Rendering.declared]
  rw [hitem]
  cases s.store.itemNamed? root item.name with
  | none =>
    dsimp only [Option.map_none]
    rw [henlist]
    exact congrArg (EStateM.Result.ok ()) (r.state_note
      (s.withStore (s.store.enlist root item.name item.node)) (.declared item.name item.kind))
  | some found => exact renders_record (.duplicateDefinition item.name) item.span around s

theorem neutral_skipToBoundary (depth n skipped : Nat) :
    Neutral r (skipToBoundary depth n skipped) := by
  induction n generalizing skipped with
  | zero => exact renders_pure _
  | succ n ih =>
    refine renders_get.bind fun s => ?_
    dsimp only [Rendering.state]
    rw [Cursor.kind_rename, Cursor.hasNext_rename]
    exact renders_ite (neutral_advance.bind fun _ => ih (skipped + 1)) (renders_pure _)

theorem neutral_synchronize (start depth : Nat) : Neutral r (synchronize start depth) := by
  refine renders_get.bind fun s => ?_
  dsimp only [Rendering.state]
  rw [Cursor.position_rename]
  refine renders_ite (neutral_advance.bind fun _ => ?_) ?_
  all_goals
    refine neutral_tokensAhead.bind fun n => (neutral_skipToBoundary depth (n + 1) 0).bind
      fun skipped around s => ?_
    exact congrArg (EStateM.Result.ok ()) (r.state_note s (.resynchronized skipped))

theorem renders_declarations (room : Nat) (root : NodeId) (depth n : Nat) (attempted : Bool) :
    Renders r id (declarations room root depth n attempted)
      (declarations room (r.node root) depth n attempted) := by
  induction n generalizing attempted with
  | zero => exact renders_pure _
  | succ n ih =>
    refine (neutral_isSymbol _).bind fun closed => ?_
    split
    · exact renders_pure _
    · refine (neutral_expectMore _).bind fun _ => renders_get.bind fun s => ?_
      dsimp only [Rendering.state]
      rw [Cursor.position_rename]
      refine (renders_declaration room).attempt_bind (fun item => ?_) fun marker => ?_
      · exact (renders_register root item).bind fun _ => ih true
      · exact (neutral_synchronize _ depth).bind fun _ => ih true

theorem renders_moduleDecl (room : Nat) :
    Renders r r.node (moduleDecl room) (moduleDecl room) := by
  refine (renders_mapped (f := fun d => (r.node d.1, r.name d.2.1, d.2.2)) ?_).bind fun d =>
    renders_ite ?_ ((renders_record (.emptyModule d.value.2.1) d.span).bind fun _ => ?_)
  · refine (neutral_skipOver _).bind fun _ => renders_ident.bind fun name =>
      (neutral_skipOver _).bind fun _ => (renders_build (.emptyModule name.value) none).bind
        fun root => renders_get.bind fun s => neutral_tokensAhead.bind fun n => ?_
    exact (renders_declarations room root s.depth (n + 1) false).bind fun attempted =>
      (neutral_skipOver _).bind fun _ => renders_pure (root, name.value, attempted)
  all_goals exact (renders_setSpan d.value.1 d.span).bind fun _ => renders_pure d.value.1

theorem renders_unit : Renders r r.node unit unit :=
  (renders_moduleDecl maxNesting).bind fun root => (neutral_expect .eof).bind fun _ =>
    renders_pure root

end Productions

/-! ## Parsing -/

end Grammar

/-- What parsing leaves behind, in a rendering. -/
def Rendering.parsed (r : Rendering) (parsed : Grammar.Parsed) : Grammar.Parsed where
  result := match parsed.result with
    | .ok root => .ok (r.node root)
    | .error m => .error (r.marker m)
  store := r.store parsed.store
  notices := r.notices parsed.notices
  events := parsed.events.map (Event.rename r.name)

/-- **Parsing in a rendering** is parsing without it, rendered. -/
theorem Grammar.parseModule_rendering (r : Rendering) (tokens : List (Located Token))
    (store : Store) (notices : Notices) :
    parseModule (tokens.map r.token) (r.store store) (r.notices notices) =
      (parseModule tokens store notices).map r.parsed := by
  have hcursor : Cursor.ofTokens (tokens.map r.token) = _ := Cursor.ofTokens_rename r.name tokens
  cases hrun : Cursor.ofTokens tokens with
  | error f =>
    rw [hrun] at hcursor
    rw [parseModule, parseModule, hrun]
    exact congrArg (· >>= _) hcursor
  | ok cursor =>
    rw [hrun] at hcursor
    have hstart : State.start (cursor.rename r.name) (r.store store) (r.notices notices) =
        r.state (.start cursor store notices) := by
      simp [State.start, Rendering.state]
    rw [parseModule_eq hrun, parseModule_eq hcursor, hstart, renders_unit]
    cases outcome unit none (.start cursor store notices) <;> rfl

end FrontEnd
