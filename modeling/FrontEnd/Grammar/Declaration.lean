import FrontEnd.Grammar.Statement

/-!
# Declarations and modules

A module is a list of declarations in braces.  A declaration that fails is dropped,
and reading goes on at the next token that may start a declaration at the module's
own depth, or at its closing brace.  A declaration whose name is taken is reported
and dropped too.

## Main definitions

* `declaration`: one function, external function, global or struct.
* `moduleDecl`: a module.
* `parseModule`: the module that a list of tokens is.
-/

namespace FrontEnd.Grammar

/-- A declaration that was read: its name, and the node that was added for it. -/
structure Declared where
  name : Ident
  kind : Kind
  node : NodeId
  span : Span

/-- Add the node of a production that declares a name. -/
def declaring (rule : Parser (Ident × Construct)) : Parser Declared := do
  let ⟨(name, c), span⟩ ← mapped rule
  return ⟨name, c.kind, ← build c (some span), span⟩

/-! ## Prototypes -/

/-- Arguments after those read already, up to but without the closing parenthesis; at
most `n` more. -/
def argumentList (function : Ident) : Nat → Scope → Parser ArgumentsNode
  | 0, scope => return ⟨scope, false⟩
  | n + 1, scope => do
    if ← isSymbol .ellipsis then
      advance
      return ⟨scope, true⟩
    let type ← typeRef
    let name ← ident
    match scope.insert name.value type with
    | .error _ => failAt (.duplicateArgument name.value function) name.span
    | .ok scope =>
      if ← isSymbol .comma then
        advance
        argumentList function n scope
      else return ⟨scope, false⟩

/-- The arguments of a function in parentheses. -/
def arguments (function : Ident) : Parser NodeId := node do
  symbol .openParen
  let list ← if ← isSymbol .closeParen then pure ⟨.empty, false⟩
    else argumentList function ((← tokensAhead) + 1) .empty
  symbol .closeParen
  return .arguments list

/-- A written return type, or `void` at the last token. -/
def returnType : Parser NodeId := do
  if ← isSymbol .arrow then
    advance
    typeRef
  else build (.typeRef (.known (.prim .void))) (some (← lastSpan))

/-- The name, arguments and return type of a function. -/
def prototype : Parser Declared := declaring do
  let name ← ident
  let arguments ← arguments name.value
  let returnType ← returnType
  return (name.value, .prototype ⟨name.value, arguments, returnType⟩)

/-! ## Declarations -/

/-- A function with a body. -/
def function (room : Nat) (attributes : List NodeId) : Parser Declared := declaring do
  keyword .fn
  let prototype ← prototype
  let body ← block room
  return (prototype.name, .function ⟨attributes, prototype.node, body⟩)

/-- A function that is defined elsewhere. -/
def external (attributes : List NodeId) : Parser Declared := declaring do
  keyword .external
  keyword .fn
  let prototype ← prototype
  symbol .semicolon
  return (prototype.name, .external ⟨attributes, prototype.node⟩)

/-- A global variable. -/
def global : Parser Declared := declaring do
  keyword .global
  let type ← typeRef
  let name ← ident
  let value ← if ← isSymbol .assign then
      advance
      pure (some (← literal))
    else pure none
  symbol .semicolon
  return (name.value, .global ⟨name.value, type, value⟩)

/-- Fields after those read already, up to a closing brace; at most `n` more. -/
def fields (owner : Ident) : Nat → Scope → Parser Scope
  | 0, scope => return scope
  | n + 1, scope => do
    if ← isSymbol .closeCurly then return scope
    let type ← typeRef
    let name ← ident
    symbol .semicolon
    match scope.insert name.value type with
    | .error _ => failAt (.duplicateField name.value owner) name.span
    | .ok scope => fields owner n scope

/-- A struct. -/
def struct : Parser Declared := declaring do
  keyword .struct
  let name ← ident
  symbol .openCurly
  let fields ← fields name.value ((← tokensAhead) + 1) .empty
  symbol .closeCurly
  return (name.value, .struct ⟨name.value, fields⟩)

/-- Attributes after those read already; at most `n` more. -/
def attributes : Nat → List NodeId → Parser (List NodeId)
  | 0, read => return read
  | n + 1, read => do
    if ← isSymbol .atSign then
      let one ← node do
        symbol .atSign
        return .attr (← ident).value
      attributes n (read ++ [one])
    else return read

/-- One declaration.  Only functions take attributes. -/
def declaration (room : Nat) : Parser Declared := do
  let attributes ← attributes ((← tokensAhead) + 1) []
  match ← currentKind with
  | .keyword .fn => function room attributes
  | .keyword .external => external attributes
  | found =>
    if attributes ≠ [] then fail (.unexpectedToken (.keyword .fn) found)
    else
      match found with
      | .keyword .global => global
      | .keyword .struct => struct
      | _ => fail (.noConstruct found)

/-! ## Modules -/

/-- Make a declaration an item of a module, or report that its name is taken. -/
def register (module : NodeId) (item : Declared) : Parser Unit := do
  let s ← get
  match s.store.itemNamed? module item.name with
  | some _ => record (.duplicateDefinition item.name) item.span
  | none =>
    set ((s.withStore (s.store.enlist module item.name item.node)).note
      (.declared item.name item.kind))

/-- Whether a token may start a declaration. -/
def startsDeclaration : TokenKind → Bool
  | .symbol .atSign => true
  | .keyword .fn | .keyword .external | .keyword .global | .keyword .struct => true
  | _ => false

/-- Skip to where a module of a depth may go on; how many tokens that took, after
`skipped` before, at most `n`. -/
def skipToBoundary (depth : Nat) : Nat → Nat → Parser Nat
  | 0, skipped => return skipped
  | n + 1, skipped => do
    let s ← get
    let kind := s.cursor.kind
    let atBoundary := s.depth = depth ∧
      (kind = .symbol .closeCurly ∨ startsDeclaration kind = true)
    if s.cursor.hasNext ∧ depth ≤ s.depth ∧ ¬ atBoundary then
      advance
      skipToBoundary depth n (skipped + 1)
    else return skipped

/-- Go on after a failed declaration that started at token number `start`. -/
def synchronize (start depth : Nat) : Parser Unit := do
  if (← get).cursor.position = start then advance
  let skipped ← skipToBoundary depth ((← tokensAhead) + 1) 0
  modify fun s => s.note (.resynchronized skipped)

/-- Declarations up to a closing brace, at most `n` of them; whether there was any. -/
def declarations (room : Nat) (module : NodeId) (depth : Nat) : Nat → Bool → Parser Bool
  | 0, attempted => return attempted
  | n + 1, attempted => do
    if ← isSymbol .closeCurly then return attempted
    expectMore (.symbol .closeCurly)
    let start := (← get).cursor.position
    match ← attempt (declaration room) with
    | .ok item => register module item
    | .error _ => synchronize start depth
    declarations room module depth n true

/-- A module. -/
def moduleDecl (room : Nat) : Parser NodeId := do
  let ⟨(module, name, attempted), span⟩ ← mapped do
    keyword .module
    let name ← ident
    symbol .openCurly
    let module ← build (.emptyModule name.value) none
    let attempted ← declarations room module (← get).depth ((← tokensAhead) + 1) false
    symbol .closeCurly
    return (module, name.value, attempted)
  unless attempted do record (.emptyModule name) span
  setSpan module span
  return module

/-- A module and nothing after it. -/
def unit : Parser NodeId := do
  let module ← moduleDecl maxNesting
  expect .eof
  return module

/-! ## Running -/

/-- The state before the first token. -/
def State.start (cursor : Cursor) (store : Store) (notices : Notices) : State :=
  ⟨cursor, 0, store, notices, #[]⟩

/-- What parsing leaves behind. -/
structure Parsed where
  /-- The module, or the failure of the module itself. -/
  result : Except Marker NodeId
  store : Store
  notices : Notices
  events : Array Event

/-- Read the outcome of a production that was run. -/
def Parsed.ofResult : EStateM.Result Marker State NodeId → Parsed
  | .ok module s => ⟨.ok module, s.store, s.notices, s.events⟩
  | .error marker s => ⟨.error marker, s.store, s.notices, s.events⟩

/-- Parse tokens as one module, adding to a store and to notices. -/
def parseModule (tokens : List (Located Token)) (store : Store) (notices : Notices) :
    Except Fault Parsed := do
  let cursor ← Cursor.ofTokens tokens
  return .ofResult ((unit.run none).run (.start cursor store notices))

end FrontEnd.Grammar
