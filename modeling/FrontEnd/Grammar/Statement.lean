import FrontEnd.Grammar.Expression

/-!
# Statements and blocks

A block is a node before its statements are, and each statement is appended to it
once it is complete.  A variable that the block declares already fails the block.
-/

namespace FrontEnd.Grammar

/-- The type that a token names. -/
def typeOf? : Token → Option TypeRef
  | .ident name => some (.named name)
  | .keyword (.prim type) => some (.known (.prim type))
  | _ => none

/-- A primitive type, or the name of a struct. -/
def typeRef : Parser NodeId := node do
  let token := (← current).value
  match typeOf? token with
  | some type =>
    advance
    return .typeRef type
  | none => fail (.expectedType token.kind)

/-- A variable declaration, with its type or `let`. -/
def variableDecl (expression : Parser NodeId) : Parser NodeId := node do
  let type ← if ← isKind (.keyword .binding) then
      advance
      pure none
    else pure (some (← typeRef))
  let name ← ident
  symbol .assign
  let value ← expression
  symbol .semicolon
  return .varDecl ⟨name.value, type, value⟩

/-- A return, with or without a value. -/
def returnStatement (expression : Parser NodeId) : Parser NodeId := node do
  keyword .ret
  let value ← if ← isSymbol .semicolon then pure none else pure (some (← expression))
  symbol .semicolon
  return .ret value

/-- An expression for its effect. -/
def expressionStatement (expression : Parser NodeId) : Parser NodeId := node do
  let value ← expression
  symbol .semicolon
  return .exprStatement value

/-- A statement.  Two names in a row start a declaration. -/
def statement (block expression : Parser NodeId) : Parser NodeId := do
  match ← currentKind with
  | .symbol .openCurly => block
  | .keyword .ret => returnStatement expression
  | .keyword .binding | .keyword (.prim _) => variableDecl expression
  | .ident =>
    if ← nextIsKind .ident then variableDecl expression else expressionStatement expression
  | _ => expressionStatement expression

/-- Append a statement to a block, or fail if it declares a variable again. -/
def append (block statement : NodeId) : Parser Unit := do
  let s ← get
  match s.store.redeclared? block statement with
  | some (name, _) =>
    let span ← match (s.store.get? statement).bind Node.span with
      | some span => pure span
      | none => here
    failAt (.duplicateVariable name) span
  | none => set (s.withStore (s.store.extend block statement))

/-- Statements up to a closing brace; at most `n` of them. -/
def statements (rule : Parser NodeId) (block : NodeId) : Nat → Parser Unit
  | 0 => return
  | n + 1 => do
    if ← isSymbol .closeCurly then return
    append block (← rule)
    statements rule block n

/-- Statements in braces. -/
def braces (rule : Parser NodeId) : Parser NodeId := do
  let ⟨block, span⟩ ← mapped do
    symbol .openCurly
    let block ← build .emptyBlock none
    statements rule block ((← tokensAhead) + 1)
    symbol .closeCurly
    return block
  setSpan block span
  return block

/-- A block with room for `room` levels. -/
def block : Nat → Parser NodeId
  | 0 => fail (.nestingTooDeep maxNesting)
  | room + 1 => braces (statement (block room) (expression room))

end FrontEnd.Grammar
