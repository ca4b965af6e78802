import FrontEnd.Grammar.Production

/-!
# Expressions

An expression is made of primaries joined by binary operators.  Operators of one
precedence group by their associativity, and a tighter operator groups first; this
is decided while reading from left to right, by the least precedence that an
operator needs to be taken in.  Parentheses group and leave no node.
-/

namespace FrontEnd.Grammar

/-- The operator that a token is between two operands. -/
def operatorOf? : TokenKind → Option Operator
  | .symbol .plus => some .add
  | .symbol .minus => some .sub
  | .symbol .times => some .mul
  | .symbol .slash => some .div
  | .symbol .percent => some .mod
  | .symbol .caret => some .pow
  | .symbol .less => some .less
  | .symbol .greater => some .greater
  | _ => none

/-- The value of a literal token, negated if asked. -/
def literalOf? (negative : Bool) : Token → Option Literal
  | .integer value =>
    let signed : Int := if negative then -(value : Int) else value
    some (.int signed (.fitting signed))
  | .keyword (.truth value) => some (.bool value)
  | .character value => some (.char value)
  | _ => none

/-- An integer that may be negated, a truth value, or a character. -/
def literal : Parser NodeId := node do
  let negative ← isSymbol .minus
  if negative then
    advance
    expect .integer
  let token := (← current).value
  match literalOf? negative token with
  | some value =>
    advance
    return .literal value
  | none => fail (.expectedLiteral token.kind)

/-- Items separated by commas, after those read already; at most `n` more. -/
def commaList {α : Type} (rule : Parser α) : Nat → List α → Parser (List α)
  | 0, items => return items
  | n + 1, items => do
    let items := items ++ [← rule]
    if ← isSymbol .comma then
      advance
      commaList rule n items
    else return items

/-- Items separated by commas up to a closing symbol, which is passed. -/
def commaSeparated {α : Type} (close : Symbol) (rule : Parser α) : Parser (List α) := do
  let items ← if ← isSymbol close then pure [] else commaList rule ((← tokensAhead) + 1) []
  symbol close
  return items

/-- A call of a function by name. -/
def call (expression : Parser NodeId) : Parser NodeId := node do
  let callee ← ident
  symbol .openParen
  let arguments ← commaSeparated .closeParen expression
  return .call ⟨callee.value, arguments⟩

/-- A name used as a value. -/
def reference : Parser NodeId := node do
  return .reference (← ident).value

/-- A literal, a reference, a call or a parenthesised expression. -/
def primary (expression : Parser NodeId) : Parser NodeId := do
  match ← currentKind with
  | .integer | .character | .symbol .minus | .keyword (.truth _) => literal
  | .ident => if ← nextIsKind (.symbol .openParen) then call expression else reference
  | .symbol .openParen =>
    advance
    let inner ← expression
    symbol .closeParen
    return inner
  | found => fail (.expectedExpression found)

/-- Take in operators of at least the least precedence after an operand that started
at `start`; at most `n` of them, one inside the other. -/
def operations (operand : Parser NodeId) : Nat → Nat → Position → NodeId → Parser NodeId
  | 0, _, _, lhs => return lhs
  | n + 1, least, start, lhs => do
    match operatorOf? (← currentKind) with
    | none => return lhs
    | some op =>
      if op.precedence < least then return lhs
      advance
      let rhsStart := (← current).span.start
      let rhs ← operations operand n op.operandPrecedence rhsStart (← operand)
      let whole ← build (.binary ⟨op, lhs, rhs⟩) (some ⟨start, (← lastSpan).stop⟩)
      operations operand n least start whole

/-- Operands joined by operators. -/
def operands (operand : Parser NodeId) : Parser NodeId := do
  let start := (← current).span.start
  let first ← operand
  operations operand ((← tokensAhead) + 1) 0 start first

/-- An expression with room for `room` levels. -/
def expression : Nat → Parser NodeId
  | 0 => fail (.nestingTooDeep maxNesting)
  | room + 1 => operands (primary (expression room))

end FrontEnd.Grammar
