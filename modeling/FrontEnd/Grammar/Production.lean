import FrontEnd.Grammar.Cursor
import FrontEnd.Report.Event
import FrontEnd.Tree.Block

/-!
# Productions

A production reads tokens from a cursor, adds nodes to a store, and either succeeds
or fails.  A failure has always recorded a notice first, and names it.  Nodes and
notices of a failed production stay.

Notices span from the start of the innermost production in progress to the current
token; that start is the environment of a production.

How deep productions may still nest is an argument of those that can contain
themselves, and goes down by one at each level.

## Main definitions

* `expect`, `skipOver`: demand a token.
* `mapped`: a production together with the span of the tokens it read.
* `nested`: a production one level deeper.
* `node`: a production that adds one node.
-/

namespace FrontEnd.Grammar

/-- The failure of a production, by the number of its notice. -/
structure Marker where
  notice : Nat
deriving DecidableEq

/-- What productions read and change. -/
structure State where
  cursor : Cursor
  /-- Braces opened and not yet closed by the tokens passed. -/
  depth : Nat
  store : Store
  notices : Notices
  events : Array Event

/-- The depth after a token. -/
def depthAfter (token : Token) (depth : Nat) : Nat :=
  match token with
  | .symbol .openCurly => depth + 1
  | .symbol .closeCurly => depth - 1
  | _ => depth

namespace State

/-- Pass the current token. -/
def advance (s : State) : State :=
  { s with cursor := s.cursor.advance, depth := depthAfter s.cursor.current.value s.depth }

/-- Record a notice. -/
def record (s : State) (diagnostic : Diagnostic) (span : Span) : State :=
  { s with
    notices := s.notices.push (.of diagnostic span)
    events := s.events.push (.noticed diagnostic span) }

/-- Note an event. -/
def note (s : State) (event : Event) : State := { s with events := s.events.push event }

/-- Put another store in place. -/
def withStore (s : State) (store : Store) : State := { s with store }

end State

/-- A production, run from the start of the production around it. -/
abbrev Parser := ReaderT (Option Position) (EStateM Marker State)

/-! ## Looking -/

/-- The current token. -/
def current : Parser (Located Token) := return (← get).cursor.current

/-- The kind of the current token. -/
def currentKind : Parser TokenKind := return (← get).cursor.kind

/-- Whether the current token is of a kind. -/
def isKind (kind : TokenKind) : Parser Bool := return (← currentKind) = kind

/-- Whether the current token is a symbol. -/
def isSymbol (symbol : Symbol) : Parser Bool := isKind (.symbol symbol)

/-- Whether the token after the current one is of a kind. -/
def nextIsKind (kind : TokenKind) : Parser Bool :=
  return (← get).cursor.peek.value.kind = kind

/-- The number of tokens ahead of the current one. -/
def tokensAhead : Parser Nat := return (← get).cursor.ahead.length

/-- The span of the production in progress, up to the current token. -/
def here : Parser Span := do
  let token ← current
  match ← read with
  | some start => return ⟨start, token.span.stop⟩
  | none => return token.span

/-- The span of the token passed last. -/
def lastSpan : Parser Span := return (← get).cursor.lastSpan

/-! ## Acting -/

/-- Pass the current token. -/
def advance : Parser Unit := modify State.advance

/-- Record a notice. -/
def record (diagnostic : Diagnostic) (span : Span) : Parser Unit :=
  modify fun s => s.record diagnostic span

/-- Record a notice and fail. -/
def failAt {α : Type} (diagnostic : Diagnostic) (span : Span) : Parser α := do
  let marker : Marker := ⟨(← get).notices.size⟩
  record diagnostic span
  throw marker

/-- Record a notice about the production in progress and fail. -/
def fail {α : Type} (diagnostic : Diagnostic) : Parser α := do
  failAt diagnostic (← here)

/-- Fail unless the current token is of a kind. -/
def expect (kind : TokenKind) : Parser Unit := do
  let found ← currentKind
  if found = kind then return else fail (.unexpectedToken kind found)

/-- Pass a token that has to be of a kind. -/
def skipOver (kind : TokenKind) : Parser Unit := do
  expect kind
  advance

/-- Pass a symbol. -/
def symbol (s : Symbol) : Parser Unit := skipOver (.symbol s)

/-- Pass a keyword. -/
def keyword (k : Keyword) : Parser Unit := skipOver (.keyword k)

/-- Pass a name. -/
def ident : Parser (Located Ident) := do
  let token ← current
  match token.value with
  | .ident name =>
    advance
    return ⟨name, token.span⟩
  | other => fail (.unexpectedToken .ident other.kind)

/-- Fail, expecting a kind, if no tokens are left. -/
def expectMore (kind : TokenKind) : Parser Unit := do
  if (← get).cursor.hasNext then return else expect kind

/-! ## Combining -/

/-- Run a production and give the span of the tokens it read. -/
def mapped {α : Type} (rule : Parser α) : Parser (Located α) := do
  let start := (← current).span.start
  let value ← withReader (fun _ => some start) rule
  return ⟨value, ⟨start, (← lastSpan).stop⟩⟩

/-- The greatest number of blocks and expressions inside each other. -/
def maxNesting : Nat := 128

/-- Run a production one level deeper than `room` allows for, or fail if no level is
left. -/
def nested {α : Type} (room : Nat) (rule : Nat → Parser α) : Parser α :=
  match room with
  | 0 => fail (.nestingTooDeep maxNesting)
  | room + 1 => rule room

/-- Run a production and give its failure as a value. -/
def attempt {α : Type} (rule : Parser α) : Parser (Except Marker α) :=
  tryCatch (.ok <$> rule) fun marker => return .error marker

/-- Add a node. -/
def build (c : Construct) (span : Option Span) : Parser NodeId := do
  let s ← get
  let (id, store) := s.store.build c span
  set (s.withStore store)
  return id

/-- Set the span of a node. -/
def setSpan (id : NodeId) (span : Span) : Parser Unit :=
  modify fun s => s.withStore (s.store.setSpan id span)

/-- Add the node of a production, with the span of the tokens it read. -/
def node (rule : Parser Construct) : Parser NodeId := do
  let ⟨c, span⟩ ← mapped rule
  build c (some span)

end FrontEnd.Grammar
