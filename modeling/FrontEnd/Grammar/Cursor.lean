import FrontEnd.Fault
import FrontEnd.Position

/-!
# The token cursor

A cursor stands on one token of a list that ends with the end of the input, and
never moves past that token.  So there is always a current token.
-/

namespace FrontEnd

/-- A place in a list of tokens. -/
structure Cursor where
  /-- The tokens passed, the last one first. -/
  passed : List (Located Token)
  current : Located Token
  ahead : List (Located Token)

namespace Cursor

/-- A cursor on the first of some tokens, which have to end with the end of the
input. -/
def ofTokens : List (Located Token) → Except Fault Cursor
  | [] => .error .missingEof
  | first :: rest =>
    if ((first :: rest).getLast (List.cons_ne_nil first rest)).value = .eof then
      .ok ⟨[], first, rest⟩
    else .error .missingEof

/-- The kind of the current token. -/
def kind (c : Cursor) : TokenKind := c.current.value.kind

/-- Whether tokens are left before the end of the input. -/
def hasNext (c : Cursor) : Bool := c.kind ≠ .eof

/-- The token after the current one; the last token is its own successor. -/
def peek (c : Cursor) : Located Token := c.ahead.head?.getD c.current

/-- The token passed last. -/
def previous? (c : Cursor) : Option (Located Token) := c.passed.head?

/-- The number of tokens passed. -/
def position (c : Cursor) : Nat := c.passed.length

/-- The span of the token passed last, or of the first token. -/
def lastSpan (c : Cursor) : Span := (c.previous?.getD c.current).span

/-- Move to the next token, but not past the end of the input. -/
def advance (c : Cursor) : Cursor :=
  if c.hasNext then
    match c.ahead with
    | [] => c
    | next :: rest => ⟨c.current :: c.passed, next, rest⟩
  else c

/-- All tokens of the list, in order. -/
def tokens (c : Cursor) : List (Located Token) := c.passed.reverse ++ c.current :: c.ahead

end Cursor

end FrontEnd
