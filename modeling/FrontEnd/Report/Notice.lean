import FrontEnd.Position
import FrontEnd.Token.Basic

/-!
# Notices

A notice is a diagnostic about the text, with a severity and a span.  Notices are
only ever appended, and are referred to by their place.
-/

namespace FrontEnd

/-- How grave a notice is. -/
inductive Severity
  /-- It keeps the text from being compiled. -/
  | error
  /-- It informs only. -/
  | warning
deriving DecidableEq

/-- The wording of a severity. -/
def Severity.text : Severity → String
  | .error => "error"
  | .warning => "warning"

/-- What a notice says. -/
inductive Diagnostic
  | unexpectedToken (expected found : TokenKind)
  /-- No production starts with the token. -/
  | noConstruct (found : TokenKind)
  | duplicateField (field owner : Ident)
  | duplicateDefinition (name : Ident)
  | duplicateArgument (argument function : Ident)
  | duplicateVariable (name : Ident)
  | expectedType (found : TokenKind)
  | expectedExpression (found : TokenKind)
  | expectedLiteral (found : TokenKind)
  | emptyModule (name : Ident)
  | nestingTooDeep (limit : Nat)
deriving DecidableEq

namespace Diagnostic

/-- The wording of a diagnostic. -/
def message : Diagnostic → String
  | .unexpectedToken expected found =>
    "Expected " ++ expected.describe ++ ", found " ++ found.describe ++ " instead"
  | .noConstruct found => "Unexpected " ++ found.describe ++ ", no construct may begin here"
  | .duplicateField field owner =>
    "Field `" ++ field.text ++ "` is defined more than once in struct `" ++ owner.text ++ "`"
  | .duplicateDefinition name => "Duplicate definition of `" ++ name.text ++ "`"
  | .duplicateArgument argument function =>
    "Argument `" ++ argument.text ++ "` of `" ++ function.text ++ "` is declared more than once"
  | .duplicateVariable name =>
    "Variable `" ++ name.text ++ "` is already declared in this block"
  | .expectedType found => "Expected a type, found " ++ found.describe ++ " instead"
  | .expectedExpression found => "Expected an expression, found " ++ found.describe ++ " instead"
  | .expectedLiteral found => "Expected a literal, found " ++ found.describe ++ " instead"
  | .emptyModule name => "Module `" ++ name.text ++ "` declares nothing"
  | .nestingTooDeep limit =>
    "Expressions and blocks may not nest more than " ++ toString limit ++ " levels deep"

/-- The severity of a diagnostic for which none is chosen: only an empty module is
no error. -/
def defaultSeverity : Diagnostic → Severity
  | .emptyModule _ => .warning
  | _ => .error

end Diagnostic

/-- A recorded diagnostic. -/
structure Notice where
  severity : Severity
  diagnostic : Diagnostic
  span : Span
deriving DecidableEq

namespace Notice

/-- A notice of the diagnostic's own severity. -/
def of (diagnostic : Diagnostic) (span : Span) : Notice :=
  ⟨diagnostic.defaultSeverity, diagnostic, span⟩

/-- Whether a notice is an error. -/
def isError (n : Notice) : Bool := n.severity = .error

/-- A notice on one line, for a source of the given name. -/
def describe (n : Notice) (source : String) : String :=
  n.severity.text ++ ": " ++ n.diagnostic.message ++ " (" ++ n.span.describe source ++ ")"

end Notice

/-- Notices in the order in which they were recorded. -/
abbrev Notices := Array Notice

namespace Notices

/-- The notices that are errors. -/
def errors (notices : Notices) : List Notice := notices.toList.filter Notice.isError

/-- Whether some notice is an error. -/
def hasErrors (notices : Notices) : Bool := notices.any Notice.isError

end Notices

end FrontEnd
