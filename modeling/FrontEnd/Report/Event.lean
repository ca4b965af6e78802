import FrontEnd.Report.Notice
import FrontEnd.Tree.Construct

/-!
# Events

What happened during a run, step by step.  An event has a level, the part of the
program that it comes from, a message, and named fields as text.
-/

namespace FrontEnd

/-- A step of a run. -/
inductive Event
  /-- A text was scanned without error. -/
  | scanned (tokens : Nat)
  /-- A notice is about to be recorded. -/
  | noticed (diagnostic : Diagnostic) (span : Span)
  /-- A declaration became an item of its module. -/
  | declared (name : Ident) (kind : Kind)
  /-- Tokens were skipped after a declaration that failed. -/
  | resynchronized (skipped : Nat)
  /-- A prototype is about to be declared in the program. -/
  | registering (name : Ident)
  /-- A prototype was found declared. -/
  | reusing (name : Ident)
  /-- The body of a function is complete. -/
  | bodyLowered (function : Ident) (instructions : Nat)
  /-- A module is complete. -/
  | moduleLowered (module : Ident) (functions globals : Nat)
deriving DecidableEq

/-- How much detail an event gives. -/
inductive Level
  | debug
  | trace
deriving DecidableEq

/-- The text of a level. -/
def Level.text : Level → String
  | .debug => "DEBUG"
  | .trace => "TRACE"

namespace Event

/-- The level of an event. -/
def level : Event → Level
  | .scanned _ | .declared _ _ | .moduleLowered _ _ _ => .debug
  | _ => .trace

/-- The part of the program that an event comes from. -/
def target : Event → String
  | .scanned _ => "kiln::lex"
  | .noticed _ _ => "kiln::notice"
  | .declared _ _ | .resynchronized _ => "kiln::parse"
  | .registering _ | .reusing _ | .bodyLowered _ _ | .moduleLowered _ _ _ => "kiln::lower"

/-- The wording of an event. -/
def message : Event → String
  | .scanned _ => "lexing finished"
  | .noticed _ _ => "notice recorded"
  | .declared _ _ => "declaration parsed"
  | .resynchronized _ => "resynchronized after failed declaration"
  | .registering _ => "registering prototype"
  | .reusing _ => "reusing registered prototype"
  | .bodyLowered _ _ => "body lowered"
  | .moduleLowered _ _ _ => "module lowered"

/-- The fields of an event, for a source of the given name. -/
def fields (source : String) : Event → List (String × String)
  | .scanned tokens => [("tokens", toString tokens)]
  | .noticed diagnostic span =>
    [("diagnostic", diagnostic.message), ("location", span.describe source)]
  | .declared name kind => [("name", name.text), ("kind", kind.text)]
  | .resynchronized skipped => [("skipped", toString skipped)]
  | .registering name | .reusing name => [("name", name.text)]
  | .bodyLowered function instructions =>
    [("function", function.text), ("instructions", toString instructions)]
  | .moduleLowered module functions globals =>
    [("module", module.text), ("functions", toString functions), ("globals", toString globals)]

end Event

end FrontEnd
