import FrontEnd.Report.Notice
import FrontEnd.Source
import FrontEnd.Text.Columns
import FrontEnd.Token.Scanner

/-!
# Excerpts

Findings about a text are shown one after another: a label and the message, the
location, the source lines that the location spans, and a line of carets.  The
carets run from the start column to the last column of the location, whichever way
round they are, under the last line shown.

## Main definitions

* `Finding.render`: one finding with its excerpt.
* `renderFindings`: all findings, and how many of them are errors.
-/

namespace FrontEnd

/-- Something found in a text. -/
structure Finding where
  severity : Severity
  message : String
  span : Span

/-- A lexical error as a finding. -/
def Finding.ofLexical (error : Located LexicalError) : Finding :=
  ⟨.error, error.value.message, error.span⟩

/-- A notice as a finding. -/
def Finding.ofNotice (notice : Notice) : Finding :=
  ⟨notice.severity, notice.diagnostic.message, notice.span⟩

/-- The least and the greatest column that carets mark. -/
def Span.caretColumns (s : Span) : Nat × Nat :=
  let last := max (s.stop.column - 1) 1
  (min s.start.column last, max s.start.column last)

/-- The line of carets, without its margin. -/
def Span.carets (s : Span) : String :=
  Text.repeated (s.caretColumns.1 - 1) ' ' ++ Text.repeated (s.caretColumns.2 - s.caretColumns.1 + 1) '^'

/-- The numbers of the lines that a span touches. -/
def Span.lineNumbers (s : Span) : List Nat :=
  List.range' s.start.line (s.stop.line + 1 - s.start.line)

namespace Finding

/-- The label of a finding: that of the report for an error, else its severity. -/
def label (f : Finding) (errorLabel : String) : String :=
  match f.severity with
  | .error => errorLabel
  | .warning => Severity.warning.text

/-- The source lines of a finding between two margins, and the carets. -/
def excerpt (f : Finding) (source : Source) : String :=
  let width := (toString f.span.stop.line).length
  Text.repeated width ' ' ++ " |\n" ++
    String.join (f.span.lineNumbers.map fun n =>
      Text.rightAligned width n ++ " | " ++ source.line n ++ "\n") ++
    Text.repeated width ' ' ++ " | " ++ f.span.carets ++ "\n"

/-- A finding with its excerpt. -/
def render (f : Finding) (source : Source) (errorLabel : String) : String :=
  f.label errorLabel ++ ": " ++ f.message ++ "\n --> " ++ f.span.describe source.name ++ "\n" ++
    f.excerpt source ++ "\n"

/-- Whether a finding is an error. -/
def isError (f : Finding) : Bool := f.severity = .error

end Finding

/-- The last line of a report with errors. -/
def failureSummary (errors : Nat) : String :=
  if errors = 0 then ""
  else "Build failed with " ++ toString errors ++ (if errors = 1 then " error" else " errors") ++ "\n"

/-- A report of findings about a source. -/
def renderFindings (source : Source) (errorLabel : String) (findings : List Finding) : String :=
  match findings with
  | [] => "No errors were reported\n"
  | _ =>
    String.join (findings.map fun f => f.render source errorLabel) ++
      failureSummary (findings.countP Finding.isError)

end FrontEnd
