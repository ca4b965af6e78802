import FrontEnd.Grammar.Declaration
import FrontEnd.Lowering.Visit

/-!
# Compilations

A text is scanned, parsed and lowered, and each stage runs only if the one before it
found no error.  Warnings do not stop a compilation.  Compilations that share a
workspace add to one store and to one program.

## Main definitions

* `compile`: how far a text comes.
* `Compilation.report`: what is to be said about it.
-/

namespace FrontEnd

open Grammar Lowering

/-- The trees parsed so far and the program lowered from them. -/
structure Workspace where
  store : Store
  program : Code.Program

/-- The workspace that holds nothing. -/
def Workspace.empty : Workspace := ⟨.empty, .empty ""⟩

/-- How far a text came. -/
inductive Compilation
  | unscanned (errors : List (Located LexicalError))
  | unparsed (tokens : List (Located Token)) (parsed : Parsed)
  | lowered (tokens : List (Located Token)) (parsed : Parsed) (module : NodeId)
      (result : Except (Located LoweringError) Unit) (program : Code.Program)
      (events : Array Event)

/-- The module that parsing found, if there was no error. -/
def Grammar.Parsed.module? (p : Parsed) : Option NodeId :=
  match p.result with
  | .ok module => if p.notices.hasErrors then none else some module
  | .error _ => none

/-- Lower a module that was parsed without error. -/
def lowerParsed (program : Code.Program) (tokens : List (Located Token)) (parsed : Parsed)
    (module : NodeId) : Except Fault Compilation :=
  let lowered := (lowerModule module).runOn ⟨parsed.store, true⟩ program
  match lowered.result with
  | .ok _ => .ok (.lowered tokens parsed module (.ok ()) lowered.program lowered.events)
  | .error (.refused error) =>
    .ok (.lowered tokens parsed module (.error error) lowered.program lowered.events)
  | .error (.fault f) => .error f

/-- Compile a text in a workspace. -/
def compile (w : Workspace) (source : Source) : Except Fault Compilation :=
  match source.tokens with
  | .error errors => .ok (.unscanned errors)
  | .ok tokens => do
    let parsed ← parseModule tokens w.store #[]
    match parsed.module? with
    | none => return .unparsed tokens parsed
    | some module => lowerParsed w.program tokens parsed module

/-- The report of lexical errors. -/
def lexicalReport (source : Source) (errors : List (Located LexicalError)) : String :=
  renderFindings source "Lexical error" (errors.map .ofLexical)

/-- The report of notices. -/
def noticeReport (source : Source) (notices : Notices) : String :=
  renderFindings source "Syntax error" (notices.toList.map .ofNotice)

/-- The report of notices, or nothing if there are none. -/
def noticesIfAny (source : Source) (notices : Notices) : String :=
  if notices.isEmpty then "" else noticeReport source notices

/-- The report of an error in lowering. -/
def loweringReport (source : Source) (error : Located LoweringError) : String :=
  renderFindings source "Semantic error" [.ofLowering error]

namespace Compilation

/-- The report of the stage that a compilation ended in. -/
def report (source : Source) : Compilation → String
  | .unscanned errors => lexicalReport source errors
  | .unparsed _ parsed => noticeReport source parsed.notices
  | .lowered _ parsed _ (.ok _) _ _ => noticesIfAny source parsed.notices
  | .lowered _ _ _ (.error error) _ _ => loweringReport source error

/-- What happened during a compilation. -/
def events : Compilation → Array Event
  | .unscanned _ => #[]
  | .unparsed tokens parsed => #[.scanned tokens.length] ++ parsed.events
  | .lowered tokens parsed _ _ _ events => #[.scanned tokens.length] ++ parsed.events ++ events

/-- The workspace after a compilation. -/
def workspace (before : Workspace) : Compilation → Workspace
  | .unscanned _ => before
  | .unparsed _ parsed => ⟨parsed.store, before.program⟩
  | .lowered _ parsed _ _ program _ => ⟨parsed.store, program⟩

end Compilation

end FrontEnd
