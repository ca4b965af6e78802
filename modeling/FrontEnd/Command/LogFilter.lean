import FrontEnd.Report.Event
import FrontEnd.Text.Lines

/-!
# Log filters

A filter says which events are logged.  It is a list of directives parted by commas:
a level, which holds everywhere, or a target with or without a level.  A target without
a level logs everything there.  The directive with the longest target decides, and of
two with one target the later.

Targets are written in ASCII letters, digits, `_`, `:` and `-`.  A directive may also
name a span in brackets; no event is inside of a span, so it logs nothing.
-/

namespace FrontEnd.Command

/-- The part of a filter that holds for a target and all below it. -/
structure Directive where
  target : String
  span : Option String
  /-- The number of levels that pass, from errors only up to everything. -/
  detail : Nat
deriving DecidableEq

/-- Directives in order. -/
abbrev LogFilter := List Directive

/-- The names of the levels, by their detail. -/
def levelNames : List String := ["off", "error", "warn", "info", "debug", "trace"]

/-- The detail that a level's name, in any mix of cases, or its number asks for. -/
def levelOf? (level : String) : Option Nat :=
  ((levelNames.zipIdx).find? fun (name, detail) =>
    (Ident.mk level).same ⟨name⟩ || level = toString detail).map Prod.snd

/-- The greatest detail. -/
def fullDetail : Nat := 5

/-- Whether a character may stand in a target. -/
def isTargetChar (c : Char) : Bool := c.isAlphanum || c == '_' || c == ':' || c == '-'

/-- A span in brackets at the start of a text, and the rest. -/
def spanAt? : List Char → Option (String × List Char)
  | '[' :: rest =>
    match rest.dropWhile (· ≠ ']') with
    | _ :: after => some (String.ofList (rest.takeWhile (· ≠ ']')), after)
    | [] => none
  | _ => none

/-- The level after a target: absent, empty, or named. -/
def levelAfter? : List Char → Option Nat
  | [] | ['='] => some fullDetail
  | '=' :: level => levelOf? (String.ofList level)
  | _ => none

/-- A directive that starts with a target or a span. -/
def targeted? (text : List Char) : Option Directive :=
  let target := text.takeWhile isTargetChar
  let rest := text.dropWhile isTargetChar
  match spanAt? rest with
  | some (span, after) =>
    (levelAfter? (if target.isEmpty then after.dropWhile isTargetChar else after)).map
      (⟨String.ofList target, some span, ·⟩)
  | none =>
    if target.isEmpty then none else (levelAfter? rest).map (⟨String.ofList target, none, ·⟩)

/-- One directive. -/
def Directive.ofText? (text : String) : Option Directive :=
  match levelOf? text with
  | some detail => some ⟨"", none, detail⟩
  | none => targeted? text.toList

/-- Read a filter; empty directives are passed over. -/
def LogFilter.ofText? (text : String) : Option LogFilter :=
  ((Text.pieces ',' text.toList).filter (· ≠ [])).mapM fun piece =>
    Directive.ofText? (String.ofList piece)

/-- The detail that a level of events needs. -/
def detailNeeded : Level → Nat
  | .debug => 4
  | .trace => 5

/-- Of two directives, the one that decides. -/
def Directive.stronger (d e : Directive) : Directive :=
  if e.target.length < d.target.length then d else e

/-- Whether a filter logs an event. -/
def LogFilter.passes (filter : LogFilter) (event : Event) : Bool :=
  match filter.filter fun d => d.span.isNone && event.target.startsWith d.target with
  | [] => false
  | first :: rest => detailNeeded event.level ≤ (rest.foldl Directive.stronger first).detail

/-- The line of an event in the log. -/
def logLine (source : String) (event : Event) : String :=
  event.level.text ++ " " ++ event.target ++ ": " ++ event.message ++
    String.join ((event.fields source).map fun (name, value) => " " ++ name ++ "=" ++ value) ++ "\n"

/-- The log of some events. -/
def LogFilter.log (filter : LogFilter) (source : String) (events : Array Event) : String :=
  String.join ((events.toList.filter filter.passes).map (logLine source))

end FrontEnd.Command
