import FrontEnd.Command.Arguments
import FrontEnd.Command.Host
import FrontEnd.Command.LogFilter
import FrontEnd.Compilation

/-!
# Running the command line

A run checks the log filter, reads the arguments, then the input, compiles it, and
writes the listing.  Reports and dumps go to standard error, in the order of the
stages they belong to.

What a compilation shows and writes is a function of the options and the text:
`Transcript.ofSource`.  Only `run` talks to a host.
-/

namespace FrontEnd.Command

/-- Why a run failed, in the words of the last line that it prints. -/
structure Failure where
  message : String
  cause : Option String
deriving DecidableEq

/-- The text of a failure. -/
def Failure.text (f : Failure) : String :=
  "Error: " ++ f.message ++ "\n" ++
    match f.cause with
    | some cause => "\nCaused by:\n    " ++ cause ++ "\n"
    | none => ""

/-- How a run ended. -/
inductive Exit
  | success
  | failure
  | misuse
deriving DecidableEq

/-- The status of a run. -/
def Exit.code : Exit → Nat
  | .success => 0
  | .failure => 1
  | .misuse => 2

/-! ## What a compilation shows -/

/-- What a compilation shows, and the listing that it is to write, if any. -/
structure Transcript where
  messages : String
  outcome : Except Failure (Option String)

/-- One line for each token. -/
def tokenDump (source : Source) (tokens : List (Located Token)) : String :=
  String.join (tokens.map fun token =>
    token.span.describe source.name ++ "\t" ++ token.value.describe ++ "\n")

/-- A text if a stage is to be shown. -/
def Options.shown (o : Options) (stage : Stage) (text : String) : String :=
  if stage ∈ o.dumps then text else ""

/-- The tree under a module. -/
def treeDump (parsed : Grammar.Parsed) : Except Fault String :=
  match parsed.result with
  | .ok module => parsed.store.outline module
  | .error _ => .ok ""

namespace Transcript

/-- What scanning and parsing show. -/
def parsing (o : Options) (filter : LogFilter) (source : Source) (tokens : List (Located Token))
    (parsed : Grammar.Parsed) : Except Fault String := do
  let tree ← treeDump parsed
  return filter.log source.name #[.scanned tokens.length] ++
    o.shown .tokens (tokenDump source tokens) ++
    filter.log source.name parsed.events ++
    o.shown .tree tree ++
    noticesIfAny source parsed.notices

/-- What lowering shows after what parsing showed. -/
def lowering (o : Options) (filter : LogFilter) (source : Source) (shown : String)
    (result : Except (Located LoweringError) Unit) (program : Code.Program)
    (events : Array Event) : Transcript :=
  let shown := shown ++ filter.log source.name events
  match result with
  | .error error => ⟨shown ++ loweringReport source error, .error ⟨"Lowering failed", none⟩⟩
  | .ok _ => ⟨shown ++ o.shown .code program.listing, .ok (some program.listing)⟩

/-- What compiling a source shows. -/
def ofSource (o : Options) (filter : LogFilter) (source : Source) : Except Fault Transcript := do
  match ← FrontEnd.compile .empty source with
  | .unscanned errors =>
    return ⟨lexicalReport source errors, .error ⟨"Lexical analysis failed", none⟩⟩
  | .unparsed tokens parsed =>
    return ⟨← parsing o filter source tokens parsed, .error ⟨"Syntax analysis failed", none⟩⟩
  | .lowered tokens parsed _ result program events =>
    let shown ← parsing o filter source tokens parsed
    if o.check then return ⟨shown, .ok none⟩
    return lowering o filter source shown result program events

end Transcript

/-! ## Talking to a host -/

section

variable {m : Type → Type} [Monad m] (host : Host m)

/-- Print a failure. -/
def fail (failure : Failure) : m Exit := do
  host.printError failure.text
  return .failure

/-- The name and the text of the input, or why it cannot be read. -/
def readSource (input : String) : m (Except Failure Source) := do
  if input = standardName then
    match ← host.readStandard with
    | .ok text => return .ok (.ofText "<stdin>" text 0)
    | .error error => return .error ⟨"Failed to read from stdin", some error.message⟩
  else
    match ← host.readFile input with
    | .ok text => return .ok (.ofText input text 0)
    | .error error => return .error ⟨"Failed to read: " ++ input, some error.message⟩

/-- Write a listing. -/
def writeListing (output listing : String) : m Exit := do
  if output = standardName then
    host.print listing
    return .success
  match ← host.writeFile output listing with
  | .ok _ => return .success
  | .error error => fail host ⟨"Failed to open for writing: " ++ output, some error.message⟩

/-- Compile as the options say. -/
def runCompile (filter : LogFilter) (o : Options) : m Exit := do
  match ← readSource host o.input with
  | .error failure => fail host failure
  | .ok source =>
    match Transcript.ofSource o filter source with
    | .error fault => fail host ⟨fault.message, none⟩
    | .ok transcript =>
      host.printError transcript.messages
      match transcript.outcome with
      | .error failure => fail host failure
      | .ok none => return .success
      | .ok (some listing) => writeListing host o.output listing

/-- The name of the program and its version. -/
def versionText : String := "kiln 0.1.0\n"

/-- How the program is used. -/
def usageText : String :=
  "Front end for the kiln language\n\n" ++
    "Usage: kiln [OPTIONS] [INPUT]\n\n" ++
    "  INPUT                 Source file ('-' for stdin)\n" ++
    "  -o, --output <FILE>   Listing output file ('-' for stdout)\n" ++
    "      --dump <STAGE>    Dump an intermediate stage to stderr: tokens, ast, ir\n" ++
    "      --check           Stop after parsing, without lowering\n" ++
    "  -V, --version         Print the version\n" ++
    "  -h, --help            Print this text\n"

/-- Answer a request. -/
def answer (filter : LogFilter) : Request → m Exit
  | .compile options => runCompile host filter options
  | .version => do
    host.print versionText
    return .success
  | .help => do
    host.print usageText
    return .success
  | .mistaken error => do
    host.printError ("error: " ++ error.message ++ "\n")
    return .misuse

/-- Run the command line with the log filter of its environment. -/
def run (filter : Option String) (arguments : List String) : m Exit := do
  match LogFilter.ofText? (filter.getD "") with
  | none => fail host ⟨"Bad filter in KILN_LOG", some "invalid filter directive"⟩
  | some filter => answer host filter (.ofArguments arguments)

end

end FrontEnd.Command
