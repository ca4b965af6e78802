/-!
# Command-line arguments

One argument names the input, and options may stand before and after it.  After `--`
every argument is an input.  An option that takes a value finds it in its own argument
or in the next one, unless that one is an option itself.

Arguments are read from left to right.  A request for the version or for help is
answered at once.  An unknown option, a value where none belongs and a second input are
noted at once too; what is wrong with the values of an option, and options that stand
there twice, only after the last argument.

## Main definitions

* `Options`: what a compilation is asked to do.
* `Request.ofArguments`: what the arguments ask for.
-/

namespace FrontEnd.Command

/-- A stage whose result can be shown. -/
inductive Stage
  | tokens
  | tree
  | code
deriving DecidableEq

/-- The stage of a name. -/
def Stage.ofName? (name : String) : Option Stage :=
  if name = "tokens" then some .tokens
  else if name = "ast" then some .tree
  else if name = "ir" then some .code
  else none

/-- The name that stands for standard input or standard output. -/
def standardName : String := "-"

/-- What a compilation is asked to do. -/
structure Options where
  input : String
  output : String
  dumps : List Stage
  /-- Stop before lowering. -/
  check : Bool
deriving DecidableEq

/-- A mistake in the arguments. -/
inductive UsageError
  | unknownOption (argument : String)
  | unexpectedValue (argument : String)
  | unknownStage (name : String)
  | secondInput (argument : String)
  | missingValue
  | repeatedOption
deriving DecidableEq

/-- The wording of a mistake in the arguments. -/
def UsageError.message : UsageError → String
  | .unknownOption argument => "Unknown option: " ++ argument
  | .unexpectedValue argument => "This option takes no value: " ++ argument
  | .unknownStage name => "Not a stage: " ++ name
  | .secondInput argument => "There is one input already: " ++ argument
  | .missingValue => "An option lacks its value"
  | .repeatedOption => "An option is given more than once"

/-- What the arguments ask for. -/
inductive Request
  | compile (options : Options)
  | version
  | help
  | mistaken (error : UsageError)
deriving DecidableEq

/-- An option that takes a value. -/
inductive Valued
  | output
  | dump
deriving DecidableEq

/-- The uses of an option that takes a value. -/
structure Uses where
  count : Nat
  /-- The values given, over all uses. -/
  values : List String
deriving DecidableEq

namespace Uses

/-- No use. -/
def none : Uses := ⟨0, []⟩

/-- One more use. -/
def another (u : Uses) : Uses := { u with count := u.count + 1 }

/-- One more value. -/
def add (u : Uses) (value : String) : Uses := { u with values := u.values ++ [value] }

/-- Whether the option is used and no use has a value. -/
def lacking (u : Uses) : Bool := decide (0 < u.count) && u.values.isEmpty

end Uses

/-- The arguments read so far. -/
structure Reading where
  input : Option String
  outputs : Uses
  dumps : Uses
  checks : Nat
  /-- The option whose value the next argument may be. -/
  pending : Option Valued
  /-- Whether `--` was read. -/
  inputsOnly : Bool
deriving DecidableEq

namespace Reading

/-- Before the first argument. -/
def start : Reading := ⟨none, .none, .none, 0, none, false⟩

/-- Change the uses of an option. -/
def onUses (r : Reading) (change : Uses → Uses) : Valued → Reading
  | .output => { r with outputs := change r.outputs }
  | .dump => { r with dumps := change r.dumps }

/-- Take an argument as the input. -/
def takeInput (r : Reading) (argument : String) : Except Request Reading :=
  match r.input with
  | none => .ok { r with input := some argument }
  | some _ => .error (.mistaken (.secondInput argument))

/-- Take an option that has a value in its own argument, or waits for one. -/
def takeValued (r : Reading) (option : Valued) (value : Option String) : Reading :=
  let r := r.onUses Uses.another option
  match value with
  | some value => r.onUses (·.add value) option
  | none => { r with pending := some option }

/-- Take an option without a value. -/
def takeFlag (r : Reading) (argument : String) (value : Option String)
    (take : Reading → Except Request Reading) : Except Request Reading :=
  match value with
  | none => take r
  | some _ => .error (.mistaken (.unexpectedValue argument))

/-- Take an option by its long name. -/
def takeLong (r : Reading) (argument name : String) (value : Option String) :
    Except Request Reading :=
  if name = "output" then .ok (r.takeValued .output value)
  else if name = "dump" then .ok (r.takeValued .dump value)
  else if name = "check" then
    r.takeFlag argument value fun r => .ok { r with checks := r.checks + 1 }
  else if name = "version" then r.takeFlag argument value fun _ => .error .version
  else if name = "help" then r.takeFlag argument value fun _ => .error .help
  else .error (.mistaken (.unknownOption argument))

/-- Take an option by its letter, with the rest of its argument. -/
def takeShort (r : Reading) (argument : String) : List Char → Except Request Reading
  | 'V' :: _ => .error .version
  | 'h' :: _ => .error .help
  | ['o'] => .ok (r.takeValued .output none)
  | 'o' :: '=' :: value => .ok (r.takeValued .output (some (String.ofList value)))
  | 'o' :: value => .ok (r.takeValued .output (some (String.ofList value)))
  | _ => .error (.mistaken (.unknownOption argument))

/-- What follows the first equals sign. -/
def valueOf (option : List Char) : Option String :=
  match option.dropWhile (· ≠ '=') with
  | [] => none
  | _ :: value => some (String.ofList value)

/-- Take an argument that is no value of the option before it. -/
def takeArgument (r : Reading) (argument : String) : Except Request Reading :=
  match argument.toList with
  | ['-', '-'] => .ok { r with inputsOnly := true }
  | '-' :: '-' :: option =>
    r.takeLong argument (String.ofList (option.takeWhile (· ≠ '='))) (valueOf option)
  | '-' :: letter :: rest => r.takeShort argument (letter :: rest)
  | _ => r.takeInput argument

/-- Whether an argument can be the value of the option before it. -/
def isValue (argument : String) : Bool :=
  match argument.toList with
  | '-' :: _ :: _ => false
  | _ => true

/-- Read one argument. -/
def step (r : Reading) (argument : String) : Except Request Reading :=
  if r.inputsOnly then r.takeInput argument
  else
    let next := { r with pending := none }
    match r.pending with
    | some option =>
      if isValue argument then .ok (next.onUses (·.add argument) option)
      else next.takeArgument argument
    | none => next.takeArgument argument

/-- The stages of some names. -/
def stages (names : List String) : Except UsageError (List Stage) :=
  names.mapM fun name =>
    match Stage.ofName? name with
    | some stage => .ok stage
    | none => .error (.unknownStage name)

/-- The options after the last argument. -/
def options (r : Reading) : Except UsageError Options := do
  if r.outputs.lacking || r.dumps.lacking then throw .missingValue
  if 1 < r.outputs.count ∨ 1 < r.checks then throw .repeatedOption
  return ⟨r.input.getD standardName, r.outputs.values.head?.getD standardName,
    ← stages r.dumps.values, decide (0 < r.checks)⟩

end Reading

/-- What the arguments ask for. -/
def Request.ofArguments (arguments : List String) : Request :=
  match arguments.foldlM Reading.step Reading.start with
  | .error request => request
  | .ok reading =>
    match reading.options with
    | .ok options => .compile options
    | .error error => .mistaken error

end FrontEnd.Command
