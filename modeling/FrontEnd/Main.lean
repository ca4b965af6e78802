import FrontEnd.Command.Run

/-!
# The program

The command line on the real machine.
-/

namespace FrontEnd.Command

/-- The number of a machine error, which some calls give negated. -/
def machineNumber (code : UInt32) : UInt32 := if code < 0x80000000 then code else 0 - code

/-- An error of the machine as a file error. -/
def FileError.ofMachine (error : IO.Error) : FileError :=
  match error with
  | .noFileOrDirectory _ _ _ => .notFound
  | .inappropriateType _ code _ =>
    if machineNumber code = 21 then .isDirectory else .notDirectory
  | .invalidArgument _ code message =>
    if machineNumber code = 36 then .nameTooLong else .other message
  | unknown => .other (toString unknown)

/-- Run an action and give its error as a value. -/
def guarded {α : Type} (action : IO α) : IO (Except FileError α) := do
  match ← action.toBaseIO with
  | .ok a => return .ok a
  | .error error => return .error (.ofMachine error)

/-- The real machine. -/
def machine : Host IO where
  readStandard := do
    let input ← IO.getStdin
    return (← guarded input.readBinToEnd).bind decoded
  readFile path := return (← guarded (IO.FS.readBinFile path)).bind decoded
  writeFile path text := guarded (IO.FS.writeFile path text)
  print text := do
    let output ← IO.getStdout
    output.putStr text
    output.flush
  printError text := do
    let output ← IO.getStderr
    output.putStr text

end FrontEnd.Command

/-- Run the command line on the real machine. -/
def main (arguments : List String) : IO UInt32 := do
  let filter ← IO.getEnv "KILN_LOG"
  let result ← FrontEnd.Command.run FrontEnd.Command.machine filter arguments
  return result.code.toUInt32
