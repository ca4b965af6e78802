/-!
# Hosts

The machine that the command line runs on, as far as it needs one: standard input,
files, and two places to print to.  A host in any monad runs it.
-/

namespace FrontEnd.Command

/-- Why a file could not be used. -/
inductive FileError
  | notFound
  | isDirectory
  | notDirectory
  | nameTooLong
  /-- The bytes are not UTF-8. -/
  | notText
  /-- Anything else, in the words of the machine. -/
  | other (message : String)
deriving DecidableEq

/-- The wording of a file error. -/
def FileError.message : FileError → String
  | .notFound => "No such file or directory (os error 2)"
  | .isDirectory => "Is a directory (os error 21)"
  | .notDirectory => "Not a directory (os error 20)"
  | .nameTooLong => "File name too long (os error 36)"
  | .notText => "stream did not contain valid UTF-8"
  | .other message => message

/-- The text of some bytes. -/
def decoded (bytes : ByteArray) : Except FileError String :=
  match String.fromUTF8? bytes with
  | some text => .ok text
  | none => .error .notText

/-- The machine that the command line runs on. -/
structure Host (m : Type → Type) where
  readStandard : m (Except FileError String)
  readFile : String → m (Except FileError String)
  writeFile : String → String → m (Except FileError Unit)
  print : String → m Unit
  printError : String → m Unit

end FrontEnd.Command
