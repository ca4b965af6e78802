import FrontEnd.Command.Host
import FrontEnd.Text.Lines

/-!
# Paths

A path is a list of names parted by slashes.  It leads from the root if it starts with
a slash, and from the working directory otherwise.  Slashes in a row count as one.  A
slash after the last name is kept, because only a directory may stand before it.
-/

namespace FrontEnd.Command

/-- A path that is neither empty nor too long. -/
structure Path where
  fromRoot : Bool
  names : List String
  /-- Whether a slash follows the last name. -/
  slash : Bool
deriving DecidableEq

namespace Path

/-- The greatest number of bytes in a path. -/
def limit : Nat := 4095

/-- The greatest number of bytes in a name. -/
def nameLimit : Nat := 255

/-- The path that a text spells. -/
def ofText (text : String) : Except FileError Path :=
  let parts := Text.pieces '/' text.toList
  if text.isEmpty then .error .notFound
  else if limit < text.utf8ByteSize then .error .nameTooLong
  else
    .ok ⟨parts.head? = some [], (parts.filter (· ≠ [])).map String.ofList,
      parts.getLast? = some []⟩

end Path

end FrontEnd.Command
