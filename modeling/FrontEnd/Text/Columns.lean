/-!
# Columns

Runs of one character, and numbers set in columns of a fixed width.
-/

namespace FrontEnd.Text

/-- A character repeated. -/
def repeated (n : Nat) (c : Char) : String := String.ofList (List.replicate n c)

/-- A number in at least `width` columns, with spaces on its left. -/
def rightAligned (width n : Nat) : String :=
  repeated (width - (toString n).length) ' ' ++ toString n

end FrontEnd.Text
