/-!
# Lines and pieces

A line ends at a line feed, and a carriage return directly before that line feed
belongs to the line end.  What follows the last line feed is a line too, unless it
is empty.  The rule is the same for characters and for bytes.

Pieces are what a separator parts; unlike lines, there is always one more of them than
there are separators.
-/

namespace FrontEnd.Text

variable {α : Type} [DecidableEq α]

/-- Drop `x` from the front of a list that starts with it. -/
def dropHead (x : α) : List α → List α
  | [] => []
  | y :: rest => if y = x then rest else y :: rest

/-- Cut a sequence into lines.  `line` holds, last element first, what was read of
the line in progress. -/
def cutLines (feed ret : α) (line : List α) : List α → List (List α)
  | [] => if line.isEmpty then [] else [line.reverse]
  | x :: rest =>
    if x = feed then (dropHead ret line).reverse :: cutLines feed ret [] rest
    else cutLines feed ret (x :: line) rest

/-- The lines of a text. -/
def lines (text : String) : List String :=
  (cutLines '\n' '\r' [] text.toList).map String.ofList

/-- The lines of a sequence of bytes. -/
def byteLines (bytes : List UInt8) : List (List UInt8) :=
  cutLines 0x0a 0x0d [] bytes

/-- Cut a sequence at every separator. -/
def pieces (separator : α) : List α → List (List α)
  | [] => [[]]
  | x :: rest =>
    match pieces separator rest with
    | [] => [[x]]
    | piece :: others =>
      if x = separator then [] :: piece :: others else (x :: piece) :: others

end FrontEnd.Text
