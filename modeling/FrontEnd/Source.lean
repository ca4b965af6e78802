import FrontEnd.Position
import FrontEnd.Text.Lines

/-!
# Sources

A source is read line by line.  Every line yields its characters and a line feed,
also the last one, and each character comes with the position of the one that
follows it.  A line that does not decode yields a single failure: it counts as a
line, and its text is not kept.

## Main definitions

* `Source.ofText`, `Source.ofBytes`: a source from its text or from raw bytes.
* `Source.items`: the characters and failures that scanning consumes.
* `Source.line`: the text that an excerpt quotes for a line number.
-/

namespace FrontEnd

/-- What reading a source yields. -/
inductive Item
  /-- A character, and the position after it. -/
  | char (c : Char) (next : Position)
  /-- A line that could not be read. -/
  | failure
deriving DecidableEq

/-- A named text in lines.  `reading` tells apart two readings of one text. -/
structure Source where
  name : String
  /-- The lines in order; an undecodable one is `none`. -/
  lines : List (Option String)
  reading : Nat

namespace Source

/-- The source of a text. -/
def ofText (name text : String) (reading : Nat) : Source :=
  ⟨name, (Text.lines text).map some, reading⟩

/-- The source of a sequence of bytes, each line decoded as UTF-8. -/
def ofBytes (name : String) (bytes : List UInt8) (reading : Nat) : Source :=
  ⟨name, (Text.byteLines bytes).map fun line => String.fromUTF8? ⟨line.toArray⟩, reading⟩

/-- The lines whose text is kept. -/
def retained (s : Source) : List String := s.lines.filterMap id

/-- The retained line of a number, counted from one; empty where there is none. -/
def line (s : Source) (n : Nat) : String :=
  if n = 0 then "" else s.retained.getD (n - 1) ""

/-- Characters from a position on, each with the position after it. -/
def charsFrom : Position → List Char → List Item
  | _, [] => []
  | p, c :: rest => .char c (p.after c) :: charsFrom (p.after c) rest

/-- The items of the lines from number `n` on. -/
def itemsFrom (n : Nat) : List (Option String) → List Item
  | [] => []
  | none :: rest => .failure :: itemsFrom (n + 1) rest
  | some text :: rest => charsFrom ⟨n, 1⟩ (text.toList ++ ['\n']) ++ itemsFrom (n + 1) rest

/-- All items of a source. -/
def items (s : Source) : List Item := itemsFrom 1 s.lines

end Source

/-- A span of a source. -/
structure Location where
  source : Source
  span : Span

namespace Location

/-- Locations are the same when they span the same part of the same reading. -/
def same (l m : Location) : Bool :=
  l.source.reading == m.source.reading && l.span == m.span

/-- The text under which a location is reported. -/
def describe (l : Location) : String := l.span.describe l.source.name

end Location

end FrontEnd
