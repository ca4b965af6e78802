/-!
# Positions and spans

A position is a line and a column, both counted from one.  A span runs from a
position up to, and not including, another.

Positions move without bound here.  `Position.move` is the same arithmetic in
32-bit words, where a step that leaves the range is refused with its cause.

## Main definitions

* `Position.after c p`: the position of the character that follows `c` at `p`.
* `Span.describe`: the text under which a span is reported.
-/

namespace FrontEnd

/-- A line and a column. -/
structure Position where
  line : Nat
  column : Nat
deriving DecidableEq, Inhabited

namespace Position

/-- The first character of a text. -/
def origin : Position := ⟨1, 1⟩

/-- Columns between two tab stops. -/
def tabStop : Nat := 4

/-- The next column. -/
def advance (p : Position) : Position := ⟨p.line, p.column + 1⟩

/-- The previous column, but never before the first. -/
def back (p : Position) : Position := ⟨p.line, max (p.column - 1) 1⟩

/-- The start of the next line. -/
def newline (p : Position) : Position := ⟨p.line + 1, 1⟩

/-- The next tab stop. -/
def tab (p : Position) : Position := ⟨p.line, 1 + ((p.column - 1) / tabStop + 1) * tabStop⟩

/-- Where the character after `c` stands when `c` stands at `p`. -/
def after (c : Char) (p : Position) : Position :=
  if c = '\n' then p.newline else if c = '\t' then p.tab else p.advance

/-- Line and column, parted by a colon. -/
def render (p : Position) : String := toString p.line ++ ":" ++ toString p.column

/-! ## Moves in 32-bit words -/

/-- The arithmetic step that left the range of a word. -/
inductive Overflow
  | add
  | subtract
  | multiply
deriving DecidableEq

/-- The wording of an overflow. -/
def Overflow.message : Overflow → String
  | .add => "attempt to add with overflow"
  | .subtract => "attempt to subtract with overflow"
  | .multiply => "attempt to multiply with overflow"

/-- A step of a position. -/
inductive Move
  | advance
  | back
  | newline
  | tab
  | reset
deriving DecidableEq

/-- The number of values of a word. -/
def wordSize : Nat := Nat.pow 2 32

/-- Take a step whose arithmetic is done in words. -/
def move (p : Position) : Move → Except Overflow Position
  | .advance => if p.column + 1 < wordSize then .ok p.advance else .error .add
  | .back => .ok p.back
  | .newline => if p.line + 1 < wordSize then .ok p.newline else .error .add
  | .tab =>
    if p.column = 0 then .error .subtract
    else if ((p.column - 1) / tabStop + 1) * tabStop < wordSize then .ok p.tab
    else .error .multiply
  | .reset => .ok origin

end Position

/-- The characters from `start` up to, and not including, `stop`. -/
structure Span where
  start : Position
  stop : Position
deriving DecidableEq, Inhabited

/-- The one character at a position. -/
def Position.cell (p : Position) : Span := ⟨p, p.advance⟩

namespace Span

/-- From the start of one span to the end of another. -/
def join (s t : Span) : Span := ⟨s.start, t.stop⟩

/-- The span as reported for a source of the given name.  A span of at most one
character shows its start, a longer one also its last character. -/
def describe (s : Span) (source : String) : String :=
  source ++ ":" ++
    if s.stop = s.start.advance ∨ s.stop = s.start then s.start.render
    else "[" ++ s.start.render ++ "-" ++ s.stop.back.render ++ "]"

@[simp] theorem start_join (s t : Span) : (s.join t).start = s.start := rfl
@[simp] theorem stop_join (s t : Span) : (s.join t).stop = t.stop := rfl

end Span

@[simp] theorem Position.start_cell (p : Position) : p.cell.start = p := rfl
@[simp] theorem Position.stop_cell (p : Position) : p.cell.stop = p.advance := rfl

/-- A value together with the span it was read from. -/
structure Located (α : Type) where
  value : α
  span : Span

end FrontEnd
