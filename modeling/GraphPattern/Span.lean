import GraphPattern.Spelling

/-!
Places in a source. A span is a range of byte offsets; a position is the line
and column that a reader of the source would name. A position is that of the
characters which begin before the offset, so an offset inside a character of
several bytes stands after that character.
-/

namespace GraphPattern

/-- The bytes from `start` up to and without `stop`. -/
structure Span where
  start : Nat
  stop : Nat
  deriving DecidableEq

/-- A line and a column, both counted from one. -/
structure Position where
  line : Nat
  column : Nat
  deriving DecidableEq

namespace Position

/-- Where a source begins. -/
def origin : Position := ⟨1, 1⟩

/-- The position after one more character: only a line feed starts a line. -/
def advance (p : Position) (c : Char) : Position :=
  if c = '\n' then ⟨p.line + 1, 1⟩ else ⟨p.line, p.column + 1⟩

/-- The characters of `cs` that begin before the byte offset `offset`. -/
def before : (offset : Nat) → (cs : List Char) → List Char
  | _, [] => []
  | 0, _ :: _ => []
  | offset + 1, c :: cs => c :: before (offset + 1 - c.utf8Size) cs

/-- The position at a byte offset of a source. -/
def atOffset (cs : List Char) (offset : Nat) : Position :=
  (before offset cs).foldl advance origin

end Position

namespace Span

def text (s : Span) : String :=
  toString s.start ++ ".." ++ toString s.stop

/-- The positions of both ends; `none` if the span does not lie in the
source. -/
def positions? (s : Span) (source : String) : Option (Position × Position) :=
  if s.start ≤ s.stop ∧ s.stop ≤ utf8Length source.toList then
    some (Position.atOffset source.toList s.start, Position.atOffset source.toList s.stop)
  else
    none

end Span

end GraphPattern
