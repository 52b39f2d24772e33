import PlanningDomain.Source.Text

namespace PlanningDomain

/-!
# Lines and columns

Messages name a place by its line and its column.  Both count from one.  A
line ends at a line feed and at nothing else, and a column counts characters,
however many bytes each of them takes.
-/

/-- A line and a column, both counted from one. -/
structure Position where
  line : Nat
  column : Nat
deriving DecidableEq, Repr

namespace Position

/-- The beginning of every source. -/
def origin : Position :=
  ⟨1, 1⟩

/-- The position right after a character that stands at this position. -/
def after (position : Position) (char : Char) : Position :=
  if char = '\n' then ⟨position.line + 1, 1⟩ else ⟨position.line, position.column + 1⟩

/-- The position reached from this one by `count` bytes of text.  A character
that does not fit into the bytes is not passed. -/
def advance (position : Position) : List Char -> Nat -> Position
  | [], _ => position
  | char :: rest, count =>
      if char.utf8Size ≤ count then
        (position.after char).advance rest (count - char.utf8Size)
      else
        position

end Position

namespace Source

/-- The position of a byte offset.  An offset past the end has the position
of the end. -/
def position (source : Source) (offset : Nat) : Position :=
  Position.origin.advance source.chars offset

/-- Offsets that have a position of their own: the boundaries, and everything
past the end, which counts as the end. -/
def hasPosition (source : Source) (offset : Nat) : Bool :=
  source.isBoundary (min offset source.size)

end Source

end PlanningDomain
