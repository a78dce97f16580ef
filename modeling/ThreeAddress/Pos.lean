import ThreeAddress.Text

/-! Positions in a source text and the spans between two of them. -/
namespace ThreeAddress

/-- A place in a source: line and column count from 1, the offset from 0, all in bytes. Positions
handed in with a token stream or a tree are taken as they are, so the numbers may be anything. -/
structure Pos where
  line : Int
  column : Int
  offset : Int
deriving DecidableEq, Repr

namespace Pos

/-- The position of something that stands nowhere. -/
def unknown : Pos := ⟨0, 0, 0⟩

/-- The first byte of a source. -/
def first : Pos := ⟨1, 1, 0⟩

def isKnown (p : Pos) : Bool := 0 < p.line

/-- Order by line, then by column. -/
def before (p q : Pos) : Bool :=
  if p.line ≠ q.line then p.line < q.line else p.column < q.column

/-- The position after the byte `b` that stands at `p`. -/
def step (p : Pos) (b : UInt8) : Pos :=
  if b == Text.lineFeed then ⟨p.line + 1, 1, p.offset + 1⟩
  else ⟨p.line, p.column + 1, p.offset + 1⟩

/-- The position after the text `s` that stands at `p`. -/
def advance (p : Pos) (s : Text) : Pos := s.foldl step p

/-- The position after a text of one line. -/
def past (p : Pos) (s : Text) : Pos :=
  ⟨p.line, p.column + s.length, p.offset + s.length⟩

/-- Line and column, after the name of the file if it has one. -/
def render (file : Text) (p : Pos) : Text :=
  let place := Text.ofInt p.line ++ ":" ++ Text.ofInt p.column
  if file.isEmpty then place else file ++ ":" ++ place

/-- A message with its place in front, if the place is known. -/
def locate (file : Text) (p : Pos) (message : Text) : Text :=
  if p.isKnown then p.render file ++ ": " ++ message else message

end Pos

/-- The stretch of source from `start` up to but not including `stop`. -/
structure Span where
  start : Pos
  stop : Pos
deriving DecidableEq, Repr

end ThreeAddress
