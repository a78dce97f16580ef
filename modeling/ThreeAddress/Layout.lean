import ThreeAddress.Syntax.Printer
import ThreeAddress.Text.Blank

/-! Layout of C text: blank lines collapse to one, and every other line is indented by the depth of
braces, with labels one level to the left. Nothing but white space changes. -/
namespace ThreeAddress.Layout

/-- A line that starts with an identifier and a colon. -/
def isLabelLine (s : Text) : Bool :=
  let n := Text.wordLength s
  n != 0 && (s.drop n).head? == some (Text.ascii ':')

/-- A line that stands one level to the left of the code around it. -/
def isOutdented (s : Text) : Bool := s.head? == some (Text.ascii '\x7d') || isLabelLine s

/-- The depth of braces after a line; it never falls below zero. -/
def depthAfter (depth : Nat) (line : Text) : Nat :=
  depth + line.count (Text.ascii '\x7b') - line.count (Text.ascii '\x7d')

/-- The lines with new indentation, at the given depth. `blank` tells that the line before was
blank. -/
def indent (depth : Nat) (blank : Bool) : List Text → List Text
  | [] => []
  | line :: rest =>
    let trimmed := line.trim
    if trimmed.isEmpty then
      if blank then indent depth true rest else [] :: indent depth true rest
    else
      let level := if isOutdented trimmed then depth - 1 else depth
      (indentation level ++ trimmed) :: indent (depthAfter depth trimmed) false rest

/-- A text laid out anew. -/
def format (s : Text) : Text := Text.join [Text.lineFeed] (indent 0 false s.lines)

end ThreeAddress.Layout
