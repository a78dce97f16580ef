/-! Texts as byte sequences. A source need not be valid UTF-8, and every column, offset and
length counts bytes, so bytes are what a text is made of. -/
namespace ThreeAddress

/-- A text is the sequence of its bytes. -/
abbrev Text := List UInt8

namespace Text

/-- The UTF-8 bytes of a string. -/
def ofString (s : String) : Text := s.toList.flatMap String.utf8EncodeChar

instance : Coe String Text := ⟨ofString⟩

/-- The byte of an ASCII character. -/
def ascii (c : Char) : UInt8 := c.toUInt8

def lineFeed : UInt8 := ascii '\n'

def isDigit (b : UInt8) : Bool := ascii '0' ≤ b && b ≤ ascii '9'

/-- The bytes that may begin an identifier. -/
def isLetter (b : UInt8) : Bool :=
  (ascii 'A' ≤ b && b ≤ ascii 'Z') || (ascii 'a' ≤ b && b ≤ ascii 'z') || b == ascii '_'

/-- The bytes that may continue an identifier. -/
def isWordByte (b : UInt8) : Bool := isLetter b || isDigit b

/-- An ASCII capital becomes its small letter; every other byte stays. -/
def lower (b : UInt8) : UInt8 :=
  if ascii 'A' ≤ b && b ≤ ascii 'Z' then b + 32 else b

/-- The number of digits that `s` starts with. -/
def digitRun (s : Text) : Nat := (s.takeWhile isDigit).length

/-- The length of the identifier that `s` starts with, 0 if it starts with none. -/
def wordLength : Text → Nat
  | [] => 0
  | b :: s => if isLetter b then 1 + (s.takeWhile isWordByte).length else 0

/-- A text that is one identifier from end to end. -/
def isIdentifier (s : Text) : Bool := !s.isEmpty && wordLength s == s.length

/-- Decimal digits of a natural number. -/
def ofNat (n : Nat) : Text := (Nat.toDigits 10 n).map Char.toUInt8

/-- Decimal digits of an integer, after a minus sign if it is negative. -/
def ofInt : Int → Text
  | .ofNat n => ofNat n
  | .negSucc n => ascii '-' :: ofNat (n + 1)

/-- Hexadecimal digits of `n` in small letters, padded with zeros to `width`. -/
def hex (width n : Nat) : Text :=
  let digits := (Nat.toDigits 16 n).map Char.toUInt8
  List.replicate (width - digits.length) (ascii '0') ++ digits

/-- Pads with zeros on the left to at least `width` bytes. -/
def padZero (width : Nat) (s : Text) : Text :=
  List.replicate (width - s.length) (ascii '0') ++ s

/-- Pads with spaces on the right to at least `width` bytes. -/
def padSpace (width : Nat) (s : Text) : Text :=
  s ++ List.replicate (width - s.length) (ascii ' ')

/-- The pieces of a text between the bytes equal to `sep`; always at least one piece. -/
def split (sep : UInt8) : Text → List Text
  | [] => [[]]
  | b :: s =>
    if b == sep then [] :: split sep s
    else match split sep s with
      | [] => [[b]]
      | piece :: rest => (b :: piece) :: rest

/-- The lines of a text, without their line feeds. -/
def lines (s : Text) : List Text := split lineFeed s

/-- Puts `sep` between consecutive pieces. -/
def join (sep : Text) : List Text → Text
  | [] => []
  | [s] => s
  | s :: rest => s ++ sep ++ join sep rest

/-- The text before and after the first byte equal to `sep`, if there is one. -/
def cut (sep : UInt8) : Text → Option (Text × Text)
  | [] => none
  | b :: s => if b == sep then some ([], s) else (cut sep s).map fun (x, y) => (b :: x, y)

/-- `s` without `front`, if it starts with it. -/
def stripFront (front s : Text) : Option Text :=
  if front.isPrefixOf s then some (s.drop front.length) else none

end Text

end ThreeAddress
