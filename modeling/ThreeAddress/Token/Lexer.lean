import ThreeAddress.Token
import ThreeAddress.Text.Rune

/-! Scanning a source into tokens. At every place that is not inside a piece already read, the next
piece is either a gap (a blank or a comment) or the longest lexeme that starts there; a place where
neither starts yields an illegal token of one code point. -/
namespace ThreeAddress

open Text

/-- Every spelling of an operator or delimiter, the longer ones first. Floor division is written as
plain division. -/
def Op.lexemes : List (Text × Op) :=
  [("//=", .overAssign),
   ("+=", .plusAssign), ("-=", .minusAssign), ("*=", .timesAssign), ("/=", .overAssign),
   ("//", .over), ("==", .equal), ("!=", .notEqual), ("<=", .lessEqual), (">=", .greaterEqual),
   ("&&", .and), ("||", .or),
   ("+", .plus), ("-", .minus), ("*", .times), ("/", .over), ("%", .percent), ("=", .assign),
   ("!", .not), ("<", .less), (">", .greater), ("(", .lparen), (")", .rparen),
   ("\x7b", .lbrace), ("\x7d", .rbrace), (",", .comma), (";", .semicolon), (":", .colon)]

namespace Lexer

/-- Blanks separate tokens and mean nothing else; a line feed is one of them. -/
def isGap (b : UInt8) : Bool :=
  b == ascii ' ' || b == ascii '\t' || b == ascii '\r' || b == lineFeed

/-- The length of a complete exponent (`e10`, `E-3`) at the start of `s`, or 0. -/
def exponentLength : Text → Nat
  | [] => 0
  | e :: s =>
    if e == ascii 'e' || e == ascii 'E' then
      let sign := match s with
        | b :: _ => if b == ascii '+' || b == ascii '-' then 1 else 0
        | [] => 0
      let digits := digitRun (s.drop sign)
      if digits == 0 then 0 else 1 + sign + digits
    else 0

/-- The length of `digits`, `digits.`, `digits.digits` or `.digits` at the start of `s`, or 0. -/
def mantissaLength (s : Text) : Nat :=
  let whole := digitRun s
  match s.drop whole with
  | [] => whole
  | b :: rest =>
    if b == ascii '.' then
      let fraction := digitRun rest
      if whole == 0 && fraction == 0 then 0 else whole + 1 + fraction
    else whole

/-- The length of the number at the start of `s`, or 0. -/
def numberLength (s : Text) : Nat :=
  let m := mantissaLength s
  if m == 0 then 0 else m + exponentLength (s.drop m)

/-- The kind and length of the lexeme at the start of a text that is not empty and starts with no
gap. -/
def lexeme (s : Text) : Kind × Nat :=
  let digits := numberLength s
  let letters := wordLength s
  if digits != 0 then (.number, digits)
  else if letters != 0 then (.ofWord (s.take letters), letters)
  else match Op.lexemes.find? fun (spelling, _) => spelling.isPrefixOf s with
    | some (spelling, o) => (.op o, spelling.length)
    | none => (.illegal, runeLength s)

/-- The tokens of `s`, where the first `skip` bytes belong to a piece that is already read and `p`
is the position of the first byte. -/
def scan : Nat → Pos → Text → List Token
  | _, _, [] => []
  | skip + 1, p, b :: s => scan skip (p.step b) s
  | 0, p, b :: s =>
    if isGap b then scan 0 (p.step b) s
    else if b == ascii '#' then scan (s.takeWhile (· != lineFeed)).length (p.step b) s
    else
      let (kind, length) := lexeme (b :: s)
      ⟨kind, (b :: s).take length, p⟩ :: scan (length - 1) (p.step b) s

end Lexer

/-- A source that is read one token at a time: the bytes left, the position of the first of them,
and how many of them belong to a piece that is already read. -/
structure Scanner where
  skip : Nat
  pos : Pos
  rest : Text

namespace Scanner

def start (s : Text) : Scanner := ⟨0, Pos.first, s⟩

/-- The next token after gaps, and the scanner behind it. At the end of the source that is the end
of file, however often it is asked for. -/
def nextFrom : Nat → Pos → Text → Token × Scanner
  | _, p, [] => (⟨.eof, [], p⟩, ⟨0, p, []⟩)
  | skip + 1, p, b :: s => nextFrom skip (p.step b) s
  | 0, p, b :: s =>
    if Lexer.isGap b then nextFrom 0 (p.step b) s
    else if b == ascii '#' then nextFrom (s.takeWhile (· != lineFeed)).length (p.step b) s
    else
      let (kind, length) := Lexer.lexeme (b :: s)
      (⟨kind, (b :: s).take length, p⟩, ⟨length - 1, p.step b, s⟩)

def next (sc : Scanner) : Token × Scanner := nextFrom sc.skip sc.pos sc.rest

end Scanner

namespace Token

/-- The tokens of a source, without the end of file. -/
def tokenize (s : Text) : List Token := Lexer.scan 0 Pos.first s

/-- The token that stands for the end of a source. -/
def endOf (s : Text) : Token := ⟨.eof, [], Pos.first.advance s⟩

end Token

end ThreeAddress
