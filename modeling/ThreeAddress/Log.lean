import ThreeAddress.Text.Blank
import ThreeAddress.Text.Quoted

/-! Log records about the phases of a compilation, as lines of `key=value` pairs or as JSON. -/
namespace ThreeAddress.Log

inductive Level where
  | debug | info | warn | error
deriving DecidableEq, Repr

namespace Level

def rank : Level → Nat
  | .debug => 0
  | .info => 1
  | .warn => 2
  | .error => 3

def describe : Level → Text
  | .debug => "DEBUG"
  | .info => "INFO"
  | .warn => "WARN"
  | .error => "ERROR"

/-- The level with the given number; any other number means `info`. -/
def ofInt (n : Int) : Level :=
  if n == 0 then .debug else if n == 2 then .warn else if n == 3 then .error else .info

end Level

/-- The value of an attribute. -/
inductive Attr where
  | text (s : Text)
  | number (n : Int)

structure Record where
  level : Level
  message : Text
  attrs : List (Text × Attr)

namespace Record

def debug (message : Text) : Record := ⟨.debug, message, []⟩

def info (message : Text) : Record := ⟨.info, message, []⟩

def warn (message : Text) : Record := ⟨.warn, message, []⟩

/-- All tokens of a source have been read. -/
def lexing (file : Text) (tokens : Int) : Record :=
  ⟨.debug, "lexing complete", [("file", .text file), ("tokens", .number tokens)]⟩

/-- The tree of a source has been built. -/
def parsing (file : Text) (statements : Int) : Record :=
  ⟨.debug, "parsing complete", [("file", .text file), ("statements", .number statements)]⟩

/-- The instructions of a program have been generated. -/
def lowering (file : Text) (instructions temps labels symbols : Int) : Record :=
  ⟨.debug, "lowering complete",
    [("file", .text file), ("instructions", .number instructions), ("temps", .number temps),
      ("labels", .number labels), ("symbols", .number symbols)]⟩

/-- A program has been run to its end. -/
def run (file : Text) (steps vars : Int) : Record :=
  ⟨.info, "run complete",
    [("file", .text file), ("steps", .number steps), ("variables", .number vars)]⟩

/-- A warning about a source. -/
def warning (file : Text) (line : Int) (message : Text) : Record :=
  ⟨.warn, "source warning",
    [("file", .text file), ("line", .number line), ("message", .text message)]⟩

end Record

inductive Format where
  | text | json
deriving DecidableEq, Repr

/-- A unit that keeps a value from standing in a pair without quotes. A backslash does not. -/
def needsQuotes : Text.Rune → Bool
  | .stray _ => true
  | .point c _ =>
    if c < 0x80 then c ≤ 0x20 || c == 0x3D || c == 0x22
    else c == 0xFFFD || Text.isBlankPoint c || !Text.isPrintable c

/-- A value in a pair: as it is, or quoted if it is empty or could be misread. -/
def pairValue (s : Text) : Text :=
  if s.isEmpty || s.runes.any needsQuotes then s.quote else s

/-- A unit of a JSON string. -/
def jsonRune : Text.Rune → Text
  | .stray _ => "\\ufffd"
  | .point c bytes =>
    if c == 0x22 || c == 0x5C then Text.ascii '\\' :: bytes
    else if c == 10 then "\\n"
    else if c == 13 then "\\r"
    else if c == 9 then "\\t"
    else if c < 0x20 || c == 0x2028 || c == 0x2029 then "\\u" ++ Text.hex 4 c
    else bytes

def jsonString (s : Text) : Text := "\"" ++ s.runes.flatMap jsonRune ++ "\""

namespace Record

/-- The record as pairs. -/
def pairs (r : Record) : Text :=
  let attr : Text × Attr → Text
    | (key, .text s) => " " ++ key ++ "=" ++ pairValue s
    | (key, .number n) => " " ++ key ++ "=" ++ Text.ofInt n
  "level=" ++ r.level.describe ++ " msg=" ++ pairValue r.message ++ r.attrs.flatMap attr

/-- The record as a JSON object. -/
def json (r : Record) : Text :=
  let attr : Text × Attr → Text
    | (key, .text s) => "," ++ jsonString key ++ ":" ++ jsonString s
    | (key, .number n) => "," ++ jsonString key ++ ":" ++ Text.ofInt n
  "\x7b\"level\":" ++ jsonString r.level.describe ++ ",\"msg\":" ++ jsonString r.message ++
    r.attrs.flatMap attr ++ "\x7d"

end Record

/-- Where records go: those below `level` are dropped. -/
structure Sink where
  level : Level
  format : Format

/-- The line that a record adds to the log; nothing while logging is off. -/
def write (sink : Option Sink) (r : Record) : Text :=
  match sink with
  | none => []
  | some s =>
    if r.level.rank < s.level.rank then []
    else (match s.format with
      | .text => r.pairs
      | .json => r.json) ++ [Text.lineFeed]

end ThreeAddress.Log
