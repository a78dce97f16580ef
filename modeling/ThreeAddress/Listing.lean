import ThreeAddress.Instr.Lowering

/-! A lowered program and its texts: the lines of C, the whole C program, and a listing of symbols
and instructions. -/
namespace ThreeAddress

/-- A lowered program. The counts of temporaries and labels are as stated, for a listing that was
put together by hand. -/
structure Listing where
  code : List Instr
  type : Text
  symbols : List Symbol
  temps : Int
  labels : Int

namespace Listing

/-- What comes before the instructions in a C program. -/
def header : Text := "#include <stdio.h>\n\nint main() \x7b\n"

/-- What comes after the instructions in a C program. -/
def footer : Text := "return 0;\n\x7d\n"

/-- The instructions as lines of C. -/
def body (l : Listing) : Text := l.code.flatMap fun i => i.action.render ++ [Text.lineFeed]

/-- The whole C program, without indentation. -/
def text (l : Listing) : Text := header ++ l.body ++ footer

/-- A symbol of a listing, on a line of its own. -/
def symbolLine (file type : Text) (s : Symbol) : Text :=
  "  [" ++ Text.ofNat s.index ++ "] " ++ type ++ " " ++ s.name ++ " (" ++ s.pos.render file ++ ")\n"

/-- The symbols of a listing under a heading; nothing if there are none. -/
def symbolLines (file : Text) (l : Listing) : Text :=
  if l.symbols.isEmpty then []
  else Text.ofString "=== Symbols ===\n" ++ l.symbols.flatMap (symbolLine file l.type) ++ "\n"

/-- The instructions of a listing with their numbers, from `n` on. -/
def instrLines (n : Nat) : List Instr → Text
  | [] => []
  | i :: rest =>
    "  " ++ Text.padZero 4 (Text.ofNat n) ++ ": " ++ Text.padSpace 8 i.action.describe ++ " " ++
      i.action.render ++ "\n" ++ instrLines (n + 1) rest

/-- A listing for people to read. -/
def disassemble (file : Text) (l : Listing) : Text :=
  l.symbolLines file ++ "=== Code (" ++ Text.ofInt l.temps ++ " temps, " ++ Text.ofInt l.labels ++
    " labels) ===\n" ++ instrLines 0 l.code

end Listing

/-- The lowered form of a program. -/
def Program.lower (scheme : Scheme) (p : Program) : Except LoweringError Listing :=
  let (result, g) := (Generator.new scheme).generate p
  result.map fun code =>
    ⟨code, g.scheme.type, g.names.symbols.symbols, g.names.temps, g.names.labels⟩

end ThreeAddress
