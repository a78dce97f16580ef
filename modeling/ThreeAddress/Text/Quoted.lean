import ThreeAddress.Text.Rune
import ThreeAddress.Text.Printable

/-! Double-quoted form of a text. Printable code points stand for themselves; everything else,
stray bytes included, is escaped, so that a quoted text is printable and on one line. -/
namespace ThreeAddress.Text

/-- The letter of the short escapes. -/
private def shortEscape : Nat → Option Char
  | 7 => some 'a'
  | 8 => some 'b'
  | 9 => some 't'
  | 10 => some 'n'
  | 11 => some 'v'
  | 12 => some 'f'
  | 13 => some 'r'
  | _ => none

/-- A unit as it stands between double quotes. -/
def escapeRune : Rune → Text
  | .stray b => "\\x" ++ hex 2 b.toNat
  | .point c bytes =>
    if c == 0x22 || c == 0x5C then ascii '\\' :: bytes
    else if isPrintable c then bytes
    else match shortEscape c with
      | some letter => [ascii '\\', ascii letter]
      | none =>
        if c < 0x80 then "\\x" ++ hex 2 c
        else if c < 0x10000 then "\\u" ++ hex 4 c
        else "\\U" ++ hex 8 c

/-- The text between double quotes. -/
def quote (s : Text) : Text := "\"" ++ (runes s).flatMap escapeRune ++ "\""

end ThreeAddress.Text
