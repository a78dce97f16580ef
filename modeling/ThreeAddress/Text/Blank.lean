import ThreeAddress.Text.Rune

/-! White space in the sense of Unicode's `White_Space` property. -/
namespace ThreeAddress.Text

/-- The code points with the `White_Space` property. -/
def isBlankPoint (c : Nat) : Bool :=
  (9 ≤ c && c ≤ 13) || c == 0x20 || c == 0x85 || c == 0xA0 || c == 0x1680 ||
  (0x2000 ≤ c && c ≤ 0x200A) || c == 0x2028 || c == 0x2029 || c == 0x202F || c == 0x205F ||
  c == 0x3000

namespace Rune

/-- A stray byte is never white space. -/
def isBlank : Rune → Bool
  | .point c _ => isBlankPoint c
  | .stray _ => false

end Rune

/-- A text without the white space at both ends. -/
def trim (s : Text) : Text :=
  let front := (runes s).dropWhile Rune.isBlank
  (front.reverse.dropWhile Rune.isBlank).reverse.flatMap Rune.bytes

/-- The words of a sequence of units, with the word that is being read. -/
private def wordsFrom (word : Text) : List Rune → List Text
  | [] => if word.isEmpty then [] else [word]
  | r :: rs =>
    if r.isBlank then
      if word.isEmpty then wordsFrom [] rs else word :: wordsFrom [] rs
    else wordsFrom (word ++ r.bytes) rs

/-- The maximal pieces of a text that hold no white space. -/
def words (s : Text) : List Text := wordsFrom [] (runes s)

end ThreeAddress.Text
