import ThreeAddress.Text

/-! UTF-8 decoding of a byte sequence that may be invalid: every byte belongs to exactly one
unit, which is a well-formed code point or a single stray byte. -/
namespace ThreeAddress.Text

/-- A continuation byte, with bounds that the byte before it may narrow. -/
def continues (b : UInt8) (lo : UInt8) (hi : UInt8) : Bool := lo ≤ b && b ≤ hi

/-- The least and greatest byte allowed after the leading byte `b` of a longer sequence. Overlong
forms, surrogates and code points above U+10FFFF are excluded here. -/
def secondRange (b : UInt8) : UInt8 × UInt8 :=
  if b == 0xE0 then (0xA0, 0xBF)
  else if b == 0xED then (0x80, 0x9F)
  else if b == 0xF0 then (0x90, 0xBF)
  else if b == 0xF4 then (0x80, 0x8F)
  else (0x80, 0xBF)

/-- The code point at the start of a text and the number of its bytes; `none` if the text is
empty or starts with an invalid sequence. -/
def decode : Text → Option (Nat × Nat)
  | [] => none
  | b :: s =>
    if b < 0x80 then some (b.toNat, 1)
    else if b < 0xC2 || 0xF4 < b then none
    else
      let (lo, hi) := secondRange b
      match s with
      | c :: s =>
        if !continues c lo hi then none
        else if b < 0xE0 then some ((b.toNat - 0xC0) * 64 + (c.toNat - 0x80), 2)
        else match s with
          | d :: s =>
            if !continues d 0x80 0xBF then none
            else if b < 0xF0 then
              some (((b.toNat - 0xE0) * 64 + (c.toNat - 0x80)) * 64 + (d.toNat - 0x80), 3)
            else match s with
              | e :: _ =>
                if !continues e 0x80 0xBF then none
                else some ((((b.toNat - 0xF0) * 64 + (c.toNat - 0x80)) * 64 +
                  (d.toNat - 0x80)) * 64 + (e.toNat - 0x80), 4)
              | [] => none
          | [] => none
      | [] => none

/-- The number of bytes of the first unit: those of its code point, or one stray byte. -/
def runeLength (s : Text) : Nat :=
  match decode s with
  | some (_, n) => n
  | none => 1

/-- A well-formed code point with its bytes, or a byte that belongs to none. -/
inductive Rune where
  | point (code : Nat) (bytes : Text)
  | stray (byte : UInt8)

namespace Rune

def bytes : Rune → Text
  | .point _ bs => bs
  | .stray b => [b]

end Rune

/-- The units from the place `skip` bytes ahead. -/
private def runesFrom : Nat → Text → List Rune
  | _, [] => []
  | skip + 1, _ :: s => runesFrom skip s
  | 0, b :: s =>
    match decode (b :: s) with
    | some (code, n) => .point code ((b :: s).take n) :: runesFrom (n - 1) s
    | none => .stray b :: runesFrom 0 s

/-- The units of a text in order. -/
def runes (s : Text) : List Rune := runesFrom 0 s

private theorem runesFrom_eq (skip : Nat) (s : Text) : runesFrom skip s = runes (s.drop skip) := by
  induction s generalizing skip with
  | nil => cases skip <;> rfl
  | cons b s ih =>
    cases skip with
    | zero => rfl
    | succ skip => exact ih skip

@[simp] theorem runes_nil : runes [] = [] := rfl

theorem runes_of_decode {b : UInt8} {s : Text} {code n : Nat}
    (h : decode (b :: s) = some (code, n)) :
    runes (b :: s) = .point code ((b :: s).take n) :: runes (s.drop (n - 1)) := by
  rw [← runesFrom_eq, runes, runesFrom, h]

theorem runes_of_stray {b : UInt8} {s : Text} (h : decode (b :: s) = none) :
    runes (b :: s) = .stray b :: runes s := by
  rw [runes, runesFrom, h, runesFrom_eq, List.drop_zero]

end ThreeAddress.Text
