import ThreeAddress.Decimal.Binary64

/-! Decimal digits of a double-precision number: the fewest that read back as the same number, and
a given count of significant ones. -/
namespace ThreeAddress.Decimal

/-- The decimal number `coefficient * 10 ^ exponent`. -/
structure Scientific where
  coefficient : Nat
  exponent : Int

namespace Scientific

/-- Drops up to `fuel` zeros from the end of the coefficient. -/
def dropZeros : Nat → Scientific → Scientific
  | 0, x => x
  | fuel + 1, x =>
    if x.coefficient % 10 == 0 then dropZeros fuel ⟨x.coefficient / 10, x.exponent + 1⟩ else x

/-- The same number with a coefficient that ends in no zero. -/
def normalize (x : Scientific) : Scientific :=
  if x.coefficient == 0 then ⟨0, 0⟩ else dropZeros x.coefficient.log2 x

end Scientific

/-- Raises `p` until `num / den < 10 ^ p`, at most `fuel` times. -/
def raise (num den : Nat) : Nat → Int → Int
  | 0, p => p
  | fuel + 1, p =>
    let (n, d) := scale 10 (-p) num den
    if n < d then p else raise num den fuel (p + 1)

/-- The least `p` with `num / den < 10 ^ p`, for a positive fraction. The search starts from a lower
bound that the binary logarithm gives and that is at most two too low. -/
def pointOf (num den : Nat) : Int :=
  raise num den 4 ((floorLog2 num den * 30103) / 100000)

/-- The interval of the reals that round to `mantissa * 2 ^ exponent`, over a common denominator:
its lower end, the number itself, its upper end, and the denominator. Below a power of two the
neighbour is only half as far away. -/
def interval (mantissa : Nat) (exponent : Int) : Nat × Nat × Nat × Nat :=
  let below := if mantissa == 1 <<< 52 && exponent != -1074 then 1 else 2
  let (unit, den) := scale 2 (exponent - 2) 1 1
  ((4 * mantissa - below) * unit, 4 * mantissa * unit, (4 * mantissa + 2) * unit, den)

/-- The first count of digits, from `count` on, with a decimal that reads back. -/
def search (mantissa : Nat) (exponent : Int) (point : Int) : Nat → Nat → Scientific
  | 0, count => -- as many digits as any double-precision number needs
    let (_, v, _, den) := interval mantissa exponent
    let (n, d) := scale 10 (count - point) v den
    ⟨roundDiv n d, point - count⟩
  | fuel + 1, count =>
    let (lo, v, hi, den) := interval mantissa exponent
    let shift := count - point
    let (n, d) := scale 10 shift v den
    let readsBack (c : Nat) : Bool :=
      let (c', lo') := scale 10 (-shift) (c * den) 1
      let inside := if mantissa % 2 == 0 then lo * lo' ≤ c' && c' ≤ hi * lo'
        else lo * lo' < c' && c' < hi * lo'
      inside
    let near := roundDiv n d
    let down := n / d
    if readsBack near then ⟨near, -shift⟩
    else if readsBack down then ⟨down, -shift⟩
    else if readsBack (down + 1) then ⟨down + 1, -shift⟩
    else search mantissa exponent point fuel (count + 1)

/-- The decimal with the fewest digits among those that read back as `mantissa * 2 ^ exponent`, and
of these the nearest. -/
def shortest (mantissa : Nat) (exponent : Int) : Scientific :=
  if mantissa == 0 then ⟨0, 0⟩
  else
    let (n, d) := scale 2 exponent mantissa 1
    (search mantissa exponent (pointOf n d) 16 1).normalize

/-- The decimal with at most `count` significant digits nearest to `mantissa * 2 ^ exponent`. -/
def significant (count : Nat) (mantissa : Nat) (exponent : Int) : Scientific :=
  if mantissa == 0 then ⟨0, 0⟩
  else
    let (n, d) := scale 2 exponent mantissa 1
    let point := pointOf n d
    let (n, d) := scale 10 (count - point) n d
    (Scientific.mk (roundDiv n d) (point - count)).normalize

end ThreeAddress.Decimal
