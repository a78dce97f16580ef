/-! Double-precision numbers as exact fractions: the fraction of a given number, and the number
nearest to a given fraction. -/
namespace ThreeAddress.Decimal

/-- A double-precision number by its meaning; a finite one is `mantissa * 2 ^ exponent`. -/
inductive Parts where
  | nan
  | infinite (negative : Bool)
  | finite (negative : Bool) (mantissa : Nat) (exponent : Int)

/-- The meaning of a double-precision number, read off its bits. -/
def parts (x : Float) : Parts :=
  let bits := x.toBits.toNat
  let negative := bits >>> 63 == 1
  let field : Nat := (bits >>> 52) % (1 <<< 11)
  let fraction : Nat := bits % (1 <<< 52)
  if field == 2047 then
    if fraction == 0 then .infinite negative else .nan
  else if field == 0 then .finite negative fraction (-1074)
  else .finite negative (1 <<< 52 + fraction) ((field : Int) - 1075)

/-- `num / den` to the nearest integer; a half goes to the even neighbour. -/
def roundDiv (num den : Nat) : Nat :=
  let q := num / den
  let r := num % den
  if 2 * r < den then q else if den < 2 * r then q + 1 else q + q % 2

/-- The fraction `num / den * base ^ e` as numerator and denominator. -/
def scale (base : Nat) (e : Int) (num den : Nat) : Nat × Nat :=
  if 0 ≤ e then (num * base.pow e.toNat, den) else (num, den * base.pow (-e).toNat)

/-- The greatest `k` with `2 ^ k ≤ num / den`, for a positive fraction. -/
def floorLog2 (num den : Nat) : Int :=
  let k : Int := num.log2 - den.log2
  let (n, d) := scale 2 (-k) num den
  if d ≤ n then k else k - 1

/-- The bits of infinity. -/
def infinityBits : Nat := 2047 <<< 52

/-- The bits of the double-precision number nearest to a positive fraction, ties going to the even
neighbour. Neighbouring numbers have neighbouring bits, so a mantissa that is rounded up to the next
power of two carries into the exponent by itself, and so does the largest finite number into
infinity. -/
def nearestBits (num den : Nat) : Nat :=
  let e := max (-1074) (floorLog2 num den - 52)
  let (n, d) := scale 2 (-e) num den
  min infinityBits ((e + 1074).toNat <<< 52 + roundDiv n d)

/-- The number with the given sign nearest to `num / den`. -/
def nearest (negative : Bool) (num den : Nat) : Float :=
  let bits := if num == 0 then 0 else nearestBits num den
  Float.ofBits (UInt64.ofNat (if negative then 1 <<< 63 + bits else bits))

/-- The infinity of the given sign. -/
def infinity (negative : Bool) : Float :=
  Float.ofBits (UInt64.ofNat (if negative then 1 <<< 63 + infinityBits else infinityBits))

/-- The quiet number that is no number. -/
def notANumber : Float := Float.ofBits 0x7FF8000000000001

end ThreeAddress.Decimal
