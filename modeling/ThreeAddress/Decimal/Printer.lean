import ThreeAddress.Decimal.Shortest
import ThreeAddress.Text

/-! Decimal text of double-precision numbers. -/
namespace ThreeAddress.Decimal

/-- How a decimal number is laid out: which exponents are written positionally, and how special
values are spelled. -/
structure Style where
  /-- The least decimal exponent that is written positionally. -/
  least : Int
  /-- The least decimal exponent above it that is written with an exponent again. -/
  bound : Int
  nan : Text
  positive : Text
  negative : Text

/-- Number leaves: an exponent of a million or more, or below a ten-thousandth, is written out. -/
def Style.leaf : Style := ⟨-4, 6, "NaN", "+Inf", "-Inf"⟩

/-- Values of variables: as leaves, with the special values in small letters. -/
def Style.result : Style := ⟨-4, 6, "nan", "inf", "-inf"⟩

/-- `e` with a sign and at least two digits. -/
def exponentText (e : Int) : Text :=
  let sign : Text := if e < 0 then "e-" else "e+"
  sign ++ Text.padZero 2 (Text.ofNat e.natAbs)

/-- A decimal number in the given style. -/
def Scientific.render (style : Style) (x : Scientific) : Text :=
  let digits := Text.ofNat x.coefficient
  let point := digits.length + x.exponent
  let e := point - 1
  if x.coefficient == 0 then "0"
  else if e < style.least || style.bound ≤ e then
    let fraction := digits.drop 1
    let mantissa := if fraction.isEmpty then digits else digits.take 1 ++ "." ++ fraction
    mantissa ++ exponentText e
  else if point ≤ 0 then
    "0." ++ List.replicate (-point).toNat (Text.ascii '0') ++ digits
  else
    let whole := digits.take point.toNat ++
      List.replicate (point.toNat - digits.length) (Text.ascii '0')
    let fraction := digits.drop point.toNat
    if fraction.isEmpty then whole else whole ++ "." ++ fraction

/-- A minus sign in front, if asked for. -/
def signed (negative : Bool) (s : Text) : Text :=
  if negative then "-" ++ s else s

/-- A number leaf: the fewest digits that read back. -/
def leafText (x : Float) : Text :=
  match parts x with
  | .nan => Style.leaf.nan
  | .infinite negative => if negative then Style.leaf.negative else Style.leaf.positive
  | .finite negative m e => signed negative ((shortest m e).render .leaf)

/-- The value of a variable: a whole number below 10^15 in full, anything else in six significant
digits. -/
def resultText (x : Float) : Text :=
  match parts x with
  | .nan => Style.result.nan
  | .infinite negative => if negative then Style.result.negative else Style.result.positive
  | .finite negative m e =>
    let (n, d) := scale 2 e m 1
    if n % d == 0 && n / d < 1000000000000000 then signed negative (Text.ofNat (n / d))
    else signed negative ((significant 6 m e).render .result)

end ThreeAddress.Decimal
