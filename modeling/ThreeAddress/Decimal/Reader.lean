import ThreeAddress.Decimal.Binary64
import ThreeAddress.Text

/-! Reading numbers: decimal and hexadecimal floating-point numerals, and integers in a given
base. -/
namespace ThreeAddress.Decimal

open Text

/-- The value of a digit, where hexadecimal ones include letters. -/
def digitValue (hexadecimal : Bool) (b : UInt8) : Option Nat :=
  let c := lower b
  if isDigit b then some (b.toNat - 48)
  else if hexadecimal && ascii 'a' ≤ c && c ≤ ascii 'f' then some (c.toNat - 87)
  else none

/-- What has been read of a mantissa. -/
structure Mantissa where
  /-- All digits read as one number. -/
  digits : Nat
  /-- The count of digits. -/
  count : Nat
  /-- The count of digits after the point. -/
  places : Nat
  point : Bool
  underscores : Bool

namespace Mantissa

def empty : Mantissa := ⟨0, 0, 0, false, false⟩

def push (base : Nat) (m : Mantissa) (d : Nat) : Mantissa :=
  { m with
    digits := m.digits * base + d
    count := m.count + 1
    places := if m.point then m.places + 1 else m.places }

end Mantissa

/-- Reads digits, underscores and at most one point; the rest of the text is returned. -/
def readMantissa (hexadecimal : Bool) (m : Mantissa) : Text → Mantissa × Text
  | [] => (m, [])
  | b :: s =>
    if b == ascii '_' then readMantissa hexadecimal { m with underscores := true } s
    else if b == ascii '.' then
      if m.point then (m, b :: s) else readMantissa hexadecimal { m with point := true } s
    else match digitValue hexadecimal b with
      | some d => readMantissa hexadecimal (m.push (if hexadecimal then 16 else 10) d) s
      | none => (m, b :: s)

/-- Reads the digits of an exponent, with underscores. An exponent of five digits or more is beyond
every range, so that later digits need not be taken in. Returns the value, whether there were
underscores, and the rest. -/
def readExponentDigits (e : Nat) (underscores : Bool) : Text → Nat × Bool × Text
  | [] => (e, underscores, [])
  | b :: s =>
    if b == ascii '_' then readExponentDigits e true s
    else if isDigit b then
      readExponentDigits (if e < 10000 then e * 10 + (b.toNat - 48) else e) underscores s
    else (e, underscores, b :: s)

/-- A sign at the start of a text, and the rest. -/
def readSign : Text → Bool × Text
  | [] => (false, [])
  | b :: s =>
    if b == ascii '-' then (true, s)
    else if b == ascii '+' then (false, s)
    else (false, b :: s)

/-- What stood before an underscore. -/
private inductive Seen where
  | nothing | digit | underscore | other
deriving DecidableEq

/-- Every underscore stands between two digits. -/
private def underscoresFrom (hexadecimal : Bool) (seen : Seen) : Text → Bool
  | [] => seen != .underscore
  | b :: s =>
    if (digitValue hexadecimal b).isSome then underscoresFrom hexadecimal .digit s
    else if b == ascii '_' then
      seen == .digit && underscoresFrom hexadecimal .underscore s
    else seen != .underscore && underscoresFrom hexadecimal .other s

/-- Underscores separate digits; a base mark such as `0x` counts as a digit here. -/
def underscoresOk (s : Text) : Bool :=
  match (readSign s).2 with
  | z :: mark :: rest =>
    let mark' := lower mark
    if z == ascii '0' && (mark' == ascii 'b' || mark' == ascii 'o' || mark' == ascii 'x') then
      underscoresFrom (mark' == ascii 'x') .digit rest
    else underscoresFrom false .nothing (z :: mark :: rest)
  | rest => underscoresFrom false .nothing rest

/-- A numeral that has been read: `±digits * base ^ -places`, times ten or two to the `exponent`. -/
structure Numeral where
  negative : Bool
  hexadecimal : Bool
  digits : Nat
  places : Nat
  exponent : Int

/-- Reads a numeral that takes up the whole text. A hexadecimal one has an exponent of two after
`p`, and cannot do without it; a decimal one may have an exponent of ten after `e`. -/
def Numeral.read? (s : Text) : Option Numeral :=
  let (negative, body) := readSign s
  let (hexadecimal, body) := match body with
    | z :: x :: b :: rest =>
      if z == ascii '0' && lower x == ascii 'x' then (true, b :: rest) else (false, body)
    | _ => (false, body)
  let (m, rest) := readMantissa hexadecimal .empty body
  let mark := if hexadecimal then ascii 'p' else ascii 'e'
  let finish (exponent : Int) (underscores : Bool) (rest : Text) : Option Numeral :=
    if !rest.isEmpty || (underscores && !underscoresOk s) then none
    else some ⟨negative, hexadecimal, m.digits, m.places, exponent⟩
  if m.count == 0 then none
  else match rest with
    | [] => if hexadecimal then none else finish 0 m.underscores []
    | b :: rest =>
      if lower b != mark then none
      else
        let (minus, digits) := readSign rest
        match digits with
        | [] => none
        | d :: _ =>
          if !isDigit d then none
          else
            let (e, underscores, rest) := readExponentDigits 0 m.underscores digits
            finish (if minus then -e else e) underscores rest

/-- The double-precision number nearest to a numeral. Beyond the given magnitudes the result is
infinity or zero, whatever the digits are. -/
def Numeral.toFloat (x : Numeral) : Float :=
  if x.digits == 0 then nearest x.negative 0 1
  else if x.hexadecimal then
    let e := x.exponent - 4 * x.places
    let magnitude := x.digits.log2 + e
    if 1100 < magnitude then infinity x.negative
    else if magnitude < -1200 then nearest x.negative 0 1
    else
      let (n, d) := scale 2 e x.digits 1
      nearest x.negative n d
  else
    let e := x.exponent - x.places
    let magnitude := (ofNat x.digits).length + e
    if 400 < magnitude then infinity x.negative
    else if magnitude < -400 then nearest x.negative 0 1
    else
      let (n, d) := scale 10 e x.digits 1
      nearest x.negative n d

/-- A number read from a text, and whether it lies within the range of finite numbers or was
written as an infinity. -/
structure Reading where
  value : Float
  inRange : Bool

/-- Infinity and NaN by name, in capitals or small letters; only infinity takes a sign. -/
def readSpecial (s : Text) : Option Float :=
  let (negative, body) := readSign s
  let word := body.map lower
  if word == "inf" || word == "infinity" then some (infinity negative)
  else if s.map lower == "nan" then some notANumber
  else none

/-- The number that a whole text spells. A magnitude that is too large reads as infinity, out of
range; one that is too small reads as zero. -/
def readFloat (s : Text) : Option Reading :=
  match readSpecial s with
  | some x => some ⟨x, true⟩
  | none => (Numeral.read? s).map fun n =>
    let x := n.toFloat
    ⟨x, !x.isInf⟩

/-- The digits of a text as a number in the given base of at most ten, if it has nothing else. -/
def readDigits (base : Nat) : Nat → Text → Option Nat
  | n, [] => some n
  | n, b :: s =>
    if isDigit b && b.toNat - 48 < base then readDigits base (n * base + (b.toNat - 48)) s else none

/-- The signed integer that a whole text spells in the given base, if 64 bits can hold it. -/
def readInt (base : Nat) (s : Text) : Option Int64 :=
  let (negative, body) := readSign s
  if body.isEmpty then none
  else match readDigits base 0 body with
    | none => none
    | some n =>
      let limit := if negative then 1 <<< 63 else 1 <<< 63 - 1
      if n ≤ limit then some (Int64.ofInt (if negative then -n else n)) else none

end ThreeAddress.Decimal
