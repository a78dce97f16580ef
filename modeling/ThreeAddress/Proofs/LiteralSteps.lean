import Mathlib
import ThreeAddress.Proofs.ExpressionCode

/-! Integer literals under signs, as the steps of loops. The direction of a loop is decided by a
double-precision number and its counter moves by a 64-bit integer: both are read from the same
digits, and they have the same sign. -/
namespace ThreeAddress

open Float.Model Float.Model.UnpackedFloat

/-- The fields of a number other than zero: exponent and mantissa are not both zero, and beside the
greatest exponent the mantissa is. -/
def IsMagnitude (e : BitVec 11) (m : BitVec 52) : Prop :=
  (e = 2047#11 → m = 0#52) ∧ (e = 0#11 → m ≠ 0#52)

theorem IsMagnitude.pack_unpack {e : BitVec 11} {m : BitVec 52} (h : IsMagnitude e m) (s : Sign) :
    (unpack .binary64 (packComponents .binary64 s e m)).pack .binary64 =
      packComponents .binary64 s e m := by
  have hnumber : isNaNBits (packComponents .binary64 s e m) = false := by
    simpa [isNaNBits] using h.1
  rw [UnpackedFloat.pack_unpack, hnumber]
  rfl

/-- What a number other than zero is unpacked to. A negation turns the sign alone, and the sign
tells the side of zero. -/
theorem IsMagnitude.unpacked {e : BitVec 11} {m : BitVec 52} (h : IsMagnitude e m) :
    ∃ u : Sign → UnpackedFloat, ∀ s, unpack .binary64 (packComponents .binary64 s e m) = u s ∧
      (u s).neg = u (-s) ∧ (u s).le (.zero .positive) = (s == .negative) := by
  have hbias : ((Format.binary64.exponentBias : Nat) : Int) = 1023 := rfl
  by_cases hinf : e = 2047#11
  · obtain rfl := hinf
    obtain rfl := h.1 rfl
    refine ⟨.infinity, fun s => ⟨?_, rfl, ?_⟩⟩
    · simp [UnpackedFloat.unpack]
    · cases s <;> rfl
  by_cases hzero : e = 0#11
  · -- subnormal
    obtain rfl := hzero
    have hne := h.2 rfl
    have hpos : 0 < m.toNat := by simpa [BitVec.toNat_pos, BitVec.pos_iff_ne_zero] using hne
    refine ⟨fun s => .finite s m.toNat (-1074) hpos, fun s => ⟨?_, rfl, ?_⟩⟩
    · simp [UnpackedFloat.unpack, hne, hbias]
    · cases s <;> rfl
  · -- normal: the bit in front of the mantissa is not stored
    have hpos : 0 < (1#1 ++ m).toNat := by
      rw [BitVec.toNat_append, ← Nat.shiftLeft_add_eq_or_of_lt m.isLt]
      exact Nat.add_pos_left (by decide) _
    refine ⟨fun s => .finite s (1#1 ++ m).toNat (e.toNat - 1075) hpos, fun s => ⟨?_, rfl, ?_⟩⟩
    · simp [UnpackedFloat.unpack, hinf, hzero, hbias]
    · cases s <;> rfl

/-- A number other than zero, of the given sign. -/
def HasSign (s : Sign) (x : Float) : Prop :=
  ∃ e m, IsMagnitude e m ∧ x.toModel.toBits.toBitVec = packComponents .binary64 s e m

theorem HasSign.neg {s : Sign} {x : Float} (h : HasSign s x) : HasSign (-s) (-x) := by
  obtain ⟨e, m, hem, hx⟩ := h
  obtain ⟨u, hu⟩ := hem.unpacked
  obtain ⟨hunpack, hneg, -⟩ := hu s
  refine ⟨e, m, hem, ?_⟩
  show UnpackedFloat.pack .binary64 x.toModel.unpack.neg = _
  rw [Float.Model.unpack, hx, hunpack, hneg, ← (hu (-s)).1, hem.pack_unpack]

theorem HasSign.le_zero_iff {s : Sign} {x : Float} (h : HasSign s x) :
    x ≤ 0 ↔ s = .negative := by
  obtain ⟨e, m, hem, hx⟩ := h
  obtain ⟨u, hu⟩ := hem.unpacked
  obtain ⟨hunpack, -, hle⟩ := hu s
  have hzero : (0 : Float).toModel.unpack = .zero .positive := rfl
  have hcompare : x.toModel.unpack.le (0 : Float).toModel.unpack = (s == .negative) := by
    rw [Float.Model.unpack, hx, hunpack, hzero, hle]
  have hmodel : x ≤ 0 ↔ x.toModel.unpack.le (0 : Float).toModel.unpack = true := by
    show decide (x.toModel ≤ (0 : Float).toModel) = true ↔ _
    exact decide_eq_true_iff
  rw [hmodel, hcompare]
  cases s with
  | positive => exact ⟨fun h => absurd h (by decide), fun h => nomatch h⟩
  | negative => exact ⟨fun _ => rfl, fun _ => rfl⟩

/-- Positive numbers have the bits above those of zero, up to those of infinity. -/
theorem hasSign_ofBits {n : Nat} (hpos : 0 < n) (hle : n ≤ Decimal.infinityBits) :
    HasSign .positive (Float.ofBits (UInt64.ofNat n)) := by
  have hle : n ≤ 9218868437227405312 := hle
  have hem : IsMagnitude (BitVec.ofNat 11 (n / 4503599627370496)) (BitVec.ofNat 52 n) := by
    constructor
    · intro he
      have he := congrArg BitVec.toNat he
      apply BitVec.eq_of_toNat_eq
      simp only [BitVec.toNat_ofNat] at he ⊢
      omega
    · intro he hm
      have he := congrArg BitVec.toNat he
      have hm := congrArg BitVec.toNat hm
      simp only [BitVec.toNat_ofNat] at he hm
      omega
  have hbits : (UInt64.ofNat n).toBitVec = packComponents .binary64 .positive
      (BitVec.ofNat 11 (n / 4503599627370496)) (BitVec.ofNat 52 n) := by
    apply BitVec.eq_of_toNat_eq
    show n % 18446744073709551616 =
      ((0#1 ++ BitVec.ofNat 11 (n / 4503599627370496)) ++ BitVec.ofNat 52 n).toNat
    rw [BitVec.toNat_append, ← Nat.shiftLeft_add_eq_or_of_lt (BitVec.isLt _)]
    simp only [BitVec.toNat_append, BitVec.toNat_ofNat, Nat.shiftLeft_eq, Nat.zero_mod,
      Nat.zero_mul, Nat.zero_or]
    omega
  refine ⟨_, _, hem, ?_⟩
  show UnpackedFloat.pack .binary64 (UnpackedFloat.unpack .binary64 (UInt64.ofNat n).toBitVec) = _
  rw [hbits, hem.pack_unpack]

namespace Text

theorem isDigit_iff (b : UInt8) : isDigit b ↔ 48 ≤ b.toNat ∧ b.toNat ≤ 57 := by
  simp only [isDigit, Bool.and_eq_true, decide_eq_true_eq, UInt8.le_iff_toNat_le]
  exact Iff.rfl

theorem beq_of_isDigit {b c : UInt8} (hb : isDigit b) (hc : isDigit c = false) :
    (b == c) = false := by
  rw [beq_eq_false_iff_ne]
  rintro rfl
  rw [hb] at hc
  cases hc

theorem lower_of_isDigit {b : UInt8} (h : isDigit b) : lower b = b := by
  have hb := (isDigit_iff b).1 h
  have hnot : ¬ ascii 'A' ≤ b := by
    rw [UInt8.le_iff_toNat_le]
    show ¬ 65 ≤ b.toNat
    omega
  simp [lower, hnot]

end Text

namespace Decimal

open Text

theorem le_floorLog2 (num : Nat) : -1 ≤ floorLog2 num 1 := by
  have hone : Nat.log2 1 = 0 := by decide
  unfold floorLog2
  simp only
  split <;> omega

/-- A whole number other than zero is above zero after rounding. -/
theorem nearest_hasSign {num : Nat} (h : 0 < num) : HasSign .positive (nearest false num 1) := by
  have hlog := le_floorLog2 num
  have hbits : nearest false num 1 = Float.ofBits (UInt64.ofNat (nearestBits num 1)) := by
    have hne : (num == 0) = false := by
      rw [beq_eq_false_iff_ne]
      omega
    simp [nearest, hne]
  rw [hbits]
  apply hasSign_ofBits
  · have hexp : 0 < (max (-1074) (floorLog2 num 1 - 52) + 1074).toNat <<< 52 := by
      rw [Nat.shiftLeft_eq]
      omega
    have hinf : 0 < infinityBits := by decide
    unfold nearestBits
    simp only
    omega
  · exact Nat.min_le_left _ _

theorem infinity_hasSign : HasSign .positive (infinity false) :=
  hasSign_ofBits (by decide) (Nat.le_refl _)

variable {s : Text} {n : Nat}

theorem isDigit_of_readDigits {base k : Nat} (h : readDigits base k s = some n) :
    ∀ b ∈ s, isDigit b := by
  induction s generalizing k with
  | nil => simp
  | cons b s ih =>
    unfold readDigits at h
    split at h
    · rename_i hb
      simp only [Bool.and_eq_true] at hb
      intro c hc
      rcases List.mem_cons.1 hc with rfl | hc
      · exact hb.1
      · exact ih h c hc
    · cases h

theorem readDigits_zeros {base : Nat} (hbase : 0 < base) (h : ∀ b ∈ s, b = ascii '0') :
    readDigits base 0 s = some 0 := by
  induction s with
  | nil => rfl
  | cons b s ih =>
    obtain rfl := h b List.mem_cons_self
    have hrest := ih fun c hc => h c (List.mem_cons_of_mem _ hc)
    have hzero : isDigit (ascii '0') = true ∧ (ascii '0').toNat - 48 = 0 := by decide
    simpa [readDigits, hzero, hbase] using hrest

/-- The mantissa of a text that has nothing but digits. -/
theorem readMantissa_digits {m : Mantissa} (hpoint : m.point = false)
    (h : readDigits 10 m.digits s = some n) :
    readMantissa false m s = (⟨n, m.count + s.length, m.places, false, m.underscores⟩, []) := by
  have hdigits := isDigit_of_readDigits h
  induction s generalizing m with
  | nil =>
    obtain ⟨digits, count, places, point, underscores⟩ := m
    obtain rfl : digits = n := by simpa [readDigits] using h
    obtain rfl : point = false := hpoint
    rfl
  | cons b s ih =>
    have hb : isDigit b := hdigits b List.mem_cons_self
    have hrest : readDigits 10 (m.push 10 (b.toNat - 48)).digits s = some n := by
      unfold readDigits at h
      split at h
      · exact h
      · cases h
    have hpush := ih (m := m.push 10 (b.toNat - 48)) hpoint hrest
      fun c hc => hdigits c (List.mem_cons_of_mem _ hc)
    have hunder := beq_of_isDigit hb (c := ascii '_') (by decide)
    have hdot := beq_of_isDigit hb (c := ascii '.') (by decide)
    have hvalue : digitValue false b = some (b.toNat - 48) := by simp [digitValue, hb]
    simp only [readMantissa, hunder, hdot, hvalue, Bool.false_eq_true, if_false, hpush]
    simp [Mantissa.push, hpoint, Nat.add_assoc, Nat.add_comm 1]

theorem readSign_digits {b : UInt8} (hb : isDigit b) (s : Text) :
    readSign (b :: s) = (false, b :: s) := by
  have hminus := beq_of_isDigit hb (c := ascii '-') (by decide)
  have hplus := beq_of_isDigit hb (c := ascii '+') (by decide)
  simp [readSign, hminus, hplus]

/-- What starts with a digit spells no infinity and no NaN. -/
theorem readSpecial_digits {b : UInt8} (hb : isDigit b) (s : Text) :
    readSpecial (b :: s) = none := by
  have hne : ∀ word : Text, word.head?.any isDigit = false →
      ((b :: s).map lower == word) = false := by
    intro word hword
    rw [beq_eq_false_iff_ne, List.map_cons, lower_of_isDigit hb]
    rintro rfl
    rw [List.head?_cons, Option.any_some, hb] at hword
    cases hword
  have hinf := hne "inf" (by decide)
  have hinfinity := hne "infinity" (by decide)
  have hnan := hne "nan" (by decide)
  simp only [readSpecial, readSign_digits hb, hinf, hinfinity, hnan, Bool.or_self,
    Bool.false_eq_true, if_false]

theorem read?_digits (hs : s ≠ []) (h : readDigits 10 0 s = some n) :
    Numeral.read? s = some ⟨false, false, n, 0, 0⟩ := by
  have hdigits := isDigit_of_readDigits h
  have hmantissa : readMantissa false .empty s = (⟨n, 0 + s.length, 0, false, false⟩, []) :=
    readMantissa_digits rfl h
  -- a text of three digits or more could have a base mark
  rcases s with _ | ⟨b, _ | ⟨x, _ | ⟨c, rest⟩⟩⟩
  · exact absurd rfl hs
  · simp [Numeral.read?, readSign_digits (hdigits b (by simp)), hmantissa]
  · simp [Numeral.read?, readSign_digits (hdigits b (by simp)), hmantissa]
  · have hx : (lower x == ascii 'x') = false := by
      have hx := hdigits x (by simp)
      rw [lower_of_isDigit hx]
      exact beq_of_isDigit hx (by decide)
    simp [Numeral.read?, readSign_digits (hdigits b (by simp)), hx, hmantissa]

/-- Digits that are not all zero are read as a number above zero. -/
theorem readFloat_digits {reading : Reading} (hn : 0 < n) (h : readDigits 10 0 s = some n)
    (hread : readFloat s = some reading) : HasSign .positive reading.value := by
  have hs : s ≠ [] := by
    rintro rfl
    have : 0 = n := by simpa [readDigits] using h
    omega
  have hspecial : readSpecial s = none := by
    rcases s with _ | ⟨b, rest⟩
    · exact absurd rfl hs
    · exact readSpecial_digits (isDigit_of_readDigits h b List.mem_cons_self) rest
  have hne : (n == 0) = false := by
    rw [beq_eq_false_iff_ne]
    omega
  have hvalue : reading.value = (Numeral.mk false false n 0 0).toFloat := by
    simp only [readFloat, hspecial, read?_digits hs h, Option.map_some, Option.some.injEq] at hread
    rw [← hread]
  rw [hvalue]
  simp only [Numeral.toFloat, hne, Bool.false_eq_true, if_false]
  split
  · exact infinity_hasSign
  · split
    · omega
    · simpa [scale] using nearest_hasSign hn

/-- Digits read as an integer, if 64 bits can hold it. -/
theorem readInt_digits (hs : s ≠ []) (h : readDigits 10 0 s = some n)
    (hle : (n : Int) ≤ Int64.maxValue.toInt) : readInt 10 s = some (Int64.ofInt n) := by
  rcases s with _ | ⟨b, rest⟩
  · exact absurd rfl hs
  have hb := isDigit_of_readDigits h b List.mem_cons_self
  have hle : n ≤ 9223372036854775807 := by
    have hmax : Int64.maxValue.toInt = 9223372036854775807 := by decide
    omega
  simp [readInt, readSign_digits hb, h, hle]

end Decimal

theorem Value.isFloatLiteral_digits {s : Text} (h : ∀ b ∈ s, Text.isDigit b) :
    Value.isFloatLiteral s = false := by
  simp only [Value.isFloatLiteral, List.any_eq_false, Bool.or_eq_true, beq_iff_eq]
  intro b hb
  have hb := h b hb
  rintro ((rfl | rfl) | rfl) <;> exact absurd hb (by decide)

/-- Without a zero in front, a literal without a point and an exponent is decimal. -/
theorem Value.ofLiteral_decimal {s : Text} (hfloat : Value.isFloatLiteral s = false)
    (hzero : s.head? ≠ some (Text.ascii '0')) :
    Value.ofLiteral s = match Decimal.readInt 10 s with
      | some n => .ok (.int n)
      | none => .error (.badLiteral s) := by
  unfold Value.ofLiteral
  rw [hfloat]
  rcases s with _ | ⟨z, _ | ⟨d, rest⟩⟩
  · rfl
  · rfl
  · have hz : (z == Text.ascii '0') = false := by
      rw [beq_eq_false_iff_ne]
      rintro rfl
      exact hzero rfl
    have hnumber : (if z == Text.ascii '0' then Decimal.readInt 8 (d :: rest)
        else Decimal.readInt 10 (z :: d :: rest)) = Decimal.readInt 10 (z :: d :: rest) :=
      if_neg (by simp [hz])
    exact congrArg (fun number => match number with
      | some n => Except.ok (Value.int n)
      | none => .error (ArithError.badLiteral (z :: d :: rest))) hnumber

/-- Digits without a zero in front are a literal of their decimal value. -/
theorem Value.ofLiteral_digits {s : Text} {n : Nat} (h : Decimal.readDigits 10 0 s = some n)
    (hzero : s.head? ≠ some (Text.ascii '0')) (hs : s ≠ [])
    (hle : (n : Int) ≤ Int64.maxValue.toInt) :
    Value.ofLiteral s = .ok (.int (Int64.ofInt n)) := by
  have hfloat := isFloatLiteral_digits (Decimal.isDigit_of_readDigits h)
  rw [ofLiteral_decimal hfloat hzero, Decimal.readInt_digits hs h hle]

namespace Expr

/-- The value of an integer literal in decimal digits, under any number of signs. -/
def signedLiteral? : Expr → Option Int
  | .number _ _ raw => (Decimal.readDigits 10 0 raw).map Int.ofNat
  | .unary _ (.op .plus) e => e.signedLiteral?
  | .unary _ (.op .minus) e => e.signedLiteral?.map fun n => -n
  | _ => none

variable {e : Expr} {n : Int}

theorem signedLiteral_unary {span : Span} {op : Kind}
    (h : (Expr.unary span op e).signedLiteral? = some n) :
    (op = .op .plus ∧ e.signedLiteral? = some n) ∨
      (op = .op .minus ∧ e.signedLiteral? = some (-n)) := by
  unfold signedLiteral? at h
  split at h
  · rename_i heq
    cases heq
  · rename_i heq
    cases heq
    exact Or.inl ⟨rfl, h⟩
  · rename_i heq
    cases heq
    obtain ⟨k, hk, rfl⟩ := Option.map_eq_some_iff.1 h
    exact Or.inr ⟨rfl, by rw [hk, Int.neg_neg]⟩
  · cases h

/-- A literal other than zero lies on the side of zero that its signs say. -/
theorem const?_of_signedLiteral (hwf : e.WellFormed) (h : e.signedLiteral? = some n)
    (hn : n ≠ 0) : ∃ s v, e.const? = some v ∧ HasSign s v ∧ (s = .negative ↔ n < 0) := by
  induction e generalizing n with
  | number span value raw =>
    obtain ⟨d, hd, rfl⟩ := Option.map_eq_some_iff.1 h
    obtain ⟨-, -, -, reading, hread, rfl⟩ := hwf
    have hpos : 0 < d := Nat.pos_of_ne_zero fun hd => hn (by simp [hd])
    exact ⟨.positive, _, rfl, Decimal.readFloat_digits hpos hd hread, by simp⟩
  | unary span op e ih =>
    obtain ⟨rfl, he⟩ | ⟨rfl, he⟩ := signedLiteral_unary h
    · obtain ⟨s, v, hv, hs, hneg⟩ := ih hwf.2 he hn
      exact ⟨s, v, by simp [const?, hv], hs, hneg⟩
    · obtain ⟨s, v, hv, hs, hneg⟩ := ih hwf.2 he (by omega)
      refine ⟨-s, -v, by simp [const?, hv], hs.neg, ?_⟩
      have hflip : -s = .negative ↔ ¬ s = .negative := by cases s <;> simp [Neg.neg]
      rw [hflip, hneg]
      omega
  | _ => cases h

/-- As a step such a literal counts down if it is negative. -/
theorem countsDown_of_signedLiteral (hwf : e.WellFormed) (h : e.signedLiteral? = some n)
    (hn : n ≠ 0) : e.countsDown = decide (n < 0) := by
  obtain ⟨s, v, hv, hs, hneg⟩ := const?_of_signedLiteral hwf h hn
  unfold countsDown
  simp only [hv]
  rw [decide_eq_decide, hs.le_zero_iff, hneg]

/-- The value of such a literal in a program over integers. -/
theorem eval_of_signedLiteral (hwf : e.WellFormed) (h : e.signedLiteral? = some n) (hn : n ≠ 0)
    (hle : (n.natAbs : Int) ≤ Int64.maxValue.toInt) (σ : Env) :
    e.eval .int σ = some (.int (Int64.ofInt n)) := by
  induction e generalizing n with
  | number span value raw =>
    obtain ⟨d, hd, rfl⟩ := Option.map_eq_some_iff.1 h
    obtain ⟨hlexed, -, hzero, -⟩ := hwf
    have hraw : raw ≠ [] := hlexed.1
    have hliteral : Value.ofLiteral raw = .ok (.int (Int64.ofInt d)) := by
      refine Value.ofLiteral_digits hd ?_ hraw (by simpa using hle)
      -- only zeros may follow a zero in front
      intro hhead
      have hall : raw.all Text.isDigit := List.all_eq_true.2 (Decimal.isDigit_of_readDigits hd)
      have hzeros : ∀ b ∈ raw, b = Text.ascii '0' := by simpa [hall, hhead] using hzero
      rw [Decimal.readDigits_zeros (by decide) hzeros] at hd
      cases hd
      exact hn rfl
    simp [eval, numberText, hraw, hliteral, Except.toOption]
  | unary span op e ih =>
    obtain ⟨rfl, he⟩ | ⟨rfl, he⟩ := signedLiteral_unary h
    · rw [eval_unary (u := .plus) rfl, ih hwf.2 he hn hle]
      rfl
    · rw [eval_unary (u := .minus) rfl, ih hwf.2 he (by omega) (by omega)]
      simp [Value.unary, Value.convert]
  | _ => cases h

end Expr

end ThreeAddress
