import Mathlib.Data.Int.ModEq
import Mathlib.Data.Rat.Floor
import ThreeAddress.Value

/-! Integer arithmetic at the limits of 64 bits. Sums, differences and products are exact up to a
multiple of 2^64, quotients are cut off toward zero, and comparisons are those of the integers. Of
all operations only a division by zero fails. -/
namespace ThreeAddress

/-- A rational number without its fraction: the next integer on the way to zero. -/
def truncate (x : ℚ) : Int := if 0 ≤ x then ⌊x⌋ else ⌈x⌉

theorem truncate_div_natCast (a : Int) (n : Nat) : truncate (a / n) = a.tdiv n := by
  have hn : (0 : ℚ) ≤ n := Nat.cast_nonneg n
  rcases Int.le_total 0 a with ha | ha
  · have hx : 0 ≤ (a / n : ℚ) := div_nonneg (Int.cast_nonneg ha) hn
    rw [truncate, if_pos hx, Rat.floor_intCast_div_natCast, Int.tdiv_eq_ediv_of_nonneg ha]
  · have hceil : ⌈(a / n : ℚ)⌉ = a.tdiv n := by
      rw [Rat.ceil_intCast_div_natCast, ← Int.tdiv_eq_ediv_of_nonneg (by omega), Int.neg_tdiv,
        Int.neg_neg]
    have hx : (a / n : ℚ) ≤ 0 := div_nonpos_of_nonpos_of_nonneg (Int.cast_nonpos.2 ha) hn
    rcases hx.lt_or_eq with hx | hx
    · rw [truncate, if_neg (not_le.2 hx), hceil]
    · rw [← hceil, hx]
      rfl

theorem truncate_div (a b : Int) : truncate (a / b) = a.tdiv b := by
  obtain ⟨n, rfl | rfl⟩ := b.eq_nat_or_neg
  · exact truncate_div_natCast a n
  · -- the sign goes to the dividend
    rw [Int.tdiv_neg, ← Int.neg_tdiv, ← truncate_div_natCast]
    congr 1
    push_cast
    ring

/-- The quotient `q` and the remainder `r` that `a` and `b` have in 64 bits. -/
structure IsDivision (a b q r : Int) : Prop where
  sum : q * b + r ≡ a [ZMOD 2 ^ 64]
  small : |r| < |b|
  sign : r = 0 ∨ r.sign = a.sign
  truncated : ¬ (a = -2 ^ 63 ∧ b = -1) → q = truncate (a / b)
  /-- The one exact quotient that 64 bits cannot hold. -/
  wrapped : a = -2 ^ 63 ∧ b = -1 → q = -2 ^ 63 ∧ r = 0

theorem sign_tmod_eq (a b : Int) : a.tmod b = 0 ∨ (a.tmod b).sign = a.sign := by
  by_cases h : b ∣ a
  · exact Or.inl (Int.tmod_eq_zero_of_dvd h)
  · exact Or.inr (by rw [Int.sign_tmod, if_neg h])

theorem abs_tmod_lt (a : Int) {b : Int} (hb : b ≠ 0) : |a.tmod b| < |b| := by
  rw [Int.abs_eq_natAbs, Int.abs_eq_natAbs, Int.natAbs_tmod]
  exact Int.ofNat_lt.2 (Nat.mod_lt _ (Int.natAbs_pos.2 hb))

theorem bmod_modEq (n : Int) : n.bmod (2 ^ 64) ≡ n [ZMOD 2 ^ 64] := by
  have h : n.bmod (2 ^ 64) % ((2 ^ 64 : Nat) : Int) = n % ((2 ^ 64 : Nat) : Int) := Int.bmod_emod
  simpa [Int.ModEq] using h

theorem isDivision_toInt (a : Int64) {b : Int64} (hb : b.toInt ≠ 0) :
    IsDivision a.toInt b.toInt (a / b).toInt (a % b).toInt := by
  rw [Int64.toInt_mod]
  refine ⟨?_, abs_tmod_lt _ hb, sign_tmod_eq _ _, ?_, ?_⟩
  · rw [Int64.toInt_div]
    calc (a.toInt.tdiv b.toInt).bmod (2 ^ 64) * b.toInt + a.toInt.tmod b.toInt
        ≡ a.toInt.tdiv b.toInt * b.toInt + a.toInt.tmod b.toInt [ZMOD 2 ^ 64] :=
          ((bmod_modEq _).mul_right _).add_right _
      _ = a.toInt := Int.tdiv_mul_add_tmod _ _
  · intro hne
    rw [truncate_div]
    by_cases ha : a = .minValue
    · refine Int64.toInt_div_of_ne_right a b fun hb => hne ?_
      rw [ha, hb]
      decide
    · exact Int64.toInt_div_of_ne_left a b ha
  · rintro ⟨ha, hb⟩
    rw [Int64.toInt_div, ha, hb]
    decide

def BinaryOp.comparisons : List BinaryOp :=
  [.less, .lessEqual, .greater, .greaterEqual, .equal, .notEqual]

/-- The relation of integers that a comparison asks about. -/
def BinaryOp.relates (m n : Int) : BinaryOp → Bool
  | .less => m < n
  | .lessEqual => m ≤ n
  | .greater => n < m
  | .greaterEqual => n ≤ m
  | .equal => m = n
  | _ => m ≠ n

namespace Value

/-- An operation yields `n` reduced to 64 bits: a number that differs from `n` by a multiple of
2^64. -/
def Wraps (n : Int) (result : Except ArithError Value) : Prop :=
  ∃ r : Int64, result = .ok (.int r) ∧ r.toInt ≡ n [ZMOD 2 ^ 64]

theorem Wraps.of_bmod {n : Int} {r : Int64} (h : r.toInt = n.bmod (2 ^ 64)) :
    Wraps n (.ok (.int r)) :=
  ⟨r, rfl, h ▸ bmod_modEq n⟩

/-- Division by zero is an error of integers alone: floating-point numbers have a quotient. -/
theorem applyBinary_eq_divisionByZero_iff {s : Text} {x y : Value} :
    applyBinary s x y = .error .divisionByZero ↔
      (s = "/" ∨ s = "%") ∧ (∃ a, x = .int a) ∧ y = .int 0 := by
  obtain ⟨op, rfl⟩ | ⟨hread, hne⟩ := BinaryOp.read_cases s
  · have hdiv : op.symbol = "/" ↔ op = .div := BinaryOp.symbol_inj op .div
    have hrem : op.symbol = "%" ↔ op = .rem := BinaryOp.symbol_inj op .rem
    rw [applyBinary_symbol, binary_eq_error_iff, hdiv, hrem]
    simp
  · have hdiv : s ≠ "/" := hne .div
    have hrem : s ≠ "%" := hne .rem
    simp [applyBinary, hread, hdiv, hrem]

theorem exists_isDivision (a : Int64) {b : Int64} (hb : b.toInt ≠ 0) : ∃ q r : Int64,
    applyBinary "/" (.int a) (.int b) = .ok (.int q) ∧
    applyBinary "%" (.int a) (.int b) = .ok (.int r) ∧
    IsDivision a.toInt b.toInt q.toInt r.toInt := by
  have hne : b ≠ 0 := by
    rintro rfl
    exact hb rfl
  refine ⟨a / b, a % b, ?_, ?_, isDivision_toInt a hb⟩
  · show applyBinary BinaryOp.div.symbol _ _ = _
    simp [binary, intArith, hne]
  · show applyBinary BinaryOp.rem.symbol _ _ = _
    simp [binary, intArith, hne]

/-- Integers are never unordered. -/
theorem compare_int_cases (a b : Int64) :
    (a.toInt < b.toInt ∧ compare (.int a) (.int b) = .less) ∨
    (a.toInt = b.toInt ∧ compare (.int a) (.int b) = .equal) ∨
    (b.toInt < a.toInt ∧ compare (.int a) (.int b) = .greater) := by
  simp only [compare, Int64.lt_iff_toInt_lt]
  rcases Int.lt_trichotomy a.toInt b.toInt with h | h | h
  · exact Or.inl ⟨h, if_pos h⟩
  · exact Or.inr (Or.inl ⟨h, by rw [if_neg (by omega), if_neg (by omega)]⟩)
  · exact Or.inr (Or.inr ⟨h, by rw [if_neg (by omega), if_pos h]⟩)

theorem satisfies_compare_int (op : BinaryOp) (a b : Int64) :
    (compare (.int a) (.int b)).satisfies op = op.relates a.toInt b.toInt := by
  rw [Bool.eq_iff_iff]
  obtain ⟨h, hc⟩ | ⟨h, hc⟩ | ⟨h, hc⟩ := compare_int_cases a b <;>
    cases op <;> simp [Comparison.satisfies, BinaryOp.relates, hc] <;> omega

theorem applyBinary_comparison {op : BinaryOp} (h : op ∈ BinaryOp.comparisons) (a b : Int64) :
    applyBinary op.symbol (.int a) (.int b) = .ok (ofBool (op.relates a.toInt b.toInt)) := by
  rw [applyBinary_symbol, ← satisfies_compare_int]
  simp only [BinaryOp.comparisons, List.mem_cons, List.not_mem_nil, or_false] at h
  rcases h with rfl | rfl | rfl | rfl | rfl | rfl <;> rfl

theorem applyBinary_eq_one_iff (op : BinaryOp) (h : op ∈ BinaryOp.comparisons) (a b : Int64) :
    applyBinary op.symbol (.int a) (.int b) = .ok (.int 1) ↔ op.relates a.toInt b.toInt := by
  rw [applyBinary_comparison h]
  cases op.relates a.toInt b.toInt <;> simp [ofBool]

theorem applyBinary_less_iff (a b : Int64) :
    applyBinary "<" (.int a) (.int b) = .ok (.int 1) ↔ a.toInt < b.toInt :=
  (applyBinary_eq_one_iff .less (by decide) a b).trans decide_eq_true_iff

theorem applyBinary_equal_iff (a b : Int64) :
    applyBinary "==" (.int a) (.int b) = .ok (.int 1) ↔ a.toInt = b.toInt :=
  (applyBinary_eq_one_iff .equal (by decide) a b).trans decide_eq_true_iff

theorem applyBinary_greater_iff (a b : Int64) :
    applyBinary ">" (.int a) (.int b) = .ok (.int 1) ↔ b.toInt < a.toInt :=
  (applyBinary_eq_one_iff .greater (by decide) a b).trans decide_eq_true_iff

theorem existsUnique_comparison (a b : Int64) : ∃! s : Text,
    s ∈ (["<", "==", ">"] : List Text) ∧ applyBinary s (.int a) (.int b) = .ok (.int 1) := by
  have hless := applyBinary_less_iff a b
  have hequal := applyBinary_equal_iff a b
  have hgreater := applyBinary_greater_iff a b
  apply existsUnique_of_exists_of_unique
  · rcases Int.lt_trichotomy a.toInt b.toInt with h | h | h
    · exact ⟨"<", by simp, hless.2 h⟩
    · exact ⟨"==", by simp, hequal.2 h⟩
    · exact ⟨">", by simp, hgreater.2 h⟩
  · -- two different ones of the three exclude each other
    rintro s t ⟨hs, hs'⟩ ⟨ht, ht'⟩
    simp only [List.mem_cons, List.not_mem_nil, or_false] at hs ht
    grind

/-- The first comparison yields 0 where the second yields 1, and 1 where that yields 0. -/
def Negates (s t : Text) (x y : Value) : Prop :=
  ∃ c : Bool, applyBinary s x y = .ok (ofBool !c) ∧ applyBinary t x y = .ok (ofBool c)

theorem negates_int (op op' : BinaryOp) (h : op ∈ BinaryOp.comparisons)
    (h' : op' ∈ BinaryOp.comparisons) (hneg : ∀ m n, op.relates m n = !op'.relates m n)
    (a b : Int64) : Negates op.symbol op'.symbol (.int a) (.int b) :=
  ⟨op'.relates a.toInt b.toInt, hneg _ _ ▸ applyBinary_comparison h a b,
    applyBinary_comparison h' a b⟩

/-- Sums, differences, products and negations of integers are exact up to a multiple of 2^64. An
operation of integers divides by zero exactly if it is `/` or `%` and its second operand is 0; any
other divisor gives a quotient and a remainder as truncating division has them, where the quotient
of -2^63 and -1 wraps around. The comparisons are those of the integers: exactly one of `<`, `==`
and `>` holds, and the others are their negations. -/
theorem integer_arithmetic_is_exact_up_to_wrapping (a b : Int64) :
    Wraps (a.toInt + b.toInt) (applyBinary "+" (.int a) (.int b)) ∧
    Wraps (a.toInt - b.toInt) (applyBinary "-" (.int a) (.int b)) ∧
    Wraps (a.toInt * b.toInt) (applyBinary "*" (.int a) (.int b)) ∧
    Wraps (-a.toInt) (applyUnary "-" (.int a)) ∧
    (∀ s, applyBinary s (.int a) (.int b) = .error .divisionByZero ↔
      (s = "/" ∨ s = "%") ∧ b.toInt = 0) ∧
    (b.toInt ≠ 0 → ∃ q r : Int64, applyBinary "/" (.int a) (.int b) = .ok (.int q) ∧
      applyBinary "%" (.int a) (.int b) = .ok (.int r) ∧
      IsDivision a.toInt b.toInt q.toInt r.toInt) ∧
    (∃! s : Text, s ∈ (["<", "==", ">"] : List Text) ∧
      applyBinary s (.int a) (.int b) = .ok (.int 1)) ∧
    (applyBinary "<" (.int a) (.int b) = .ok (.int 1) ↔ a.toInt < b.toInt) ∧
    (applyBinary "==" (.int a) (.int b) = .ok (.int 1) ↔ a.toInt = b.toInt) ∧
    Negates "<=" ">" (.int a) (.int b) ∧
    Negates ">=" "<" (.int a) (.int b) ∧
    Negates "!=" "==" (.int a) (.int b) := by
  have hzero : Value.int b = .int 0 ↔ b.toInt = 0 := by
    rw [Value.int.injEq]
    exact Int64.toInt_inj.symm
  refine ⟨.of_bmod (Int64.toInt_add a b), .of_bmod (Int64.toInt_sub a b),
    .of_bmod (Int64.toInt_mul a b), .of_bmod (Int64.toInt_neg a), fun s => ?_,
    exists_isDivision a, existsUnique_comparison a b, applyBinary_less_iff a b,
    applyBinary_equal_iff a b, ?_, ?_, ?_⟩
  · rw [applyBinary_eq_divisionByZero_iff, hzero]
    simp
  · exact negates_int .lessEqual .greater (by decide) (by decide)
      (by simp [BinaryOp.relates, ← decide_not]) a b
  · exact negates_int .greaterEqual .less (by decide) (by decide)
      (by simp [BinaryOp.relates, ← decide_not]) a b
  · exact negates_int .notEqual .equal (by decide) (by decide)
      (by simp [BinaryOp.relates]) a b

/-- The exact quotient 2^63 is one more than 64 bits hold. -/
theorem least_integer_over_minus_one : (-1 : Int64).toInt ≠ 0 ∧
    ∃ q r : Int64, applyBinary "/" (.int (-9223372036854775808)) (.int (-1)) = .ok (.int q) ∧
      applyBinary "%" (.int (-9223372036854775808)) (.int (-1)) = .ok (.int r) ∧
      q.toInt = -2 ^ 63 ∧ r.toInt = 0 ∧ q.toInt * -1 + r.toInt ≠ -2 ^ 63 := by
  have hb : (-1 : Int64).toInt ≠ 0 := by decide
  obtain ⟨-, -, -, -, -, hdivision, -⟩ :=
    integer_arithmetic_is_exact_up_to_wrapping (-9223372036854775808) (-1)
  obtain ⟨q, r, hq, hr, h⟩ := hdivision hb
  obtain ⟨hquotient, hremainder⟩ := h.wrapped (by decide)
  exact ⟨hb, q, r, hq, hr, hquotient, hremainder, by rw [hquotient, hremainder]; decide⟩

end Value

end ThreeAddress
