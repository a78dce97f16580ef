import Mathlib.Algebra.Order.Field.Power
import Mathlib.Data.Rat.Cast.Order
import Mathlib.Tactic.FieldSimp
import Mathlib.Tactic.Linarith
import Mathlib.Tactic.Positivity
import Mathlib.Tactic.Ring
import ThreeAddress.Decimal.Shortest

/-! The decimal that is written for a double-precision number lies among the reals that round to
it, and no real rounds to two of them: the decimal tells the number. -/
namespace ThreeAddress.Decimal

variable {num den : Nat}

theorem scale_spec {base : Nat} (hbase : 0 < base) (hden : 0 < den) (e : Int) (num : Nat) :
    0 < (scale base e num den).2 ∧
      ((scale base e num den).1 : ℚ) / (scale base e num den).2 = num / den * (base : ℚ) ^ e := by
  unfold scale
  split
  · rename_i he
    obtain ⟨k, rfl⟩ := Int.eq_ofNat_of_zero_le he
    have hpow : base.pow (k : Int).toNat = base ^ k := rfl
    simp only [hpow, zpow_natCast, Nat.cast_mul, Nat.cast_pow]
    exact ⟨hden, mul_div_right_comm _ _ _⟩
  · rename_i he
    obtain ⟨k, hk⟩ := Int.eq_ofNat_of_zero_le (show 0 ≤ -e by omega)
    obtain rfl : e = -(k : Int) := by omega
    have hpow : base.pow (-(-(k : Int))).toNat = base ^ k := by rw [neg_neg]; rfl
    simp only [hpow, zpow_neg, zpow_natCast, Nat.cast_mul, Nat.cast_pow]
    exact ⟨by positivity, by rw [div_mul_eq_div_div, div_eq_mul_inv _ ((base : ℚ) ^ k)]⟩

/-- A fraction is at least its logarithm's power of two, and less than the next one. -/
theorem floorLog2_spec (hnum : 0 < num) (hden : 0 < den) :
    (2 : ℚ) ^ floorLog2 num den ≤ num / den ∧ (num : ℚ) / den < 2 ^ (floorLog2 num den + 1) := by
  have hd : (0 : ℚ) < den := by positivity
  have hn₁ : ((2 : ℚ) ^ (num.log2 : Int)) ≤ num := by
    exact_mod_cast Nat.log2_self_le hnum.ne'
  have hn₂ : (num : ℚ) < 2 ^ (num.log2 + 1 : Int) := by
    exact_mod_cast (Nat.lt_log2_self (n := num))
  have hd₁ : ((2 : ℚ) ^ (den.log2 : Int)) ≤ den := by
    exact_mod_cast Nat.log2_self_le hden.ne'
  have hd₂ : (den : ℚ) < 2 ^ (den.log2 + 1 : Int) := by
    exact_mod_cast (Nat.lt_log2_self (n := den))
  obtain ⟨hpos, heq⟩ := scale_spec Nat.two_pos hden (-(num.log2 - den.log2 : Int)) num
  unfold floorLog2
  simp only
  generalize scale 2 (-(num.log2 - den.log2 : Int)) num den = s at hpos heq
  have hs : (0 : ℚ) < s.2 := by exact_mod_cast hpos
  rw [Nat.cast_ofNat, zpow_neg, ← div_eq_mul_inv] at heq
  split
  · rename_i hle
    have hone : (1 : ℚ) ≤ s.1 / s.2 := (one_le_div₀ hs).2 (by exact_mod_cast hle)
    rw [heq, one_le_div₀ (by positivity)] at hone
    refine ⟨hone, ?_⟩
    rw [div_lt_iff₀ hd]
    calc (num : ℚ) < 2 ^ (num.log2 + 1 : Int) := hn₂
      _ = 2 ^ (num.log2 - den.log2 + 1 : Int) * 2 ^ (den.log2 : Int) := by
          rw [← zpow_add₀ two_ne_zero]
          congr 1
          ring
      _ ≤ _ := by gcongr
  · rename_i hlt
    have hone : (s.1 : ℚ) / s.2 < 1 := (div_lt_one₀ hs).2 (by exact_mod_cast Nat.lt_of_not_le hlt)
    rw [heq, div_lt_one₀ (by positivity)] at hone
    refine ⟨?_, by simpa using hone⟩
    rw [le_div_iff₀ hd]
    calc (2 : ℚ) ^ (num.log2 - den.log2 - 1 : Int) * den
        ≤ 2 ^ (num.log2 - den.log2 - 1 : Int) * 2 ^ (den.log2 + 1 : Int) := by gcongr
      _ = 2 ^ (num.log2 : Int) := by
          rw [← zpow_add₀ two_ne_zero]
          congr 1
          ring
      _ ≤ num := hn₁

/-- The decimal logarithm by a factor, for the exponents that occur. -/
theorem powers_table : ∀ k < 1075, 10 ^ (k * 30103 / 100000) ≤ 2 ^ k * 10 ∧
    2 ^ k ≤ 10 * 10 ^ ((k * 30103 + 99999) / 100000) := by
  decide +kernel

theorem ten_pow_le_two_pow {k : Int} (hlo : -1074 ≤ k) (hhi : k ≤ 1074) :
    (10 : ℚ) ^ (k * 30103 / 100000 - 1) ≤ 2 ^ k := by
  rw [zpow_sub_one₀ (by norm_num), ← div_eq_mul_inv, div_le_iff₀ (by norm_num)]
  obtain ⟨j, rfl | rfl⟩ := k.eq_nat_or_neg
  · have htable := (powers_table j (by omega)).1
    have hexp : (j : Int) * 30103 / 100000 = ((j * 30103 / 100000 : Nat) : Int) := by omega
    rw [hexp, zpow_natCast, zpow_natCast]
    exact_mod_cast htable
  · have htable := (powers_table j (by omega)).2
    have hexp : -(j : Int) * 30103 / 100000 = -((j * 30103 + 99999) / 100000 : Nat) := by omega
    rw [hexp, zpow_neg, zpow_neg, zpow_natCast, zpow_natCast,
      inv_le_iff_one_le_mul₀ (by positivity), mul_assoc, ← div_eq_inv_mul,
      one_le_div₀ (by positivity)]
    exact_mod_cast htable

theorem raise_spec (hden : 0 < den) (fuel : Nat) {p : Int} (hp : (10 : ℚ) ^ (p - 1) ≤ num / den) :
    (10 : ℚ) ^ (raise num den fuel p - 1) ≤ num / den := by
  induction fuel generalizing p with
  | zero => exact hp
  | succ fuel ih =>
    obtain ⟨hpos, heq⟩ := scale_spec (show 0 < 10 by decide) hden (-p) num
    unfold raise
    simp only
    generalize scale 10 (-p) num den = s at hpos heq
    split
    · exact hp
    · rename_i hlt
      apply ih
      have hs : (0 : ℚ) < s.2 := by exact_mod_cast hpos
      have hone : (1 : ℚ) ≤ s.1 / s.2 :=
        (one_le_div₀ hs).2 (by exact_mod_cast Nat.le_of_not_lt hlt)
      rw [heq, Nat.cast_ofNat, zpow_neg, ← div_eq_mul_inv, one_le_div₀ (by positivity)] at hone
      rwa [add_sub_cancel_right]

/-- The decimal point of a fraction stands behind its first digit at the least. -/
theorem pointOf_spec (hnum : 0 < num) (hden : 0 < den) (hlo : (2 : ℚ) ^ (-1074 : Int) ≤ num / den)
    (hhi : (num : ℚ) / den < 2 ^ (1024 : Int)) : (10 : ℚ) ^ (pointOf num den - 1) ≤ num / den := by
  obtain ⟨hlog, hlog'⟩ := floorLog2_spec hnum hden
  have hlow : (-1074 : Int) < floorLog2 num den + 1 :=
    (zpow_lt_zpow_iff_right₀ one_lt_two).1 (hlo.trans_lt hlog')
  have hhigh : floorLog2 num den < 1024 :=
    (zpow_lt_zpow_iff_right₀ one_lt_two).1 (hlog.trans_lt hhi)
  exact raise_spec hden 4 ((ten_pow_le_two_pow (by omega) (by omega)).trans hlog)

/-- Mantissa and exponent of a finite number: the mantissa has 53 bits, or less for the least
exponent. -/
structure Canonical (m : Nat) (e : Int) : Prop where
  lt : m < 1 <<< 53
  exponent_ge : -1074 ≤ e
  exponent_le : e ≤ 971
  full : 1 <<< 52 ≤ m ∨ e = -1074

/-- Quarters of a unit between a number and the middle of its lower neighbour and itself. -/
def below (m : Nat) (e : Int) : Nat := if m == 1 <<< 52 && e != -1074 then 1 else 2

/-- `v` rounds to `m * 2 ^ e`: it lies between the middles of the number and its neighbours, and a
middle belongs to the neighbour with the even mantissa. -/
def RoundsTo (m : Nat) (e : Int) (v : ℚ) : Prop :=
  let lo := (4 * m - below m e : ℚ) * 2 ^ (e - 2)
  let hi := (4 * m + 2 : ℚ) * 2 ^ (e - 2)
  if m % 2 = 0 then lo ≤ v ∧ v ≤ hi else lo < v ∧ v < hi

section

variable {m m' : Nat} {e e' : Int} {v : ℚ}

theorem below_cases (m : Nat) (e : Int) :
    (below m e = 1 ∧ m = 1 <<< 52 ∧ e ≠ -1074) ∨ below m e = 2 := by
  unfold below
  split
  · rename_i h
    simp only [Bool.and_eq_true, beq_iff_eq, bne_iff_ne] at h
    exact Or.inl ⟨rfl, h⟩
  · exact Or.inr rfl

theorem below_le (m : Nat) (e : Int) : below m e ≤ 2 := by
  rcases below_cases m e with ⟨h, -⟩ | h <;> omega

theorem RoundsTo.ge (h : RoundsTo m e v) : (4 * m - below m e : ℚ) * 2 ^ (e - 2) ≤ v := by
  unfold RoundsTo at h
  simp only at h
  split at h
  · exact h.1
  · exact h.1.le

theorem RoundsTo.le (h : RoundsTo m e v) : v ≤ (4 * m + 2 : ℚ) * 2 ^ (e - 2) := by
  unfold RoundsTo at h
  simp only at h
  split at h
  · exact h.2
  · exact h.2.le

theorem RoundsTo.pos (h : RoundsTo m e v) (hm : 0 < m) : 0 < v := by
  have hbelow : (below m e : ℚ) ≤ 2 := by exact_mod_cast below_le m e
  have hm1 : (1 : ℚ) ≤ m := by exact_mod_cast hm
  have hpow : (0 : ℚ) < 2 ^ (e - 2) := by positivity
  have hlo : (0 : ℚ) < (4 * m - below m e) * 2 ^ (e - 2) := mul_pos (by linarith) hpow
  exact hlo.trans_le h.ge

/-- The upper end of a number is at most the lower end of a greater one. They are apart if both
mantissas are even, as then there is another number between them. -/
theorem upper_le_lower {k : Nat} (hm : Canonical m e) (hm' : Canonical m' e')
    (hlt : e < e' ∨ e = e' ∧ m < m') (hk : k = 0 ∨ k = 4 ∧ m % 2 = 0 ∧ m' % 2 = 0) :
    (4 * m + 2 + k : ℚ) * 2 ^ (e - 2) ≤ (4 * m' - below m' e' : ℚ) * 2 ^ (e' - 2) := by
  have hbelow := below_le m' e'
  have hfits : m < 9007199254740992 := hm.lt
  rcases hlt with hlt | ⟨rfl, hlt⟩
  · -- a greater exponent: the mantissa is full, and the unit at least twice as great
    have hnext : (2 : ℚ) * 2 ^ (e - 2) ≤ 2 ^ (e' - 2) := by
      rw [← zpow_one_add₀ two_ne_zero]
      exact zpow_le_zpow_right₀ one_le_two (by omega)
    have hlow : 4 * m + 2 + k + 2 ≤ 36028797018963968 := by omega
    have hhigh : 18014398509481984 + below m' e' ≤ 4 * m' + 1 := by
      have hge := hm.exponent_ge
      have hfull : 4503599627370496 ≤ m' := hm'.full.resolve_right (by omega)
      have hpower : (1 <<< 52 : Nat) = 4503599627370496 := rfl
      rcases below_cases m' e' with ⟨hone, -⟩ | htwo
      · omega
      · have hne : m' ≠ 4503599627370496 := by
          rintro rfl
          have hcond : e' ≠ -1074 := by have := hm.exponent_ge; omega
          simp [below, hcond] at htwo
        omega
    have hlowQ : (4 * m + 2 + k : ℚ) + 2 ≤ 36028797018963968 := by exact_mod_cast hlow
    have hhighQ : (18014398509481984 : ℚ) + below m' e' ≤ 4 * m' + 1 := by exact_mod_cast hhigh
    calc (4 * m + 2 + k : ℚ) * 2 ^ (e - 2)
        ≤ (36028797018963968 - 2) * 2 ^ (e - 2) := by gcongr; linarith
      _ = (18014398509481984 - 1) * (2 * 2 ^ (e - 2)) := by ring
      _ ≤ (18014398509481984 - 1) * 2 ^ (e' - 2) := by gcongr
      _ ≤ (4 * m' - below m' e') * 2 ^ (e' - 2) :=
          mul_le_mul_of_nonneg_right (by linarith) (by positivity)
  · have hnat : 4 * m + 2 + k + below m' e ≤ 4 * m' := by omega
    have hrat : (4 * m + 2 + k : ℚ) + below m' e ≤ 4 * m' := by exact_mod_cast hnat
    gcongr
    linarith

theorem not_roundsTo_of_lt (hm : Canonical m e) (hm' : Canonical m' e')
    (hlt : e < e' ∨ e = e' ∧ m < m') (h : RoundsTo m e v) : ¬ RoundsTo m' e' v := by
  intro h'
  have hgap := upper_le_lower (k := 0) hm hm' hlt (Or.inl rfl)
  simp only [Nat.cast_zero, add_zero] at hgap
  have hle := h.le
  have hge := h'.ge
  by_cases heven : m % 2 = 0
  · by_cases heven' : m' % 2 = 0
    · have hwide := upper_le_lower (k := 4) hm hm' hlt (Or.inr ⟨rfl, heven, heven'⟩)
      have hpow : (0 : ℚ) < 2 ^ (e - 2) := by positivity
      simp only [Nat.cast_ofNat] at hwide
      linarith
    · simp only [RoundsTo, heven', if_false] at h'
      linarith [h'.1]
  · simp only [RoundsTo, heven, if_false] at h
    linarith [h.2]

/-- No real rounds to two numbers. -/
theorem RoundsTo.unique (hm : Canonical m e) (hm' : Canonical m' e') (h : RoundsTo m e v)
    (h' : RoundsTo m' e' v) : m = m' ∧ e = e' := by
  rcases lt_trichotomy e e' with hlt | rfl | hgt
  · exact absurd h' (not_roundsTo_of_lt hm hm' (Or.inl hlt) h)
  · rcases lt_trichotomy m m' with hlt | rfl | hgt
    · exact absurd h' (not_roundsTo_of_lt hm hm' (Or.inr ⟨rfl, hlt⟩) h)
    · exact ⟨rfl, rfl⟩
    · exact absurd h (not_roundsTo_of_lt hm' hm (Or.inr ⟨rfl, hgt⟩) h')
  · exact absurd h (not_roundsTo_of_lt hm' hm (Or.inl hgt) h')

/-- The number that a coefficient and an exponent stand for. -/
def Scientific.value (x : Scientific) : ℚ := x.coefficient * 10 ^ x.exponent

theorem four_mul_unit (e : Int) : (2 : ℚ) ^ e = 4 * 2 ^ (e - 2) := by
  rw [zpow_sub₀ two_ne_zero, zpow_two]
  ring

theorem interval_spec (hm : 0 < m) (e : Int) :
    0 < (interval m e).2.2.2 ∧
      ((interval m e).1 : ℚ) / (interval m e).2.2.2 = (4 * m - below m e) * 2 ^ (e - 2) ∧
      ((interval m e).2.1 : ℚ) / (interval m e).2.2.2 = m * 2 ^ e ∧
      ((interval m e).2.2.1 : ℚ) / (interval m e).2.2.2 = (4 * m + 2) * 2 ^ (e - 2) := by
  obtain ⟨hpos, heq⟩ := scale_spec Nat.two_pos Nat.one_pos (e - 2) 1
  have hbelow : below m e ≤ 4 * m := (below_le m e).trans (by omega)
  have hinterval : interval m e = ((4 * m - below m e) * (scale 2 (e - 2) 1 1).1,
      4 * m * (scale 2 (e - 2) 1 1).1, (4 * m + 2) * (scale 2 (e - 2) 1 1).1,
      (scale 2 (e - 2) 1 1).2) := rfl
  rw [hinterval]
  simp only [Nat.cast_mul, Nat.cast_sub hbelow, Nat.cast_add, mul_div_assoc, heq]
  refine ⟨hpos, ?_, ?_, ?_⟩
  · norm_num
  · rw [four_mul_unit]
    norm_num
    ring
  · norm_num

/-- Rounding a fraction to an integer moves it by a half at most. -/
theorem roundDiv_bounds (hden : 0 < den) (num : Nat) :
    2 * num ≤ (2 * roundDiv num den + 1) * den ∧ 2 * roundDiv num den * den ≤ 2 * num + den := by
  have hsplit := Nat.div_add_mod num den
  have hr := Nat.mod_lt num hden
  unfold roundDiv
  simp only
  generalize num / den = q at hsplit
  generalize num % den = r at hsplit hr
  subst hsplit
  split
  · constructor <;> linarith
  · split
    · constructor <;> linarith
    · rcases Nat.mod_two_eq_zero_or_one q with hq | hq <;> rw [hq] <;> constructor <;> linarith

theorem abs_roundDiv_sub_le (hden : 0 < den) (num : Nat) :
    |(roundDiv num den : ℚ) - num / den| ≤ 1 / 2 := by
  have hd : (0 : ℚ) < den := by positivity
  obtain ⟨hlo, hhi⟩ := roundDiv_bounds hden num
  have hloQ : 2 * (num : ℚ) ≤ (2 * roundDiv num den + 1) * den := by exact_mod_cast hlo
  have hhiQ : 2 * (roundDiv num den : ℚ) * den ≤ 2 * num + den := by exact_mod_cast hhi
  have hmul : (num : ℚ) / den * den = num := div_mul_cancel₀ _ hd.ne'
  rw [abs_le]
  constructor
  · have : (num : ℚ) / den ≤ roundDiv num den + 1 / 2 := by
      rw [div_le_iff₀ hd]
      linarith
    linarith
  · have : roundDiv num den - 1 / 2 ≤ (num : ℚ) / den := by
      rw [le_div_iff₀ hd]
      linarith
    linarith

theorem RoundsTo.of_lt (hlo : (4 * m - below m e : ℚ) * 2 ^ (e - 2) < v)
    (hhi : v < (4 * m + 2 : ℚ) * 2 ^ (e - 2)) : RoundsTo m e v := by
  unfold RoundsTo
  simp only
  split
  · exact ⟨hlo.le, hhi.le⟩
  · exact ⟨hlo, hhi⟩

/-- A number of `4 * x` quarters, written with a last digit that weighs at most a ten to the
sixteenth of it, is off by less than the room on either side. -/
theorem near_of_last_digit {c x room quarter last scale : ℚ} (hunit : scale * last = 1)
    (hlast : 0 < last) (hquarter : 0 < quarter) (hfirst : 10 ^ 16 * last ≤ x * (4 * quarter))
    (hroom : 2 * x < room * 10 ^ 16) (hle : room ≤ 2)
    (hc : |c - x * (4 * quarter) * scale| ≤ 1 / 2) :
    (4 * x - room) * quarter < c * last ∧ c * last < (4 * x + 2) * quarter := by
  have hsmall : last < 2 * room * quarter := by
    have : 10 ^ 16 * last < 10 ^ 16 * (2 * room * quarter) :=
      calc 10 ^ 16 * last ≤ x * (4 * quarter) := hfirst
        _ = 2 * x * (2 * quarter) := by ring
        _ < room * 10 ^ 16 * (2 * quarter) := by gcongr
        _ = 10 ^ 16 * (2 * room * quarter) := by ring
    linarith
  have htwo : room * quarter ≤ 2 * quarter := by gcongr
  have hoff : |c * last - x * (4 * quarter)| ≤ 1 / 2 * last :=
    calc |c * last - x * (4 * quarter)|
        = |(c - x * (4 * quarter) * scale) * last| := by
          rw [sub_mul, mul_assoc _ scale, hunit, mul_one]
      _ = |c - x * (4 * quarter) * scale| * last := by rw [abs_mul, abs_of_pos hlast]
      _ ≤ 1 / 2 * last := by gcongr
  obtain ⟨hlo, hhi⟩ := abs_le.1 hoff
  constructor <;> linarith

/-- Seventeen digits from the first one on are enough. -/
theorem roundsTo_of_digits (hm : Canonical m e) {p : Int} {c : Nat}
    (hp : (10 : ℚ) ^ (p - 1) ≤ m * 2 ^ e) (hc : |(c : ℚ) - m * 2 ^ e * 10 ^ (17 - p)| ≤ 1 / 2) :
    RoundsTo m e (c * 10 ^ (p - 17)) := by
  have hunit : (10 : ℚ) ^ (17 - p) * 10 ^ (p - 17) = 1 := by
    rw [← zpow_add₀ (by norm_num)]
    simp
  have hfirst : (10 : ℚ) ^ (p - 1) = 10 ^ 16 * 10 ^ (p - 17) := by
    rw [← zpow_natCast, ← zpow_add₀ (by norm_num)]
    congr 1
    push_cast
    ring
  have hroom : 2 * m < below m e * 10 ^ 16 := by
    have hlt : m < 9007199254740992 := hm.lt
    rcases below_cases m e with ⟨hone, heq, -⟩ | htwo
    · rw [hone, heq]
      decide
    · omega
  rw [hfirst, four_mul_unit] at hp
  rw [four_mul_unit] at hc
  have hroomQ : 2 * (m : ℚ) < below m e * 10 ^ 16 := by exact_mod_cast hroom
  have hle : (below m e : ℚ) ≤ 2 := by exact_mod_cast below_le m e
  obtain ⟨hlo, hhi⟩ :=
    near_of_last_digit hunit (by positivity) (by positivity) hp hroomQ hle hc
  exact .of_lt hlo hhi

/-- The test of the search, for the coefficient `c` in front of `10 ^ -shift`. -/
def readsBack (m : Nat) (e shift : Int) (c : Nat) : Bool :=
  let (lo, _, hi, den) := interval m e
  let (c', lo') := scale 10 (-shift) (c * den) 1
  if m % 2 == 0 then lo * lo' ≤ c' && c' ≤ hi * lo' else lo * lo' < c' && c' < hi * lo'

theorem search_succ (m : Nat) (e point : Int) (fuel count : Nat) :
    search m e point (fuel + 1) count =
      let shift := count - point
      let fraction := scale 10 shift (interval m e).2.1 (interval m e).2.2.2
      let near := roundDiv fraction.1 fraction.2
      let down := fraction.1 / fraction.2
      if readsBack m e shift near then ⟨near, -shift⟩
      else if readsBack m e shift down then ⟨down, -shift⟩
      else if readsBack m e shift (down + 1) then ⟨down + 1, -shift⟩
      else search m e point fuel (count + 1) := rfl

theorem roundsTo_of_readsBack (hpos : 0 < m) {shift : Int} {c : Nat}
    (h : readsBack m e shift c) : RoundsTo m e (c * 10 ^ (-shift)) := by
  obtain ⟨hden, hlo, -, hhi⟩ := interval_spec hpos e
  unfold readsBack at h
  generalize interval m e = ends at hden hlo hhi h
  obtain ⟨lo, v, hi, den⟩ := ends
  obtain ⟨hd, hc⟩ := scale_spec (show 0 < 10 by decide) Nat.one_pos (-shift) (c * den)
  simp only at hden hlo hhi h
  generalize scale 10 (-shift) (c * den) 1 = x at hd hc h
  have hdenQ : (0 : ℚ) < den := by exact_mod_cast hden
  have hdQ : (0 : ℚ) < x.2 := by exact_mod_cast hd
  -- the decimal over the common denominator
  have hvalue : (c * 10 ^ (-shift) : ℚ) = x.1 / (x.2 * den) := by
    rw [div_mul_eq_div_div, hc]
    push_cast
    field_simp
  have hlo' : (4 * m - below m e : ℚ) * 2 ^ (e - 2) = lo * x.2 / (x.2 * den) := by
    rw [← hlo]
    field_simp
  have hhi' : (4 * m + 2 : ℚ) * 2 ^ (e - 2) = hi * x.2 / (x.2 * den) := by
    rw [← hhi]
    field_simp
  unfold RoundsTo
  simp only
  rw [hvalue, hlo', hhi']
  have hpair : (0 : ℚ) < x.2 * den := mul_pos hdQ hdenQ
  rw [div_le_div_iff_of_pos_right hpair, div_le_div_iff_of_pos_right hpair,
    div_lt_div_iff_of_pos_right hpair, div_lt_div_iff_of_pos_right hpair]
  by_cases heven : m % 2 = 0
  · simp only [heven, beq_self_eq_true, if_true, Bool.and_eq_true, decide_eq_true_eq] at h ⊢
    exact_mod_cast h
  · simp only [beq_iff_eq, heven, if_false, Bool.and_eq_true, decide_eq_true_eq] at h ⊢
    exact_mod_cast h

/-- Whatever digits the search ends with, they read back. -/
theorem search_roundsTo (hm : Canonical m e) (hpos : 0 < m) {point : Int}
    (hpoint : (10 : ℚ) ^ (point - 1) ≤ m * 2 ^ e) (fuel count : Nat) (hcount : fuel + count = 17) :
    RoundsTo m e (search m e point fuel count).value := by
  induction fuel generalizing count with
  | zero =>
    obtain rfl : count = 17 := by omega
    obtain ⟨hden, -, hv, -⟩ := interval_spec hpos e
    obtain ⟨hd, hc⟩ :=
      scale_spec (show 0 < 10 by decide) hden ((17 : Nat) - point) (interval m e).2.1
    have hnear := abs_roundDiv_sub_le hd
      (scale 10 ((17 : Nat) - point) (interval m e).2.1 (interval m e).2.2.2).1
    rw [hc, hv] at hnear
    exact roundsTo_of_digits hm hpoint hnear
  | succ fuel ih =>
    rw [search_succ]
    simp only
    split
    · rename_i h
      exact roundsTo_of_readsBack hpos h
    · split
      · rename_i h
        exact roundsTo_of_readsBack hpos h
      · split
        · rename_i h
          exact roundsTo_of_readsBack hpos h
        · exact ih (count + 1) (by omega)

theorem dropZeros_value (fuel : Nat) (x : Scientific) :
    (Scientific.dropZeros fuel x).value = x.value := by
  induction fuel generalizing x with
  | zero => rfl
  | succ fuel ih =>
    unfold Scientific.dropZeros
    split
    · rename_i hzero
      have hten : x.coefficient = x.coefficient / 10 * 10 := by
        have : x.coefficient % 10 = 0 := by simpa using hzero
        omega
      have htenQ : (x.coefficient : ℚ) = (x.coefficient / 10 : Nat) * 10 := by exact_mod_cast hten
      rw [ih, Scientific.value, Scientific.value, htenQ, zpow_add_one₀ (by norm_num)]
      ring
    · rfl

theorem normalize_value (x : Scientific) : x.normalize.value = x.value := by
  unfold Scientific.normalize
  split
  · rename_i hzero
    have hcoefficient : x.coefficient = 0 := by simpa using hzero
    simp [Scientific.value, hcoefficient]
  · exact dropZeros_value _ x

theorem shortest_roundsTo (hm : Canonical m e) (hpos : 0 < m) :
    RoundsTo m e (shortest m e).value := by
  obtain ⟨hd, hvalue⟩ := scale_spec Nat.two_pos Nat.one_pos e m
  rw [Nat.cast_one, div_one, Nat.cast_ofNat] at hvalue
  have hone : (1 : ℚ) ≤ m := by exact_mod_cast hpos
  have hlt : (m : ℚ) < 2 ^ (53 : Int) := by exact_mod_cast hm.lt
  have hpower : (0 : ℚ) < 2 ^ e := by positivity
  have hlow : (2 : ℚ) ^ (-1074 : Int) ≤ m * 2 ^ e :=
    calc (2 : ℚ) ^ (-1074 : Int) ≤ 2 ^ e := zpow_le_zpow_right₀ one_le_two hm.exponent_ge
      _ ≤ m * 2 ^ e := le_mul_of_one_le_left hpower.le hone
  have hhigh : (m : ℚ) * 2 ^ e < 2 ^ (1024 : Int) :=
    calc (m : ℚ) * 2 ^ e < 2 ^ (53 : Int) * 2 ^ e := by gcongr
      _ = 2 ^ (53 + e) := (zpow_add₀ two_ne_zero _ _).symm
      _ ≤ 2 ^ (1024 : Int) := zpow_le_zpow_right₀ one_le_two (by have := hm.exponent_le; omega)
  have hnum : 0 < (scale 2 e m 1).1 := by
    by_contra hzero
    obtain hzero : (scale 2 e m 1).1 = 0 := by omega
    rw [hzero, Nat.cast_zero, zero_div] at hvalue
    have := mul_pos (show (0 : ℚ) < m by linarith) hpower
    linarith
  have hpoint := pointOf_spec hnum hd (hvalue ▸ hlow) (hvalue ▸ hhigh)
  rw [hvalue] at hpoint
  have hne : (m == 0) = false := by
    rw [beq_eq_false_iff_ne]
    omega
  have hshortest : shortest m e =
      (search m e (pointOf (scale 2 e m 1).1 (scale 2 e m 1).2) 16 1).normalize := by
    simp [shortest, hne]
  rw [hshortest, normalize_value]
  exact search_roundsTo hm hpos hpoint 16 1 rfl

theorem Canonical.exponent_zero (hm : Canonical 0 e) : e = -1074 :=
  hm.full.resolve_left (by decide)

/-- The shortest decimal tells the number. -/
theorem shortest_value_injective (hm : Canonical m e) (hm' : Canonical m' e')
    (h : (shortest m e).value = (shortest m' e').value) : m = m' ∧ e = e' := by
  have hzero : ∀ e, (shortest 0 e).value = 0 := fun e => by simp [shortest, Scientific.value]
  rcases Nat.eq_zero_or_pos m with rfl | hpos <;> rcases Nat.eq_zero_or_pos m' with rfl | hpos'
  · exact ⟨rfl, hm.exponent_zero.trans hm'.exponent_zero.symm⟩
  · have := (shortest_roundsTo hm' hpos').pos hpos'
    rw [← h, hzero] at this
    exact absurd this (lt_irrefl 0)
  · have := (shortest_roundsTo hm hpos).pos hpos
    rw [h, hzero] at this
    exact absurd this (lt_irrefl 0)
  · have hrounds := shortest_roundsTo hm hpos
    rw [h] at hrounds
    exact hrounds.unique hm hm' (shortest_roundsTo hm' hpos')

end

end ThreeAddress.Decimal
