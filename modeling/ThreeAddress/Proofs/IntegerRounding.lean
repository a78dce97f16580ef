import ThreeAddress.Proofs.AddingZero

/-! Integers that go through a floating-point number. They are rounded once: what comes back goes
through unchanged. -/
namespace ThreeAddress

open Float.Model Float.Model.UnpackedFloat

/-- A mantissa of 53 bits. -/
structure IsFull (m : Nat) : Prop where
  le : 2 ^ 52 ≤ m
  lt : m < 2 ^ 53

section

variable {m n : Nat} {e : Int}

theorem IsFull.pos (h : IsFull m) : 0 < m := Nat.lt_of_lt_of_le (by decide) h.le

theorem IsFull.log2_mul (h : IsFull m) (t : Nat) : (m * 2 ^ t).log2 = 52 + t := by
  have hpos : 0 < 2 ^ t := Nat.two_pow_pos t
  rw [Nat.log2_eq_iff (Nat.ne_of_gt (Nat.mul_pos h.pos hpos)), Nat.add_right_comm, Nat.pow_add,
    Nat.pow_add]
  exact ⟨Nat.mul_le_mul_right _ h.le, Nat.mul_lt_mul_of_pos_right h.lt hpos⟩

theorem target_exponent (t : Int) : Format.binary64.targetExponent t = max (t - 53) (-1074) := rfl

theorem shift_eq {t : Nat}
    (ht : (Format.binary64.targetExponent (totalExponent m e) - e).toNat = t) :
    shiftToTargetExponent .binary64 m e .exact =
      (ExtendedMantissa.mk m false false >>> t, e + t) := by
  rw [shiftToTargetExponent, shiftToExponent, ht]
  rfl

theorem mantissa_shift (em : ExtendedMantissa) (t : Nat) :
    (em >>> t).mantissa = em.mantissa / 2 ^ t := by
  induction t with
  | zero => simp [HShiftRight.hShiftRight, Nat.repeat]
  | succ t ih =>
    show (em >>> t).mantissa / 2 = _
    rw [ih, Nat.div_div_eq_div_mul, Nat.pow_succ]

/-- Bits that are zero are lost without a trace. -/
theorem shift_mul_two_pow (m t : Nat) :
    ExtendedMantissa.mk (m * 2 ^ t) false false >>> t = ⟨m, false, false⟩ := by
  induction t generalizing m with
  | zero => simp [HShiftRight.hShiftRight, Nat.repeat]
  | succ t ih =>
    have hsplit : m * 2 ^ (t + 1) = m * 2 * 2 ^ t := by
      rw [Nat.pow_succ, Nat.mul_comm (2 ^ t) 2, Nat.mul_assoc]
    rw [hsplit]
    show (ExtendedMantissa.mk (m * 2 * 2 ^ t) false false >>> t).shiftRightOne = _
    rw [ih]
    simp [ExtendedMantissa.shiftRightOne]

theorem roundedMantissa_bounds (em : ExtendedMantissa) :
    em.mantissa ≤ em.roundedMantissa ∧ em.roundedMantissa ≤ em.mantissa + 1 := by
  obtain ⟨m, round, sticky⟩ := em
  cases round <;> cases sticky <;> simp [ExtendedMantissa.roundedMantissa,
    ExtendedMantissa.accuracy, Accuracy.roundToNearestEven]
  omega

/-- A full mantissa is left as it is. -/
theorem IsFull.shift (h : IsFull m) (he : -1074 ≤ e) :
    shiftToTargetExponent .binary64 m e .exact = (⟨m, false, false⟩, e) := by
  have hlog := h.log2_mul 0
  rw [Nat.pow_zero, Nat.mul_one] at hlog
  rw [shift_eq (t := 0), Nat.cast_zero, Int.add_zero]
  · rfl
  · rw [target_exponent, totalExponent, hlog]
    omega

/-- A mantissa that was rounded up to one bit more is shifted once again. -/
theorem shift_carry (he : -1074 ≤ e) :
    shiftToTargetExponent .binary64 (2 ^ 53) e .exact = (⟨2 ^ 52, false, false⟩, e + 1) := by
  have hlog := Nat.log2_two_pow (n := 53)
  rw [shift_eq (t := 1)]
  · rfl
  · rw [target_exponent, totalExponent, hlog]
    omega

theorem roundWithAccuracy_eq {em : ExtendedMantissa} {e₁ e₂ : Int} (hm : 0 < m)
    (h₁ : shiftToTargetExponent .binary64 n e .exact = (em, e₁))
    (h₂ : shiftToTargetExponent .binary64 em.roundedMantissa e₁ .exact =
      (⟨m, false, false⟩, e₂)) :
    roundWithAccuracy .binary64 .positive n e .exact = .finite .positive m e₂ hm := by
  simp [roundWithAccuracy, h₁, h₂, Nat.ne_of_gt hm]

theorem round_eq {t : Nat}
    (ht : (0 - Format.binary64.targetExponent (totalExponent n 0)).toNat = t) :
    round .binary64 .positive n 0 =
      roundWithAccuracy .binary64 .positive (n * 2 ^ t) (-t) .exact := by
  rw [UnpackedFloat.round, decreaseExponent, ht]
  simp [Nat.shiftLeft_eq]

/-- A number that is large enough is not shifted to the left. -/
theorem round_large (h : 2 ^ 52 ≤ n) :
    round .binary64 .positive n 0 = roundWithAccuracy .binary64 .positive n 0 .exact := by
  have hlog : 52 ≤ n.log2 := (Nat.le_log2 (by omega)).2 h
  rw [round_eq (t := 0), Nat.pow_zero, Nat.mul_one]
  · rfl
  · rw [target_exponent, totalExponent]
    omega

/-- A number with a full mantissa is not rounded. -/
theorem IsFull.round_mul (h : IsFull m) (t : Nat) :
    round .binary64 .positive (m * 2 ^ t) 0 = .finite .positive m t h.pos := by
  have hlarge : 2 ^ 52 ≤ m * 2 ^ t :=
    Nat.le_trans h.le (Nat.le_mul_of_pos_right _ (Nat.two_pow_pos t))
  have hshift : shiftToTargetExponent .binary64 (m * 2 ^ t) 0 .exact = (⟨m, false, false⟩, ↑t) := by
    rw [shift_eq (t := t), shift_mul_two_pow, Int.zero_add]
    rw [target_exponent, totalExponent, h.log2_mul]
    omega
  rw [round_large hlarge]
  exact roundWithAccuracy_eq h.pos hshift (h.shift (by omega))

/-- A number of at most 53 bits is not rounded either. -/
theorem round_small (hpos : 0 < n) (hn : n < 2 ^ 53) : ∃ t m : Nat, ∃ h : IsFull m, m = n * 2 ^ t ∧
    t ≤ 52 ∧ round .binary64 .positive n 0 = .finite .positive m (-t) h.pos := by
  have hlog : n.log2 ≤ 52 := Nat.le_of_lt_succ ((Nat.log2_lt (Nat.ne_of_gt hpos)).2 hn)
  have hbounds := (Nat.log2_eq_iff (Nat.ne_of_gt hpos)).1 rfl
  have hfull : IsFull (n * 2 ^ (52 - n.log2)) := by
    have hpow : 2 ^ n.log2 * 2 ^ (52 - n.log2) = 2 ^ 52 := by
      rw [← Nat.pow_add, Nat.add_sub_cancel' hlog]
    have hpow' : 2 ^ (n.log2 + 1) * 2 ^ (52 - n.log2) = 2 ^ 53 := by
      rw [Nat.pow_succ, Nat.mul_right_comm, hpow]
      rfl
    constructor
    · rw [← hpow]
      exact Nat.mul_le_mul_right _ hbounds.1
    · rw [← hpow']
      exact Nat.mul_lt_mul_of_pos_right hbounds.2 (Nat.two_pow_pos _)
  refine ⟨52 - n.log2, _, hfull, rfl, by omega, ?_⟩
  rw [round_eq (t := 52 - n.log2)]
  · exact roundWithAccuracy_eq hfull.pos (hfull.shift (by omega)) (hfull.shift (by omega))
  · rw [target_exponent, totalExponent]
    omega

/-- A larger number is rounded to a full mantissa. -/
theorem round_full (hn : 2 ^ 53 ≤ n) (hlt : n < 2 ^ 64) : ∃ t m : Nat, ∃ h : IsFull m,
    t ≤ 12 ∧ round .binary64 .positive n 0 = .finite .positive m t h.pos := by
  have hpos : n ≠ 0 := by omega
  have hlog : 53 ≤ n.log2 := (Nat.le_log2 hpos).2 hn
  have hlog' : n.log2 < 64 := (Nat.log2_lt hpos).2 hlt
  have hbounds := (Nat.log2_eq_iff hpos).1 rfl
  have hshift : shiftToTargetExponent .binary64 n 0 .exact =
      (ExtendedMantissa.mk n false false >>> (n.log2 - 52), ((n.log2 - 52 : Nat) : Int)) := by
    rw [shift_eq (t := n.log2 - 52), Int.zero_add]
    rw [target_exponent, totalExponent]
    omega
  have hquot : IsFull (n / 2 ^ (n.log2 - 52)) := by
    have hpow : 2 ^ 52 * 2 ^ (n.log2 - 52) = 2 ^ n.log2 := by
      rw [← Nat.pow_add, Nat.add_sub_cancel' (by omega)]
    have hpow' : 2 ^ 53 * 2 ^ (n.log2 - 52) = 2 ^ (n.log2 + 1) := by
      rw [Nat.pow_succ 2 n.log2, ← hpow]
      omega
    constructor
    · rw [Nat.le_div_iff_mul_le (Nat.two_pow_pos _), hpow]
      exact hbounds.1
    · rw [Nat.div_lt_iff_lt_mul (Nat.two_pow_pos _), hpow']
      exact hbounds.2
  have hround := roundedMantissa_bounds
    (ExtendedMantissa.mk n false false >>> (n.log2 - 52))
  rw [mantissa_shift] at hround
  rw [round_large (by omega)]
  by_cases hcarry : (ExtendedMantissa.mk n false false >>> (n.log2 - 52)).roundedMantissa =
      2 ^ 53
  · refine ⟨n.log2 - 51, 2 ^ 52, ⟨Nat.le_refl _, by decide⟩, by omega, ?_⟩
    have hexp : ((n.log2 - 51 : Nat) : Int) = (n.log2 - 52 : Nat) + 1 := by omega
    rw [hexp]
    refine roundWithAccuracy_eq _ hshift ?_
    rw [hcarry]
    exact shift_carry (by omega)
  · have hfull : IsFull
        (ExtendedMantissa.mk n false false >>> (n.log2 - 52)).roundedMantissa := by
      have := hquot.le
      have := hquot.lt
      constructor <;> simp only at hround <;> omega
    refine ⟨n.log2 - 52, _, hfull, by omega, ?_⟩
    exact roundWithAccuracy_eq _ hshift (hfull.shift (by omega))

/-- A number with a full mantissa is unpacked to what it was packed from. -/
theorem IsFull.unpack_pack (h : IsFull m) (he : -1074 ≤ e) (he' : e ≤ 971) (s : Sign) :
    (Float.Model.pack (.finite s m e h.pos)).unpack = .finite s m e h.pos := by
  obtain ⟨hle, hlt⟩ := h
  have hexp : (BitVec.ofNat 11 (e + 1075).toNat).toNat = (e + 1075).toNat := by
    rw [BitVec.toNat_ofNat]
    omega
  have hmant : (1#1 ++ BitVec.ofNat 52 m).toNat = m := by
    rw [BitVec.toNat_append, ← Nat.shiftLeft_add_eq_or_of_lt (BitVec.isLt _), BitVec.toNat_ofNat,
      Nat.shiftLeft_eq]
    show 1 * 2 ^ 52 + m % 2 ^ 52 = m
    omega
  have hinf : BitVec.ofNat 11 (e + 1075).toNat ≠ 2047#11 := by
    intro heq
    rw [heq] at hexp
    have : 2047 = (e + 1075).toNat := hexp
    omega
  have hzero : BitVec.ofNat 11 (e + 1075).toNat ≠ 0#11 := by
    intro heq
    rw [heq] at hexp
    have : 0 = (e + 1075).toNat := hexp
    omega
  have hbias : ((Format.binary64.exponentBias : Nat) : Int) = 1023 := rfl
  have hunpack : UnpackedFloat.unpack .binary64 (packComponents .binary64 s
      (BitVec.ofNat 11 (e + 1075).toNat) (BitVec.ofNat 52 m)) = .finite s m e (by omega) := by
    simp [UnpackedFloat.unpack, hinf, hzero, hbias, hexp, hmant]
    omega
  have hpack := IsMagnitude.pack_unpack (e := BitVec.ofNat 11 (e + 1075).toNat)
    (m := BitVec.ofNat 52 m) ⟨fun heq => absurd heq hinf, fun heq => absurd heq hzero⟩ s
  rw [hunpack] at hpack
  exact (congrArg (UnpackedFloat.unpack .binary64) hpack).trans hunpack

end

/-- The integer part of a number with a mantissa and an exponent. -/
theorem roundToInt_eq (m : Nat) (e : Int) :
    roundToInt .positive m e = (m * 2 ^ e.toNat / 2 ^ (-e).toNat : Nat) := by
  have hdown : (0 - (e - e.toNat)).toNat = (-e).toNat := by omega
  show ((shiftToExponent (m <<< (e - 0).toNat) (e - (e - 0).toNat) .exact 0).1.mantissa : Int) = _
  rw [Int.sub_zero, shiftToExponent, mantissa_shift, hdown, Nat.shiftLeft_eq]
  rfl

/-- An integer other than zero, as a floating-point number and back. That number is the nearest of
the integer that comes back too. -/
theorem exists_rounded {n : UInt64} (hn : n ≠ 0) : ∃ (m : Nat) (e : Int) (h : IsFull m),
    n.toFloat.toModel.unpack = .finite .positive m e h.pos ∧ -1074 ≤ e ∧ e ≤ 971 ∧
    ∃ v : Nat, 0 < v ∧ roundToInt .positive m e = v ∧
      (v < 2 ^ 64 → (UInt64.ofNat v).toFloat = n.toFloat) := by
  have hpos : 0 < n.toNat := Nat.pos_of_ne_zero fun h => hn (UInt64.toNat_inj.1 h)
  have hlt : n.toNat < 2 ^ 64 := n.toNat_lt
  -- the nearest number of a positive integer
  have hmodel : ∀ k : UInt64, 0 < k.toNat →
      k.toFloat.toModel = Float.Model.pack (round .binary64 .positive k.toNat 0) := by
    intro k hk
    have hgt : Ord.compare (k.toNat : Int) 0 = .gt := compare_gt_iff_gt.2 (by omega)
    show Float.Model.pack (normalize .binary64 k.toNat 0 .positive) = _
    rw [UnpackedFloat.normalize, hgt]
    rfl
  by_cases hsmall : n.toNat < 2 ^ 53
  · obtain ⟨t, m, h, hm, ht, hround⟩ := round_small hpos hsmall
    refine ⟨m, -t, h, ?_, by omega, by omega, n.toNat, hpos, ?_, fun _ => by simp⟩
    · rw [hmodel n hpos, hround, h.unpack_pack (by omega) (by omega)]
    · rw [roundToInt_eq, hm]
      simp
  · obtain ⟨t, m, h, ht, hround⟩ := round_full (by omega) hlt
    have hpos' : 0 < m * 2 ^ t := Nat.mul_pos h.pos (Nat.two_pow_pos t)
    refine ⟨m, t, h, ?_, by omega, by omega, m * 2 ^ t, hpos', ?_, ?_⟩
    · rw [hmodel n hpos, hround, h.unpack_pack (by omega) (by omega)]
    · rw [roundToInt_eq]
      simp
    · intro hv
      have hback : (UInt64.ofNat (m * 2 ^ t)).toNat = m * 2 ^ t := by
        rw [UInt64.toNat_ofNat']
        omega
      have hsame := hmodel (UInt64.ofNat (m * 2 ^ t)) (by omega)
      rw [hback, h.round_mul, ← hround, ← hmodel n hpos] at hsame
      exact congrArg Float.ofModel hsame

section

variable {n : UInt64}

theorem not_toFloat_lt_zero (hn : n ≠ 0) : ¬ n.toFloat < 0 := by
  obtain ⟨m, e, h, hunpack, -⟩ := exists_rounded hn
  rw [lt_iff_compare, hunpack]
  exact nofun

theorem unpack_neg_toFloat (hn : n ≠ 0) :
    (-n.toFloat).toModel.unpack = n.toFloat.toModel.unpack.neg ∧
      (- -n.toFloat).toModel.unpack = n.toFloat.toModel.unpack := by
  obtain ⟨m, e, h, hunpack, he, he', -⟩ := exists_rounded hn
  have hneg : (-n.toFloat).toModel.unpack = n.toFloat.toModel.unpack.neg := by
    show (Float.Model.pack n.toFloat.toModel.unpack.neg).unpack = _
    rw [hunpack]
    exact h.unpack_pack he he' .negative
  refine ⟨hneg, ?_⟩
  show (Float.Model.pack (-n.toFloat).toModel.unpack.neg).unpack = _
  rw [hneg, hunpack]
  exact h.unpack_pack he he' .positive

theorem neg_toFloat_lt_zero (hn : n ≠ 0) : -n.toFloat < 0 := by
  obtain ⟨m, e, h, hunpack, -⟩ := exists_rounded hn
  rw [lt_iff_compare, (unpack_neg_toFloat hn).1, hunpack]
  rfl

/-- The integer that comes back has the same nearest number, if a signed integer can hold it. -/
theorem toFloat_toUInt64 (hn : n ≠ 0) (hw : ¬ n.toFloat.toUInt64.toInt64 < 0) :
    n.toFloat.toUInt64 ≠ 0 ∧ n.toFloat.toUInt64.toFloat = n.toFloat := by
  obtain ⟨m, e, h, hunpack, -, -, v, hpos, hv, hsame⟩ := exists_rounded hn
  have hback : n.toFloat.toUInt64 = UInt64.ofNatClamp v := by
    show UInt64.ofNatClamp (n.toFloat.toModel.unpack.toInt 0 (UInt64.size - 1)).toNat = _
    rw [hunpack, UnpackedFloat.toInt, hv]
    rfl
  have hlt : v < 2 ^ 64 := by
    by_contra hge
    have hmax : n.toFloat.toUInt64 = UInt64.ofNat (2 ^ 64 - 1) := by
      rw [hback, ← UInt64.toNat_inj, UInt64.toNat_ofNatClamp_of_le (Nat.le_of_not_lt hge)]
      rfl
    rw [hmax] at hw
    exact hw (by decide)
  rw [hback, UInt64.ofNatClamp_eq_ofNat v hlt]
  refine ⟨fun hzero => ?_, hsame hlt⟩
  have := congrArg UInt64.toNat hzero
  rw [UInt64.toNat_ofNat', Nat.mod_eq_of_lt hlt] at this
  have : v = 0 := this
  omega

end

theorem integerPart_toFloat {n : UInt64} (hn : n ≠ 0) : integerPart n.toFloat =
    if n.toFloat.toUInt64.toInt64 < 0 then .maxValue else n.toFloat.toUInt64.toInt64 := by
  rw [integerPart, if_neg (not_toFloat_lt_zero hn)]

theorem integerPart_neg_toFloat {n : UInt64} (hn : n ≠ 0) : integerPart (-n.toFloat) =
    if n.toFloat.toUInt64.toInt64 < 0 then .minValue else -n.toFloat.toUInt64.toInt64 := by
  have hback : (- -n.toFloat).toUInt64 = n.toFloat.toUInt64 :=
    congrArg UnpackedFloat.toUInt64 (unpack_neg_toFloat hn).2
  rw [integerPart, if_pos (neg_toFloat_lt_zero hn), hback]

theorem neg_lt_zero {a : Int64} (hzero : a ≠ 0) (ha : ¬ a < 0) : -a < 0 := by
  have hne : a.toInt ≠ 0 := fun h => hzero (Int64.toInt_inj.1 h)
  have hlt := a.toInt_lt
  rw [Int64.lt_iff_toInt_lt] at ha ⊢
  rw [Int64.toInt_neg, Int.bmod_eq_of_le] <;> simp only [Int64.toInt_zero] at * <;> omega

/-- An integer is rounded once: what comes back goes through unchanged. -/
theorem integerPart_nearestFloat (a : Int64) :
    integerPart (nearestFloat (integerPart (nearestFloat a))) = integerPart (nearestFloat a) := by
  by_cases hzero : a = 0
  · subst hzero
    rfl
  by_cases hneg : a < 0
  · have hn : (-a).toUInt64 ≠ 0 := by
      intro h
      have hback : -a = 0 := congrArg UInt64.toInt64 h
      exact hzero (Int64.neg_neg.symm.trans (congrArg Neg.neg hback))
    have ha : nearestFloat a = -(-a).toUInt64.toFloat := if_pos hneg
    rw [ha, integerPart_neg_toFloat hn]
    split
    · rfl
    · rename_i hw
      obtain ⟨hne, hsame⟩ := toFloat_toUInt64 hn hw
      have hw₀ : (-a).toUInt64.toFloat.toUInt64.toInt64 ≠ 0 := fun h =>
        hne (congrArg Int64.toUInt64 h)
      rw [nearestFloat, if_pos (neg_lt_zero hw₀ hw), Int64.neg_neg]
      show integerPart (-(-a).toUInt64.toFloat.toUInt64.toFloat) = _
      rw [hsame, integerPart_neg_toFloat hn, if_neg hw]
  · have hn : a.toUInt64 ≠ 0 := fun h => hzero (congrArg UInt64.toInt64 h)
    have ha : nearestFloat a = a.toUInt64.toFloat := if_neg hneg
    rw [ha, integerPart_toFloat hn]
    split
    · rfl
    · rename_i hw
      obtain ⟨-, hsame⟩ := toFloat_toUInt64 hn hw
      rw [nearestFloat, if_neg hw]
      show integerPart a.toUInt64.toFloat.toUInt64.toFloat = _
      rw [hsame, integerPart_toFloat hn, if_neg hw]

namespace Value

/-- The first advance by a floating-point zero rounds an integer, and later ones do nothing. -/
theorem counted_float_zero (a : Int64) {z : Float} (hz : z == 0) (n : Nat) :
    counted .int (.int a) (.float z) (n + 1) = .int (integerPart (nearestFloat a)) := by
  induction n with
  | zero => exact congrArg int (integerPart_add_zero _ hz)
  | succ n ih =>
    rw [counted, ih]
    show int (integerPart (nearestFloat (integerPart (nearestFloat a)) + z)) = _
    rw [integerPart_add_zero _ hz, integerPart_nearestFloat]

/-- From the first advance on, a counter that advances by zero compares alike. -/
theorem compare_counted_succ {k : NumKind} {v d : Value} (hv : v.kind = k) (hd : d.IsZero)
    (n : Nat) (w : Value) :
    compare (counted k v d (n + 1)) w = compare (counted k v d 1) w := by
  subst hv
  cases v with
  | float x => rw [compare_counted rfl hd (Or.inl rfl), compare_counted rfl hd (Or.inl rfl)]
  | int a =>
    cases d with
    | int b => rw [compare_counted rfl hd (Or.inr rfl), compare_counted rfl hd (Or.inr rfl)]
    | float z => rw [kind, counted_float_zero a hd, counted_float_zero a hd]

end Value

end ThreeAddress
