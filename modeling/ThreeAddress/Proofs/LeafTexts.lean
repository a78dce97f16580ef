import ThreeAddress.Proofs.FreshNames
import ThreeAddress.Proofs.Literals
import ThreeAddress.Proofs.ShortestDecimals

/-! The texts of number leaves. Such a text is read back to the decimal number that it writes, and
the decimal number tells the double-precision one, so that different numbers have different
texts. -/
namespace ThreeAddress

namespace Text

theorem foldl_decimal (n : Nat) (s : Text) :
    s.foldl (fun n b => n * 10 + (b.toNat - 48)) n = n * 10 ^ s.length + s.decimal := by
  unfold decimal
  induction s generalizing n with
  | nil => simp
  | cons b s ih =>
    rw [List.foldl_cons, List.foldl_cons, ih, ih (0 * 10 + (b.toNat - 48)), List.length_cons]
    ring

theorem decimal_append (s t : Text) : (s ++ t).decimal = s.decimal * 10 ^ t.length + t.decimal := by
  rw [decimal, List.foldl_append, foldl_decimal]
  rfl

theorem decimal_zeros (n : Nat) : decimal (List.replicate n (ascii '0')) = 0 := by
  induction n with
  | zero => rfl
  | succ n ih =>
    have hzero : decimal [ascii '0'] = 0 := rfl
    rw [List.replicate_succ, ← List.singleton_append, decimal_append, ih, hzero, Nat.zero_mul]

theorem decimal_ofNat (n : Nat) : (ofNat n).decimal = n := by
  have hdigits : ∀ cs : List Char, (∀ c ∈ cs, c.isDigit) → ∀ k,
      (cs.map Char.toUInt8).foldl (fun n b => n * 10 + (b.toNat - 48)) k =
        Nat.ofDigitChars 10 cs k := by
    intro cs
    induction cs with
    | nil => intro _ k; rfl
    | cons c cs ih =>
      intro hcs k
      have hbyte := (toNat_toUInt8 (hcs c List.mem_cons_self)).1
      rw [List.map_cons, List.foldl_cons, hbyte, ih fun d hd => hcs d (List.mem_cons_of_mem c hd),
        Nat.ofDigitChars_cons, Nat.mul_comm]
      rfl
  have hread := hdigits (Nat.toDigits 10 n)
    (fun c hc => Nat.isDigit_of_mem_toDigits (by decide) (by decide) hc) 0
  rw [Nat.ofDigitChars_ten_toDigits] at hread
  exact hread

theorem digits_ofNat (n : Nat) : Lexer.Digits (ofNat n) := by
  refine ⟨?_, fun b hb => isDigit_of_mem_ofNat hb⟩
  rw [← List.length_pos_iff, ofNat, List.length_map]
  exact Nat.length_toDigits_pos

theorem isDigit_of_mem_zeros {n : Nat} {b : UInt8} (h : b ∈ List.replicate n (ascii '0')) :
    isDigit b := by
  obtain rfl := List.eq_of_mem_replicate h
  decide

end Text

namespace Decimal

open Text Lexer

variable {s ds fs tail : Text} {t t' : Int} {v v' : ℚ}

theorem exponentText_eq (t : Int) : exponentText t =
    ascii 'e' :: ([ascii (if t < 0 then '-' else '+')] ++ padZero 2 (ofNat t.natAbs)) := by
  unfold exponentText
  split <;> rfl

theorem decimal_padZero (n : Nat) (s : Text) : (padZero n s).decimal = s.decimal := by
  rw [padZero, decimal_append, decimal_zeros, Nat.zero_mul, Nat.zero_add]

theorem exponentText_injective (h : exponentText t = exponentText t') : t = t' := by
  rw [exponentText_eq, exponentText_eq] at h
  simp only [List.singleton_append, List.cons.injEq, true_and] at h
  obtain ⟨hsign, hdigits⟩ := h
  have habs := congrArg decimal hdigits
  rw [decimal_padZero, decimal_padZero, decimal_ofNat, decimal_ofNat] at habs
  have hne : ascii '-' ≠ ascii '+' := by decide
  split at hsign <;> split at hsign
  · omega
  · exact absurd hsign hne
  · exact absurd hsign.symm hne
  · omega

theorem exponent_exponentText (t : Int) : Lexer.Exponent (exponentText t) := by
  rw [exponentText_eq]
  refine .mk (Or.inl rfl) ?_ ⟨?_, ?_⟩
  · split
    · exact Or.inr (Or.inr rfl)
    · exact Or.inr (Or.inl rfl)
  · exact List.append_ne_nil_of_right_ne_nil _ (digits_ofNat _).1
  · exact List.forall_mem_append.2
      ⟨fun b hb => isDigit_of_mem_zeros hb, (digits_ofNat _).2⟩

/-- The end of a decimal number, with the exponent that it stands for. -/
inductive Tail : Text → Int → Prop
  | none : Tail [] 0
  | exponent (t : Int) : Tail (exponentText t) t

theorem Tail.nil_or_exponent (h : Tail tail t) : tail = [] ∨ Lexer.Exponent tail := by
  cases h with
  | none => exact Or.inl rfl
  | exponent => exact Or.inr (exponent_exponentText t)

theorem Tail.unique (h : Tail tail t) (h' : Tail tail t') : t = t' := by
  have hne : ∀ t, exponentText t ≠ [] := by
    intro t
    rw [exponentText_eq]
    exact List.cons_ne_nil _ _
  generalize htail : tail = tail' at h'
  cases h with
  | none =>
    cases h' with
    | none => rfl
    | exponent => exact absurd htail.symm (hne t')
  | exponent =>
    cases h' with
    | none => exact absurd htail (hne t)
    | exponent => exact exponentText_injective htail

/-- The text is the number in decimal: digits, with a point among them or without one, and
perhaps an exponent. -/
inductive Written : Text → ℚ → Prop
  | whole {ds tail : Text} {t : Int} : Digits ds → Tail tail t →
      Written (ds ++ tail) (ds.decimal * 10 ^ t)
  | point {ds fs tail : Text} {t : Int} : Digits ds → Digits fs → Tail tail t →
      Written (ds ++ ascii '.' :: fs ++ tail) ((ds ++ fs).decimal * 10 ^ (t - fs.length))

theorem Written.number (h : Written s v) : Number s := by
  have htail : ∀ {m tail : Text} {t : Int}, Lexer.Mantissa m → Tail tail t →
      Number (m ++ tail) := by
    intro m tail t hm ht
    rcases ht.nil_or_exponent with rfl | he
    · rw [List.append_nil]
      exact .plain hm
    · exact .scientific hm he
  cases h with
  | whole hds ht => exact htail (.whole hds) ht
  | point hds hfs ht => exact htail (.point hds hfs.2) ht

/-- A number is read back from its text. -/
theorem Written.readMantissa (h : Written s v) : ∃ m tail t,
    readMantissa false .empty s = (m, tail) ∧ Tail tail t ∧ v = m.digits * 10 ^ (t - m.places) := by
  cases h with
  | @whole ds tail t hds ht =>
    refine ⟨Mantissa.empty.extend ds, tail, t, ?_, ht, ?_⟩
    · rw [readMantissa_run hds.2, readMantissa_stop _ ht.nil_or_exponent]
    · show _ = (ds.decimal : ℚ) * 10 ^ (t - (0 : Nat))
      rw [Nat.cast_zero, sub_zero]
  | @point ds fs tail t hds hfs ht =>
    refine ⟨Mantissa.extend { Mantissa.empty.extend ds with point := true } fs, tail, t, ?_, ht, ?_⟩
    · rw [List.append_assoc, readMantissa_run hds.2, List.cons_append, readMantissa_point rfl,
        readMantissa_run hfs.2, readMantissa_stop _ ht.nil_or_exponent]
    · show _ = ((fs.foldl (fun n b => n * 10 + (b.toNat - 48)) ds.decimal : Nat) : ℚ) *
        10 ^ (t - (0 + fs.length : Nat))
      rw [foldl_decimal, ← decimal_append, Nat.zero_add]

theorem Written.unique (h : Written s v) (h' : Written s v') : v = v' := by
  obtain ⟨m, tail, t, hread, ht, rfl⟩ := h.readMantissa
  obtain ⟨m', tail', t', hread', ht', rfl⟩ := h'.readMantissa
  obtain ⟨rfl, rfl⟩ := Prod.mk.inj (hread.symm.trans hread')
  rw [ht.unique ht']

/-- Digits around a point. The number is that of the digits without the point. -/
theorem written_split (n : Nat) {k : Nat} (hk : 0 < k) (hlt : k < (ofNat n).length) {tail : Text}
    {t : Int} (ht : Tail tail t) :
    Written ((ofNat n).take k ++ "." ++ (ofNat n).drop k ++ tail)
      (n * 10 ^ (t + k - (ofNat n).length)) := by
  have hdigits := digits_ofNat n
  have hfront : Digits ((ofNat n).take k) := by
    refine ⟨?_, fun b hb => hdigits.2 b (List.mem_of_mem_take hb)⟩
    rw [← List.length_pos_iff, List.length_take]
    omega
  have hback : Digits ((ofNat n).drop k) := by
    refine ⟨?_, fun b hb => hdigits.2 b (List.mem_of_mem_drop hb)⟩
    rw [← List.length_pos_iff, List.length_drop]
    omega
  have hwritten := Written.point hfront hback ht
  rw [List.take_append_drop, decimal_ofNat, List.length_drop] at hwritten
  have htext : (ofNat n).take k ++ "." ++ (ofNat n).drop k =
      (ofNat n).take k ++ ascii '.' :: (ofNat n).drop k := by
    rw [List.append_assoc]
    rfl
  have hexponent : t + k - (ofNat n).length = t - ((ofNat n).length - k : Nat) := by omega
  rw [htext, hexponent]
  exact hwritten

/-- Whatever the style, what is written is the number. -/
theorem written_render (style : Style) (x : Scientific) : Written (x.render style) x.value := by
  obtain ⟨n, e⟩ := x
  have hdigits := digits_ofNat n
  have hlen := List.length_pos_iff.2 hdigits.1
  unfold Scientific.render Scientific.value
  simp only [beq_iff_eq, Bool.or_eq_true, decide_eq_true_eq, List.isEmpty_iff, List.drop_eq_nil_iff]
  have hwhole : ∀ {tail t}, Tail tail t → Written (ofNat n ++ tail) (n * 10 ^ t) := by
    intro tail t ht
    have hwritten := Written.whole hdigits ht
    rwa [decimal_ofNat] at hwritten
  split
  case isTrue hzero =>
    obtain rfl := hzero
    have hwritten := hwhole .none
    rw [Nat.cast_zero, zero_mul, List.append_nil] at hwritten
    rw [Nat.cast_zero, zero_mul]
    exact hwritten
  split
  case isTrue => -- with an exponent
    split
    case isTrue hone =>
      have hexponent : ((ofNat n).length + e - 1 : Int) = e := by omega
      rw [hexponent]
      exact hwhole (.exponent e)
    case isFalse hmore =>
      have hwritten := written_split n one_pos (by omega) (.exponent ((ofNat n).length + e - 1))
      have hexponent : ((ofNat n).length + e - 1 + (1 : Nat) - (ofNat n).length : Int) = e := by
        omega
      rwa [hexponent] at hwritten
  have hzeros : ∀ (k : Nat) b, b ∈ List.replicate k (ascii '0') → isDigit b :=
    fun k b hb => isDigit_of_mem_zeros hb
  split
  case isTrue hsmall => -- below one, with zeros behind the point
    generalize hk : (-((ofNat n).length + e)).toNat = k
    have hfraction : Digits (List.replicate k (ascii '0') ++ ofNat n) :=
      ⟨List.append_ne_nil_of_right_ne_nil _ hdigits.1,
        List.forall_mem_append.2 ⟨hzeros k, hdigits.2⟩⟩
    have hwritten := Written.point (digits_ofNat 0) hfraction .none
    have hexponent : (0 - (k + (ofNat n).length : Nat) : Int) = e := by omega
    rw [decimal_append, decimal_append, decimal_zeros, decimal_ofNat, decimal_ofNat, Nat.zero_mul,
      Nat.zero_mul, Nat.zero_add, Nat.zero_add, List.length_append, List.length_replicate,
      hexponent, List.append_nil] at hwritten
    exact hwritten
  split
  case isTrue hle => -- zeros up to the point
    generalize hk : ((ofNat n).length + e).toNat - (ofNat n).length = k
    have hdigits' : Digits (ofNat n ++ List.replicate k (ascii '0')) :=
      ⟨List.append_ne_nil_of_left_ne_nil hdigits.1 _,
        List.forall_mem_append.2 ⟨hdigits.2, hzeros k⟩⟩
    have hwritten := Written.whole hdigits' .none
    have hexponent : e = k := by omega
    rw [List.take_of_length_le hle, hexponent, zpow_natCast]
    rw [decimal_append, decimal_zeros, decimal_ofNat, List.length_replicate, zpow_zero, mul_one,
      List.append_nil, Nat.add_zero, Nat.cast_mul, Nat.cast_pow] at hwritten
    exact hwritten
  case isFalse hlt => -- a point among the digits
    have hnone : ((ofNat n).length + e).toNat - (ofNat n).length = 0 := by omega
    have hwritten := written_split n (by omega) (Nat.lt_of_not_le hlt) .none
    have hexponent : (0 + ((ofNat n).length + e).toNat - (ofNat n).length : Int) = e := by omega
    rw [hexponent, List.append_nil] at hwritten
    rw [hnone, List.replicate_zero, List.append_nil]
    exact hwritten

/-- Neither negative nor NaN. -/
def IsNonNegative (x : Float) : Prop := x.toBits.toNat ≤ infinityBits

theorem isNonNegative_ofBits {n : Nat} (h : n ≤ infinityBits) :
    IsNonNegative (Float.ofBits (UInt64.ofNat n)) := by
  rcases Nat.eq_zero_or_pos n with rfl | hpos
  · show (Float.ofBits 0).toBits.toNat ≤ infinityBits
    decide
  · obtain ⟨e, m, hem, hbits⟩ := hasSign_ofBits hpos h
    have hbits : (Float.ofBits (UInt64.ofNat n)).toBits.toBitVec = (0#1 ++ e) ++ m := hbits
    have hnat := congrArg BitVec.toNat hbits
    rw [BitVec.toNat_append, ← Nat.shiftLeft_add_eq_or_of_lt m.isLt, BitVec.toNat_append,
      BitVec.toNat_ofNat, Nat.zero_mod, Nat.zero_shiftLeft, Nat.zero_or, Nat.shiftLeft_eq] at hnat
    have he := e.isLt
    have hm := m.isLt
    show (Float.ofBits (UInt64.ofNat n)).toBits.toBitVec.toNat ≤ 9218868437227405312
    rw [hnat]
    rcases Nat.lt_or_ge e.toNat 2047 with hlt | hge
    · omega
    · have hzero := hem.1 (BitVec.eq_of_toNat_eq (by rw [BitVec.toNat_ofNat]; omega))
      rw [hzero, BitVec.toNat_ofNat]
      omega

theorem isNonNegative_nearest (num den : Nat) : IsNonNegative (nearest false num den) := by
  apply isNonNegative_ofBits
  simp only [Bool.false_eq_true, if_false]
  split
  · exact Nat.zero_le _
  · exact Nat.min_le_left _ _

theorem isNonNegative_toFloat {n : Numeral} (h : n.negative = false) : IsNonNegative n.toFloat := by
  have hinfinity : IsNonNegative (infinity false) := isNonNegative_ofBits (Nat.le_refl _)
  unfold Numeral.toFloat
  simp only [h]
  repeat' split
  all_goals first
    | exact hinfinity
    | exact isNonNegative_nearest _ _

theorem negative_of_read? {n : Numeral} (h : Numeral.read? s = some n) :
    n.negative = (readSign s).1 := by
  unfold Numeral.read? at h
  simp only at h
  repeat' split at h
  -- every numeral that is returned has the sign that was read first
  all_goals cases h <;> rfl

theorem readSpecial_number (h : Number s) : readSpecial s = none := by
  obtain ⟨b, rest, rfl, hb | rfl⟩ := h.first
  · exact readSpecial_digits hb rest
  · rfl

/-- The numbers of a program are not negative: a sign is an operator. -/
theorem isNonNegative_of_numeral {raw : Text} {x : Float} (h : IsNumeral raw x) :
    IsNonNegative x := by
  obtain ⟨hlexed, -, -, reading, hread, rfl⟩ := h
  have hnumber := number_of_lexed hlexed
  rw [readFloat, readSpecial_number hnumber] at hread
  obtain ⟨n, hn, rfl⟩ := Option.map_eq_some_iff.1 hread
  apply isNonNegative_toFloat
  rw [negative_of_read? hn, (number_front hnumber).1]

theorem eq_of_toBits {x y : Float} (h : x.toBits.toNat = y.toBits.toNat) : x = y := by
  obtain ⟨⟨b, hb⟩⟩ := x
  obtain ⟨⟨b', hb'⟩⟩ := y
  obtain rfl : b = b' := UInt64.toNat_inj.1 h
  rfl

theorem parts_nonNegative {x : Float} (hx : IsNonNegative x) :
    (x.toBits.toNat = infinityBits ∧ parts x = .infinite false) ∨
    ∃ m e, parts x = .finite false m e ∧ Canonical m e ∧
      x.toBits.toNat = (e + 1074).toNat * 1 <<< 52 + m := by
  have hx : x.toBits.toNat ≤ 9218868437227405312 := hx
  have hpower : (1 <<< 52 : Nat) = 4503599627370496 := by decide
  have hpower' : (1 <<< 53 : Nat) = 9007199254740992 := by decide
  have hfield : (1 <<< 11 : Nat) = 2048 := by decide
  have hinf : infinityBits = 9218868437227405312 := by decide
  unfold parts
  simp only [Nat.shiftRight_eq_div_pow, hpower, hfield, beq_iff_eq]
  generalize x.toBits.toNat = bits at hx
  have hsign : (bits / 2 ^ 63 == 1) = false := by
    rw [beq_eq_false_iff_ne]
    omega
  simp only [hsign]
  split
  · left
    have hfraction : bits % 4503599627370496 = 0 := by omega
    simp only [hfraction, if_true, and_true]
    omega
  · right
    split
    · refine ⟨_, _, rfl, ⟨?_, ?_, ?_, ?_⟩, ?_⟩ <;> omega
    · refine ⟨_, _, rfl, ⟨?_, ?_, ?_, ?_⟩, ?_⟩ <;> omega

/-- The text of a leaf: infinity, or a number in decimal that tells the bits. -/
theorem leafText_nonNegative {x : Float} (hx : IsNonNegative x) :
    (x.toBits.toNat = infinityBits ∧ leafText x = "+Inf") ∨
    ∃ m e, Canonical m e ∧ x.toBits.toNat = (e + 1074).toNat * 1 <<< 52 + m ∧
      Written (leafText x) (shortest m e).value := by
  rcases parts_nonNegative hx with ⟨hbits, hparts⟩ | ⟨m, e, hparts, hm, hbits⟩
  · refine Or.inl ⟨hbits, ?_⟩
    simp [leafText, hparts, Style.leaf]
  · refine Or.inr ⟨m, e, hm, hbits, ?_⟩
    have htext : leafText x = (shortest m e).render .leaf := by simp [leafText, hparts, signed]
    rw [htext]
    exact written_render _ _

theorem number_ne_infinity (h : Number s) : s ≠ "+Inf" := by
  rintro rfl
  obtain ⟨b, rest, hs, hb⟩ := h.first
  obtain ⟨rfl, -⟩ := List.cons.inj hs
  revert hb
  decide

/-- Different numbers have different texts. -/
theorem leafText_injective {x y : Float} (hx : IsNonNegative x) (hy : IsNonNegative y)
    (h : leafText x = leafText y) : x = y := by
  apply eq_of_toBits
  rcases leafText_nonNegative hx with ⟨hbits, htext⟩ | ⟨m, e, hm, hbits, htext⟩ <;>
    rcases leafText_nonNegative hy with ⟨hbits', htext'⟩ | ⟨m', e', hm', hbits', htext'⟩
  · rw [hbits, hbits']
  · exact absurd (h.symm.trans htext) (number_ne_infinity htext'.number)
  · exact absurd (h.trans htext') (number_ne_infinity htext.number)
  · rw [h] at htext
    obtain ⟨rfl, rfl⟩ := shortest_value_injective hm hm' (htext.unique htext')
    rw [hbits, hbits']

end Decimal

end ThreeAddress
