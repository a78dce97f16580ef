import ThreeAddress.Instr.Lowering

/-! Generated names: different numbers make different names, and a temporary never has a name that
the source uses. -/
namespace ThreeAddress

namespace Text

theorem toNat_toUInt8 {c : Char} (h : c.isDigit) :
    c.toUInt8.toNat = c.toNat ∧ 48 ≤ c.toNat ∧ c.toNat ≤ 57 := by
  have hbounds : 48 ≤ c.val.toNat ∧ c.val.toNat ≤ 57 := by
    simpa [Char.isDigit, UInt32.le_iff_toNat_le] using h
  refine ⟨?_, hbounds⟩
  show c.val.toUInt8.toNat = c.val.toNat
  rw [UInt32.toNat_toUInt8]
  omega

theorem ofUInt8_toUInt8 {c : Char} (h : c.isDigit) : Char.ofUInt8 c.toUInt8 = c := by
  apply Char.ext
  apply UInt32.toNat_inj.1
  show c.toUInt8.toUInt32.toNat = c.toNat
  rw [UInt8.toNat_toUInt32, (toNat_toUInt8 h).1]

theorem isDigit_of_mem_ofNat {b : UInt8} {n : Nat} (h : b ∈ ofNat n) : isDigit b := by
  obtain ⟨c, hc, rfl⟩ := List.mem_map.1 h
  obtain ⟨hbyte, hbounds⟩ :=
    toNat_toUInt8 (Nat.isDigit_of_mem_toDigits (by decide) (by decide) hc)
  have hzero : (ascii '0').toNat = 48 := by decide
  have hnine : (ascii '9').toNat = 57 := by decide
  simp only [isDigit, Bool.and_eq_true, decide_eq_true_eq, UInt8.le_iff_toNat_le, hbyte, hzero,
    hnine]
  exact hbounds

theorem ofNat_injective {m n : Nat} (h : ofNat m = ofNat n) : m = n := by
  have hback : ∀ i, (ofNat i).map Char.ofUInt8 = Nat.toDigits 10 i := by
    intro i
    rw [ofNat, List.map_map]
    conv => rhs; rw [← List.map_id (Nat.toDigits 10 i)]
    refine List.map_congr_left fun c hc => ?_
    exact ofUInt8_toUInt8 (Nat.isDigit_of_mem_toDigits (by decide) (by decide) hc)
  have hdigits : Nat.toDigits 10 m = Nat.toDigits 10 n := by
    rw [← hback, ← hback, h]
  rw [← Nat.ofDigitChars_ten_toDigits (n := m), hdigits, Nat.ofDigitChars_ten_toDigits]

theorem append_ofNat_injective {stem : Text} {m n : Nat} (h : stem ++ ofNat m = stem ++ ofNat n) :
    m = n :=
  ofNat_injective (List.append_cancel_left h)

end Text

namespace Lower

variable {stem : Text} {reserved : List Text}

theorem le_freeNumber (fuel n : Nat) : n ≤ freeNumber stem reserved fuel n := by
  induction fuel generalizing n with
  | zero => exact Nat.le_refl n
  | succ fuel ih =>
    rw [freeNumber]
    split
    · exact Nat.le_of_succ_le (ih (n + 1))
    · exact Nat.le_refl n

/-- Either a free number is found, or as many reserved names were met as were tried. -/
theorem freeNumber_cases (fuel n : Nat) :
    stem ++ Text.ofNat (freeNumber stem reserved fuel n) ∉ reserved ∨
      ∀ i ≤ fuel, stem ++ Text.ofNat (n + i) ∈ reserved := by
  induction fuel generalizing n with
  | zero =>
    by_cases h : stem ++ Text.ofNat n ∈ reserved
    · refine Or.inr fun i hi => ?_
      obtain rfl : i = 0 := by omega
      exact h
    · exact Or.inl h
  | succ fuel ih =>
    by_cases h : stem ++ Text.ofNat n ∈ reserved
    · rw [freeNumber, if_pos (by simpa using h)]
      obtain hfree | hall := ih (n + 1)
      · exact Or.inl hfree
      · refine Or.inr fun i hi => ?_
        cases i with
        | zero => exact h
        | succ i =>
          have := hall i (by omega)
          rwa [show n + 1 + i = n + (i + 1) by omega] at this
    · rw [freeNumber, if_neg (by simpa using h)]
      exact Or.inl h

/-- Of one more number than there are reserved names, one is free. -/
theorem freeNumber_free (n : Nat) :
    stem ++ Text.ofNat (freeNumber stem reserved reserved.length n) ∉ reserved := by
  obtain hfree | hall := freeNumber_cases reserved.length n
  · exact hfree
  · let tried := (List.range (reserved.length + 1)).map fun i => stem ++ Text.ofNat (n + i)
    have hnodup : tried.Nodup := by
      refine List.pairwise_map.2 (List.nodup_range.imp fun hne heq => hne ?_)
      have := Text.append_ofNat_injective heq
      omega
    have hsub : tried ⊆ reserved := by
      intro x hx
      obtain ⟨i, hi, rfl⟩ := List.mem_map.1 hx
      exact hall i (by simpa [Nat.lt_succ_iff] using hi)
    have hle := hnodup.length_le_of_subset hsub
    simp only [tried, List.length_map, List.length_range] at hle
    omega

end Lower

namespace Names

variable (scheme : Scheme) (reserved : List Text)

/-- The number of the next temporary. -/
def nextTemp (names : Names) : Nat :=
  Lower.freeNumber scheme.tempStem reserved reserved.length (names.lastTemp + 1)

def withTemp (names : Names) : Names :=
  { names with lastTemp := names.nextTemp scheme reserved, temps := names.temps + 1 }

def withLabel (names : Names) : Names := { names with labels := names.labels + 1 }

def withName (names : Names) (n : Name) : Names :=
  { names with symbols := names.symbols.declare n.text n.span.start }

theorem lastTemp_lt_nextTemp (names : Names) : names.lastTemp < names.nextTemp scheme reserved :=
  Lower.le_freeNumber _ _

end Names

namespace Scheme

/-- The temporary with the given number. -/
def temp (scheme : Scheme) (n : Nat) : Text := scheme.tempStem ++ Text.ofNat n

/-- The label with the given number. -/
def label (scheme : Scheme) (n : Nat) : Text := scheme.labelStem ++ Text.ofNat n

theorem temp_injective {scheme : Scheme} {m n : Nat} (h : scheme.temp m = scheme.temp n) : m = n :=
  Text.append_ofNat_injective h

theorem label_injective {scheme : Scheme} {m n : Nat} (h : scheme.label m = scheme.label n) :
    m = n :=
  Text.append_ofNat_injective h

end Scheme

/-- The names of a program that a temporary might be called. -/
def Scheme.reserved (scheme : Scheme) (names : List Text) : List Text :=
  names.filter (scheme.tempStem.isPrefixOf ·)

theorem Names.temp_nextTemp_not_mem (scheme : Scheme) (vars : List Text) (names : Names) :
    scheme.temp (names.nextTemp scheme (scheme.reserved vars)) ∉ vars := by
  intro hmem
  refine Lower.freeNumber_free (names.lastTemp + 1) (List.mem_filter.2 ⟨hmem, ?_⟩)
  exact List.isPrefixOf_iff_prefix.2 (List.prefix_append _ _)

end ThreeAddress
