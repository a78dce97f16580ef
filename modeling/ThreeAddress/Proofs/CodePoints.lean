import ThreeAddress.Text.Rune

/-! Code points at the start of a text: decoding finds one exactly where the UTF-8 encoding of a
character stands. -/
namespace ThreeAddress.Text

/-- A byte that continues the encoding of a code point. -/
def Trails (b : UInt8) : Prop := 0x80 ≤ b.toNat ∧ b.toNat < 0xC0

/-- The well-formed sequences of bytes and their code points: no overlong form, no surrogate,
nothing above U+10FFFF. -/
inductive Encodes : Text → Nat → Prop
  | one {b : UInt8} : b.toNat < 0x80 → Encodes [b] b.toNat
  | two {b c : UInt8} : 0xC2 ≤ b.toNat → b.toNat < 0xE0 → Trails c →
      Encodes [b, c] ((b.toNat - 0xC0) * 64 + (c.toNat - 0x80))
  | three {b c d : UInt8} : 0xE0 ≤ b.toNat → b.toNat < 0xF0 → Trails c → Trails d →
      (b.toNat = 0xE0 → 0xA0 ≤ c.toNat) → (b.toNat = 0xED → c.toNat < 0xA0) →
      Encodes [b, c, d] (((b.toNat - 0xE0) * 64 + (c.toNat - 0x80)) * 64 + (d.toNat - 0x80))
  | four {b c d e : UInt8} : 0xF0 ≤ b.toNat → b.toNat < 0xF5 → Trails c → Trails d → Trails e →
      (b.toNat = 0xF0 → 0x90 ≤ c.toNat) → (b.toNat = 0xF4 → c.toNat < 0x90) →
      Encodes [b, c, d, e] ((((b.toNat - 0xF0) * 64 + (c.toNat - 0x80)) * 64 +
        (d.toNat - 0x80)) * 64 + (e.toNat - 0x80))

variable {s rest : Text} {b c : UInt8} {code n : Nat}

theorem continues_iff (b lo hi : UInt8) :
    continues b lo hi = true ↔ lo.toNat ≤ b.toNat ∧ b.toNat ≤ hi.toNat := by
  simp [continues, UInt8.le_iff_toNat_le]

theorem trails_iff (b : UInt8) : continues b 0x80 0xBF = true ↔ Trails b := by
  rw [continues_iff, Trails]
  simp
  omega

/-- The second byte of a sequence, in the bounds that the first one sets. -/
theorem continues_secondRange (b c : UInt8) :
    continues c (secondRange b).1 (secondRange b).2 = true ↔
      Trails c ∧ (b.toNat = 0xE0 → 0xA0 ≤ c.toNat) ∧ (b.toNat = 0xED → c.toNat < 0xA0) ∧
        (b.toNat = 0xF0 → 0x90 ≤ c.toNat) ∧ (b.toNat = 0xF4 → c.toNat < 0x90) := by
  have hb : ∀ k : UInt8, b = k ↔ b.toNat = k.toNat := fun k => UInt8.toNat_inj.symm
  unfold secondRange Trails
  rw [continues_iff]
  simp only [beq_iff_eq, hb]
  repeat' split
  all_goals
    simp at *
    omega

/-- The first byte of a sequence of more than one. -/
theorem leads_iff (b : UInt8) :
    (¬ b < 0x80 ∧ (b < 0xC2 || 0xF4 < b) = false) ↔ 0xC2 ≤ b.toNat ∧ b.toNat < 0xF5 := by
  simp only [UInt8.lt_iff_toNat_lt, Bool.or_eq_false_iff, decide_eq_false_iff_not]
  simp
  omega

theorem decode_of_encodes {bytes : Text} (h : Encodes bytes code) (rest : Text) :
    decode (bytes ++ rest) = some (code, bytes.length) := by
  cases h with
  | one hb => simp [decode, UInt8.lt_iff_toNat_lt, hb]
  | @two b c hb hb' hc =>
    obtain ⟨h₁, h₂⟩ := (leads_iff b).2 (by omega)
    have h₃ : b < 0xE0 := UInt8.lt_iff_toNat_lt.2 hb'
    have hsecond := (continues_secondRange b c).2 ⟨hc, by omega, by omega, by omega, by omega⟩
    simp only [decode, List.cons_append, h₁, h₂, h₃, hsecond]
    rfl
  | @three b c d hb hb' hc hd hlow hhigh =>
    obtain ⟨h₁, h₂⟩ := (leads_iff b).2 (by omega)
    have h₃ : ¬ b < 0xE0 := fun h => by have := UInt8.lt_iff_toNat_lt.1 h; simp at this; omega
    have h₄ : b < 0xF0 := UInt8.lt_iff_toNat_lt.2 hb'
    have hsecond := (continues_secondRange b c).2 ⟨hc, hlow, hhigh, by omega, by omega⟩
    simp only [decode, List.cons_append, h₁, h₂, h₃, h₄, hsecond, (trails_iff d).2 hd]
    rfl
  | @four b c d e hb hb' hc hd he hlow hhigh =>
    obtain ⟨h₁, h₂⟩ := (leads_iff b).2 (by omega)
    have h₃ : ¬ b < 0xE0 := fun h => by have := UInt8.lt_iff_toNat_lt.1 h; simp at this; omega
    have h₄ : ¬ b < 0xF0 := fun h => by have := UInt8.lt_iff_toNat_lt.1 h; simp at this; omega
    have hsecond := (continues_secondRange b c).2 ⟨hc, by omega, by omega, hlow, hhigh⟩
    simp only [decode, List.cons_append, h₁, h₂, h₃, h₄, hsecond, (trails_iff d).2 hd,
      (trails_iff e).2 he]
    rfl

theorem encodes_of_decode (h : decode s = some (code, n)) :
    ∃ bytes rest, s = bytes ++ rest ∧ bytes.length = n ∧ Encodes bytes code := by
  cases s with
  | nil => simp [decode] at h
  | cons b s =>
    simp only [decode] at h
    split at h
    · rename_i hb
      obtain ⟨rfl, rfl⟩ : b.toNat = code ∧ 1 = n := by simpa using h
      exact ⟨[b], s, rfl, rfl, .one (UInt8.lt_iff_toNat_lt.1 hb)⟩
    rename_i h₁
    split at h
    · cases h
    rename_i h₂
    obtain ⟨hb, hb'⟩ := (leads_iff b).1 ⟨h₁, by simpa using h₂⟩
    split at h
    rotate_left
    · cases h
    rename_i c s
    split at h
    · cases h
    rename_i h₃
    obtain ⟨hc, he0, hed, hf0, hf4⟩ := (continues_secondRange b c).1 (by simpa using h₃)
    split at h
    · rename_i h₄
      obtain ⟨rfl, rfl⟩ := Prod.mk.inj (Option.some.inj h)
      exact ⟨[b, c], s, rfl, rfl, .two hb (UInt8.lt_iff_toNat_lt.1 h₄) hc⟩
    rename_i h₄
    have hb₃ : 0xE0 ≤ b.toNat := by simpa [UInt8.le_iff_toNat_le] using h₄
    split at h
    rotate_left
    · cases h
    rename_i d s
    split at h
    · cases h
    rename_i h₅
    have hd : Trails d := (trails_iff d).1 (by simpa using h₅)
    split at h
    · rename_i h₆
      obtain ⟨rfl, rfl⟩ := Prod.mk.inj (Option.some.inj h)
      exact ⟨[b, c, d], s, rfl, rfl, .three hb₃ (UInt8.lt_iff_toNat_lt.1 h₆) hc hd he0 hed⟩
    rename_i h₆
    have hb₄ : 0xF0 ≤ b.toNat := by simpa [UInt8.le_iff_toNat_le] using h₆
    split at h
    rotate_left
    · cases h
    rename_i e s
    split at h
    · cases h
    rename_i h₇
    have he : Trails e := (trails_iff e).1 (by simpa using h₇)
    obtain ⟨rfl, rfl⟩ := Prod.mk.inj (Option.some.inj h)
    exact ⟨[b, c, d, e], s, rfl, rfl, .four hb₄ hb' hc hd he hf0 hf4⟩

/-- A code point that a sequence may stand for is that of a character. -/
theorem isValidChar_of_encodes {bytes : Text} (h : Encodes bytes code) : code.isValidChar := by
  unfold Nat.isValidChar
  cases h with
  | one => omega
  | two _ _ hc =>
    have := hc
    unfold Trails at this
    omega
  | three _ _ hc hd =>
    unfold Trails at hc hd
    omega
  | four _ _ hc hd he =>
    unfold Trails at hc hd he
    omega

theorem Encodes.of_eq {bytes : Text} {code' : Nat} (h : Encodes bytes code) (heq : code = code') :
    Encodes bytes code' :=
  heq ▸ h

theorem encodes_utf8EncodeChar (c : Char) : Encodes (String.utf8EncodeChar c) c.toNat := by
  have hvalid : c.toNat < 0xD800 ∨ (0xDFFF < c.toNat ∧ c.toNat < 0x110000) := c.valid
  have hbyte : ∀ n, (UInt8.ofNat n).toNat = n % 256 := fun _ => UInt8.toNat_ofNat'
  unfold String.utf8EncodeChar
  simp only [show c.val.toNat = c.toNat from rfl]
  split
  · refine (Encodes.one ?_).of_eq ?_ <;> rw [hbyte] <;> omega
  split
  · refine (Encodes.two ?_ ?_ ?_).of_eq ?_ <;> simp only [hbyte, Trails] <;> omega
  split
  · refine (Encodes.three ?_ ?_ ?_ ?_ ?_ ?_).of_eq ?_ <;> simp only [hbyte, Trails] <;> omega
  · refine (Encodes.four ?_ ?_ ?_ ?_ ?_ ?_ ?_).of_eq ?_ <;> simp only [hbyte, Trails] <;> omega

/-- A code point is encoded in one way only. -/
theorem Encodes.unique {bytes bytes' : Text} (h : Encodes bytes code) (h' : Encodes bytes' code) :
    bytes = bytes' := by
  generalize hcode : code = code' at h'
  cases h <;> cases h' <;>
    simp only [Trails, List.cons.injEq, and_true, reduceCtorEq, and_false,
      ← UInt8.toNat_inj] at * <;>
    omega

/-- Decoding finds a code point where the encoding of a character stands. -/
theorem decode_eq_some_iff : decode s = some (code, n) ↔
    ∃ c : Char, c.toNat = code ∧ (String.utf8EncodeChar c).length = n ∧
      String.utf8EncodeChar c <+: s := by
  constructor
  · intro h
    obtain ⟨bytes, rest, rfl, hlen, hbytes⟩ := encodes_of_decode h
    have hcode : (Char.ofNat code).toNat = code := by
      rw [Char.ofNat, dif_pos (isValidChar_of_encodes hbytes)]
      rfl
    have hchar := encodes_utf8EncodeChar (Char.ofNat code)
    rw [hcode] at hchar
    obtain rfl := hbytes.unique hchar
    exact ⟨Char.ofNat code, hcode, hlen, List.prefix_append _ _⟩
  · rintro ⟨c, rfl, rfl, rest, rfl⟩
    exact decode_of_encodes (encodes_utf8EncodeChar c) rest

/-- `first` is the first unit of `s`: the encoding of a character if one stands there, and otherwise
a single byte. -/
def IsFirstRune (s first : Text) : Prop :=
  (∃ c : Char, first = String.utf8EncodeChar c ∧ first <+: s) ∨
    ((∀ c : Char, ¬ String.utf8EncodeChar c <+: s) ∧ ∃ b, first = [b] ∧ first <+: s)

theorem isFirstRune_take (hs : s ≠ []) : IsFirstRune s (s.take (runeLength s)) := by
  unfold runeLength
  split
  · rename_i code n h
    obtain ⟨c, -, rfl, hfront⟩ := decode_eq_some_iff.1 h
    have htake := List.prefix_iff_eq_take.1 hfront
    exact Or.inl ⟨c, htake.symm, List.take_prefix _ _⟩
  · rename_i h
    refine Or.inr ⟨fun c hfront => ?_, ?_⟩
    · have := decode_eq_some_iff.2 ⟨c, rfl, rfl, hfront⟩
      rw [h] at this
      cases this
    · cases s with
      | nil => exact absurd rfl hs
      | cons b s => exact ⟨b, rfl, List.take_prefix 1 _⟩

end ThreeAddress.Text
