import ThreeAddress.Pattern.Reader
import ThreeAddress.Proofs.InstructionLines
import ThreeAddress.Proofs.Matching

/-! The recognizers of names, numbers, labels and type names. Each finds in every text what its
pattern, read from the usual notation, finds there. -/
namespace ThreeAddress

namespace Pattern

open Text Lexer

variable {p q : Pattern} {ranges : List (UInt8 × UInt8)} {i m n k : Nat} {s : Text}

theorem covers_single (c b : UInt8) : covers [(c, c)] b = (b == c) := by
  rw [Bool.eq_iff_iff]
  simp only [covers, List.any_cons, List.any_nil, Bool.or_false, Bool.and_eq_true,
    decide_eq_true_eq, beq_iff_eq]
  constructor
  · rintro ⟨hge, hle⟩
    exact UInt8.le_antisymm hle hge
  · rintro rfl
    exact ⟨UInt8.le_refl _, UInt8.le_refl _⟩

theorem covers_cons (r : UInt8 × UInt8) (b : UInt8) :
    covers (r :: ranges) b = (decide (r.1 ≤ b) && decide (b ≤ r.2) || covers ranges b) := rfl

/-- The class `[A-Za-z_]`. -/
def letters : List (UInt8 × UInt8) :=
  [(ascii 'A', ascii 'Z'), (ascii 'a', ascii 'z'), (ascii '_', ascii '_')]

/-- The class `[A-Za-z0-9_]`. -/
def wordBytes : List (UInt8 × UInt8) :=
  [(ascii 'A', ascii 'Z'), (ascii 'a', ascii 'z'), (ascii '0', ascii '9'), (ascii '_', ascii '_')]

/-- The class `[0-9]`. -/
def digits : List (UInt8 × UInt8) := [(ascii '0', ascii '9')]

/-- The pattern of one byte. -/
def exactly (c : Char) : Pattern := .byte [(ascii c, ascii c)]

theorem covers_letters : covers letters = isLetter := by
  funext b
  rw [letters, covers_cons, covers_cons, covers_single, isLetter, Bool.or_assoc]

theorem covers_wordBytes : covers wordBytes = isWordByte := by
  funext b
  rw [wordBytes, covers_cons, covers_cons, covers_cons, covers_single, isWordByte, isLetter,
    isDigit]
  simp only [Bool.or_assoc, Bool.or_comm (b == ascii '_')]

theorem covers_digits : covers digits = isDigit := by
  funext b
  rw [digits, covers_cons, isDigit]
  exact Bool.or_false _

/-- Any number of bytes out of some ranges. -/
theorem takes_star_byte_iff : (star (byte ranges)).Takes i s n ↔
    n ≤ s.length ∧ ∀ b ∈ s.take n, covers ranges b := by
  constructor
  · intro h
    refine ⟨h.le_length, ?_⟩
    generalize hstar : star (byte ranges) = r at h
    induction h with
    | empty | byte | seq | left | right | atStart | atEnd => cases hstar
    | stop => simp
    | more hone _ _ ih =>
      cases hstar
      cases hone with
      | byte hb =>
        rw [Nat.add_comm, List.take_succ_cons]
        exact List.forall_mem_cons.2 ⟨hb, ih rfl⟩
  · induction s generalizing i n with
    | nil =>
      rintro ⟨hle, -⟩
      obtain rfl := Nat.le_zero.1 hle
      exact .stop
    | cons b s ih =>
      rintro ⟨hle, hcovers⟩
      cases n with
      | zero => exact .stop
      | succ n =>
        obtain ⟨hb, hrest⟩ := List.forall_mem_cons.1 hcovers
        rw [Nat.add_comm]
        exact .more (.byte hb) (ih ⟨Nat.le_of_succ_le_succ hle, hrest⟩)

/-- An identifier, and then the pattern `q`. -/
def wordThen (q : Pattern) : Pattern := .seq (.byte letters) (.seq (.star (.byte wordBytes)) q)

theorem takes_wordThen_iff : (wordThen q).Takes i s n ↔
    ∃ w rest k, Identifier w ∧ s = w ++ rest ∧ n = w.length + k ∧
      q.Takes (i + w.length) rest k := by
  simp only [wordThen, takes_seq_iff, takes_star_byte_iff, covers_wordBytes]
  constructor
  · rintro ⟨_, _, rfl, hletter, m, k, rfl, ⟨hle, hword⟩, hq⟩
    cases hletter with
    | @byte _ _ b t hb =>
      rw [covers_letters] at hb
      change m ≤ t.length at hle
      have hlen : (b :: t.take m).length = 1 + m := by
        rw [List.length_cons, List.length_take, Nat.min_eq_left hle, Nat.add_comm]
      refine ⟨b :: t.take m, t.drop m, k, .mk hb hword, ?_, by omega, ?_⟩
      · rw [List.cons_append, List.take_append_drop]
      · rwa [hlen, ← Nat.add_assoc]
  · rintro ⟨_, rest, k, ⟨hb, hword⟩, rfl, rfl, hq⟩
    rename_i b t
    refine ⟨1, t.length + k, by rw [List.length_cons]; omega, .byte (by rwa [covers_letters]),
      t.length, k, rfl, ⟨by simp, by simpa using hword⟩, ?_⟩
    simpa [Nat.add_assoc, Nat.add_comm 1] using hq

/-- A pattern that holds only at the end of the text. -/
theorem takes_atEnd_iff : (seq atEnd empty).Takes i s n ↔ s = [] ∧ n = 0 := by
  constructor
  · intro h
    obtain ⟨_, _, rfl, hend, hempty⟩ := takes_seq_iff.1 h
    cases hend
    cases hempty
    exact ⟨rfl, rfl⟩
  · rintro ⟨rfl, rfl⟩
    exact .seq .atEnd .empty

theorem takes_exactly_iff {c : Char} : (exactly c).Takes i s n ↔
    n = 1 ∧ ∃ rest, s = ascii c :: rest := by
  constructor
  · rintro (_ | hb)
    rw [covers_single, beq_iff_eq] at hb
    exact ⟨rfl, _, by rw [hb]⟩
  · rintro ⟨rfl, rest, rfl⟩
    exact .byte (by rw [covers_single, beq_self_eq_true])

theorem not_takes_atStart (hi : i ≠ 0) : ¬ (seq atStart q).Takes i s n := by
  intro h
  obtain ⟨_, _, -, hstart, -⟩ := takes_seq_iff.1 h
  cases hstart
  exact hi rfl

theorem length?_atStart : (seq atStart q).length? 0 s = q.length? 0 s := by
  simp [length?, lengths]

/-- A pattern for the start of the text is tried nowhere else. -/
theorem find?_atStart : (seq atStart q).find? s = (q.length? 0 s).map fun n => (0, n) := by
  rw [← length?_atStart]
  cases s with
  | nil => simp [find?, findFrom]
  | cons b s =>
    have hlater : (seq atStart q).findFrom (0 + 1) s = none :=
      findFrom_eq_none_iff.2 fun d _ n => not_takes_atStart (by omega)
    unfold find? findFrom
    rw [hlater]
    cases (seq atStart q).length? 0 (b :: s) <;> simp

theorem isMatch_atStart_iff : (seq atStart q).isMatch s ↔ ∃ n, q.Takes 0 s n := by
  rw [isMatch_iff]
  constructor
  · rintro ⟨i, -, n, h⟩
    obtain ⟨_, k, -, hstart, hq⟩ := takes_seq_iff.1 h
    cases hstart
    exact ⟨k, by simpa using hq⟩
  · rintro ⟨n, hq⟩
    exact ⟨0, Nat.zero_le _, 0 + n, .seq .atStart (by simpa using hq)⟩

theorem length?_seq (hp : p.length? i s = some m) (hq : q.length? (i + m) (s.drop m) = some k) :
    (seq p q).length? i s = some (m + k) := by
  obtain ⟨ms, hms⟩ := List.head?_eq_some_iff.1 hp
  obtain ⟨ks, hks⟩ := List.head?_eq_some_iff.1 hq
  simp [length?, lengths, hms, hks]

theorem length?_seq_eq_none (hp : p.length? i s = none) : (seq p q).length? i s = none := by
  simp [length?, lengths, List.head?_eq_none_iff.1 hp]

theorem length?_seq_empty : (seq p .empty).length? i s = p.length? i s := by
  simp [length?, lengths]

theorem length?_alt : (alt p q).length? i s = (p.length? i s).or (q.length? i s) := by
  simp [length?, lengths, List.head?_append]

theorem lengths_byte (b : UInt8) :
    (byte ranges).lengths i (b :: s) = if covers ranges b then [1] else [] := rfl

theorem length?_byte_seq (b : UInt8) : (seq (byte ranges) q).length? i (b :: s) =
    if covers ranges b then (q.length? (i + 1) s).map (1 + ·) else none := by
  by_cases hb : covers ranges b <;> simp [length?, lengths, hb]

theorem length?_exactly_seq {c : Char} (b : UInt8) : (seq (exactly c) q).length? i (b :: s) =
    if b = ascii c then (q.length? (i + 1) s).map (1 + ·) else none := by
  rw [exactly, length?_byte_seq, covers_single]
  simp

/-- Repetition prefers to take all bytes that it can. -/
theorem length?_star_byte :
    (star (byte ranges)).length? i s = some (s.takeWhile (covers ranges)).length := by
  have hrepeated : ∀ fuel i, s.length ≤ fuel → (repeated (byte ranges).lengths fuel i s).head? =
      some (s.takeWhile (covers ranges)).length := by
    induction s with
    | nil => intro fuel i _; cases fuel <;> simp [repeated, lengths]
    | cons b s ih =>
      intro fuel i hfuel
      obtain ⟨fuel, rfl⟩ : ∃ rest, fuel = rest + 1 := ⟨fuel - 1, by simp at hfuel; omega⟩
      by_cases hb : covers ranges b
      · have hrest := ih fuel (i + 1) (Nat.le_of_succ_le_succ hfuel)
        simp [repeated, lengths_byte, hb, hrest, Nat.add_comm]
      · simp [repeated, lengths_byte, hb]
  exact hrepeated s.length i (Nat.le_refl _)

/-- The pattern of an identifier prefers to take all of it. -/
theorem length?_word : (wordThen .empty).length? i s =
    if wordLength s = 0 then none else some (wordLength s) := by
  cases s with
  | nil => rfl
  | cons b s =>
    rw [wordThen, length?_byte_seq, length?_seq_empty, length?_star_byte, covers_letters,
      covers_wordBytes]
    by_cases hb : isLetter b <;> simp [wordLength, hb]

theorem length?_star_digits : (star (byte digits)).length? i s = some (digitRun s) := by
  rw [length?_star_byte, covers_digits, digitRun]

theorem length?_plus_digits :
    (plus (byte digits)).length? i s = if digitRun s = 0 then none else some (digitRun s) := by
  cases s with
  | nil => rfl
  | cons b s =>
    rw [plus, length?_byte_seq, length?_star_digits, covers_digits]
    by_cases hb : isDigit b <;> simp [digitRun, hb, Nat.add_comm]

/-- A point and then digits, of which there may be none. -/
def point : Pattern := .seq (exactly '.') (.seq (.star (.byte digits)) .empty)

theorem length?_optional_point : point.optional.length? i s =
    some (match s with
      | [] => 0
      | b :: rest => if b = ascii '.' then 1 + digitRun rest else 0) := by
  rw [Pattern.optional, length?_alt]
  cases s with
  | nil => rfl
  | cons b s =>
    rw [point, length?_exactly_seq, length?_seq_empty, length?_star_digits]
    by_cases hb : b = ascii '.' <;> simp [hb, length?, lengths]

/-- A number without its exponent, with digits in front of the point or only behind it. -/
def mantissa : Pattern :=
  .alt (.seq (plus (.byte digits)) (.seq point.optional .empty))
    (.seq (exactly '.') (.seq (plus (.byte digits)) .empty))

theorem length?_mantissa : mantissa.length? i s =
    if mantissaLength s = 0 then none else some (mantissaLength s) := by
  rw [mantissa, length?_alt, mantissaLength_eq]
  by_cases hwhole : digitRun s = 0
  · -- without digits in front, only the second alternative may match
    have hnone : (plus (byte digits)).length? i s = none := by simp [length?_plus_digits, hwhole]
    rw [length?_seq_eq_none hnone, Option.none_or, hwhole, List.drop_zero]
    cases s with
    | nil => rfl
    | cons b s =>
      rw [length?_exactly_seq, length?_seq_empty, length?_plus_digits, mantissaFrom]
      by_cases hb : b = ascii '.' <;> by_cases hzero : digitRun s = 0 <;> simp [hb, hzero]
  · have hdigits : (plus (byte digits)).length? i s = some (digitRun s) := by
      simp [length?_plus_digits, hwhole]
    have hrest : ∀ tail, mantissaFrom (digitRun s) tail = digitRun s + (match tail with
        | [] => 0
        | b :: rest => if b = ascii '.' then 1 + digitRun rest else 0) := by
      rintro (_ | ⟨b, rest⟩)
      · rfl
      · by_cases hb : b = ascii '.' <;> simp [mantissaFrom, hb, hwhole, Nat.add_assoc]
    rw [length?_seq hdigits (length?_seq_empty.trans length?_optional_point), Option.some_or, hrest,
      if_neg (by omega)]

end Pattern

namespace Lexer

open Text Pattern

/-- The name at the start of a text. -/
theorem wordLength_pattern : ∃ p, Pattern.read? "^[A-Za-z_][A-Za-z0-9_]*" = some p ∧
    ∀ s, p.find? s = if wordLength s = 0 then none else some (0, wordLength s) := by
  refine ⟨.seq .atStart (wordThen .empty), by decide +kernel, fun s => ?_⟩
  rw [find?_atStart, length?_word]
  split <;> rfl

/-- The number at the start of a text, without its exponent. -/
theorem mantissaLength_pattern :
    ∃ p, Pattern.read? "^(?:[0-9]+(?:\\.[0-9]*)?|\\.[0-9]+)" = some p ∧
      ∀ s, p.find? s = if mantissaLength s = 0 then none else some (0, mantissaLength s) := by
  refine ⟨.seq .atStart (.seq mantissa .empty), by decide +kernel, fun s => ?_⟩
  rw [find?_atStart, length?_seq_empty, length?_mantissa]
  split <;> rfl

end Lexer

namespace Layout

open Text Pattern Lexer

theorem isLabelLine_iff {s : Text} : isLabelLine s ↔ Opens (ascii ':') s := by
  constructor
  · intro h
    simp only [isLabelLine, Bool.and_eq_true, bne_iff_ne, beq_iff_eq] at h
    obtain ⟨w, rest, rfl, hw, hlen⟩ := word_split h.1
    rw [hlen, List.drop_left] at h
    obtain ⟨rest, rfl⟩ := List.head?_eq_some_iff.1 h.2
    exact ⟨w, rest, isIdentifier_iff.2 hw, rfl⟩
  · intro h
    rw [isLabelLine_of_opens h (by rintro _ ⟨rfl⟩; decide)]
    decide

/-- The lines that start with a label. -/
theorem isLabelLine_pattern : ∃ p, Pattern.read? "^[A-Za-z_][A-Za-z0-9_]*:" = some p ∧
    ∀ s, p.isMatch s = isLabelLine s := by
  refine ⟨.seq .atStart (wordThen (.seq (exactly ':') .empty)), by decide +kernel, fun s => ?_⟩
  rw [Bool.eq_iff_iff, isMatch_atStart_iff, isLabelLine_iff]
  simp only [takes_wordThen_iff, takes_seq_iff, takes_exactly_iff]
  constructor
  · rintro ⟨_, w, _, _, hw, rfl, -, _, _, -, ⟨-, rest, rfl⟩, -⟩
    exact ⟨w, rest, isIdentifier_iff.2 hw, rfl⟩
  · rintro ⟨w, rest, hw, rfl⟩
    exact ⟨_, w, _, _, isIdentifier_iff.1 hw, rfl, rfl, 1, 0, rfl, ⟨rfl, rest, rfl⟩, .empty⟩

end Layout

namespace Settings

open Text Pattern Lexer

variable {s : Text}

/-- The texts that are one name. -/
theorem isIdentifier_pattern : ∃ p, Pattern.read? "^[A-Za-z_][A-Za-z0-9_]*$" = some p ∧
    ∀ s, p.isMatch s = s.isIdentifier := by
  refine ⟨.seq .atStart (wordThen (.seq .atEnd .empty)), by decide +kernel, fun s => ?_⟩
  rw [Bool.eq_iff_iff, isMatch_atStart_iff, isIdentifier_iff]
  simp only [takes_wordThen_iff, takes_atEnd_iff]
  constructor
  · rintro ⟨_, w, _, _, hw, rfl, -, rfl, -⟩
    rwa [List.append_nil]
  · intro hw
    exact ⟨_, s, [], 0, hw, (List.append_nil s).symm, rfl, rfl, rfl⟩

/-- A type name is a name, after which there is nothing, or a space and a type name. -/
theorem isTypeName_iff : isTypeName s ↔ ∃ w rest, Identifier w ∧ s = w ++ rest ∧
    (rest = [] ∨ ∃ t, rest = ascii ' ' :: t ∧ isTypeName t) := by
  have hspace : ∀ {w : Text}, Identifier w → ascii ' ' ∉ w := by
    rintro _ ⟨hb, hword⟩ hmem
    rcases List.mem_cons.1 hmem with rfl | hmem
    · exact absurd hb (by decide)
    · exact absurd (hword _ hmem) (by decide)
  constructor
  · intro h
    obtain ⟨w, words, hs⟩ := List.exists_cons_of_ne_nil (split_ne_nil (ascii ' ') s)
    rw [isTypeName, hs, List.all_cons, Bool.and_eq_true] at h
    have hw := isIdentifier_iff.1 h.1
    rcases split_first hs with rfl | ⟨t, rfl⟩
    · exact ⟨s, [], hw, (List.append_nil s).symm, Or.inl rfl⟩
    · rw [split_append (hspace hw)] at hs
      obtain ⟨-, rfl⟩ := List.cons.inj hs
      exact ⟨w, _, hw, rfl, Or.inr ⟨t, rfl, h.2⟩⟩
  · rintro ⟨w, rest, hw, rfl, rfl | ⟨t, rfl, ht⟩⟩
    · rw [isTypeName, List.append_nil, split_of_not_mem (hspace hw)]
      simpa using isIdentifier_iff.2 hw
    · rw [isTypeName, split_append (hspace hw), List.all_cons, isIdentifier_iff.2 hw]
      exact ht

/-- A space and a name. -/
def nextWord : Pattern := .seq (exactly ' ') (wordThen .empty)

theorem takes_nextWord_iff {i n : Nat} : nextWord.Takes i s n ↔
    ∃ w rest, Identifier w ∧ s = ascii ' ' :: (w ++ rest) ∧ n = w.length + 1 := by
  simp only [nextWord, takes_seq_iff, takes_exactly_iff, takes_wordThen_iff]
  constructor
  · rintro ⟨_, _, rfl, ⟨rfl, _, rfl⟩, w, rest, _, hw, hs, rfl, hempty⟩
    cases hempty
    rw [List.drop_succ_cons, List.drop_zero] at hs
    exact ⟨w, rest, hw, by rw [hs], by omega⟩
  · rintro ⟨w, rest, hw, rfl, rfl⟩
    exact ⟨1, w.length, Nat.add_comm _ _, ⟨rfl, _, rfl⟩, w, rest, 0, hw, rfl, rfl, .empty⟩

theorem takes_nextWords_iff {i : Nat} : nextWord.star.Takes i s s.length ↔
    s = [] ∨ ∃ t, s = ascii ' ' :: t ∧ isTypeName t := by
  constructor
  · intro h
    generalize hstar : nextWord.star = p at h
    generalize hn : s.length = n at h
    induction h with
    | empty | byte | seq | left | right | atStart | atEnd => cases hstar
    | stop => exact Or.inl (List.eq_nil_of_length_eq_zero hn)
    | @more _ _ _ k _ hone _ _ ih =>
      cases hstar
      obtain ⟨w, rest, hw, rfl, rfl⟩ := takes_nextWord_iff.1 hone
      rw [List.drop_succ_cons, List.drop_left] at ih
      rw [List.length_cons, List.length_append] at hn
      have hlen : rest.length = k := by omega
      exact Or.inr ⟨_, rfl, isTypeName_iff.2 ⟨w, rest, hw, rfl, ih rfl hlen⟩⟩
  · intro h
    generalize hn : s.length = n
    induction n using Nat.strongRecOn generalizing i s with
    | ind n ih =>
      rcases h with rfl | ⟨t, rfl, ht⟩
      · obtain rfl : 0 = n := hn
        exact .stop
      · obtain ⟨w, rest, hw, rfl, hrest⟩ := isTypeName_iff.1 ht
        rw [List.length_cons, List.length_append] at hn
        obtain rfl : w.length + 1 + rest.length = n := by omega
        refine .more (takes_nextWord_iff.2 ⟨w, rest, hw, rfl, rfl⟩) ?_
        rw [List.drop_succ_cons, List.drop_left]
        exact ih _ (by omega) hrest rfl

/-- The names of types. -/
theorem isTypeName_pattern :
    ∃ p, Pattern.read? "^[A-Za-z_][A-Za-z0-9_]*(?: [A-Za-z_][A-Za-z0-9_]*)*$" = some p ∧
      ∀ s, p.isMatch s = isTypeName s := by
  refine ⟨.seq .atStart (wordThen (.seq nextWord.star (.seq .atEnd .empty))), by decide +kernel,
    fun s => ?_⟩
  rw [Bool.eq_iff_iff, isMatch_atStart_iff, isTypeName_iff]
  simp only [takes_wordThen_iff, takes_seq_iff (p := nextWord.star), takes_atEnd_iff]
  constructor
  · rintro ⟨_, w, rest, _, hw, rfl, -, k, _, -, hwords, hend, -⟩
    have hk : k = rest.length :=
      Nat.le_antisymm hwords.le_length (List.drop_eq_nil_iff.1 hend)
    rw [hk] at hwords
    exact ⟨w, rest, hw, rfl, takes_nextWords_iff.1 hwords⟩
  · rintro ⟨w, rest, hw, rfl, hrest⟩
    exact ⟨_, w, rest, _, hw, rfl, rfl, rest.length, 0, rfl, takes_nextWords_iff.2 hrest,
      List.drop_length, rfl⟩

end Settings

end ThreeAddress
