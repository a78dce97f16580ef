import ThreeAddress.Proofs.CodePoints
import ThreeAddress.Proofs.Tokenization

/-! The scanner takes the longest lexeme that it can, at every place where neither a blank nor a
comment starts. -/
namespace ThreeAddress

namespace Lexer

open Text

/-- One or more digits. -/
def Digits (s : Text) : Prop := s ≠ [] ∧ ∀ b ∈ s, isDigit b

/-- A number without its exponent: `1`, `1.`, `1.5` or `.5`. -/
inductive Mantissa : Text → Prop
  | whole {ds : Text} : Digits ds → Mantissa ds
  | point {ds fs : Text} : Digits ds → (∀ b ∈ fs, isDigit b) → Mantissa (ds ++ ascii '.' :: fs)
  | fraction {fs : Text} : Digits fs → Mantissa (ascii '.' :: fs)

/-- A complete exponent: `e10`, `E+3`, `e-1`. -/
inductive Exponent : Text → Prop
  | mk {e : UInt8} {sign ds : Text} : e = ascii 'e' ∨ e = ascii 'E' →
      sign = [] ∨ sign = [ascii '+'] ∨ sign = [ascii '-'] → Digits ds → Exponent (e :: (sign ++ ds))

inductive Number : Text → Prop
  | plain {m : Text} : Mantissa m → Number m
  | scientific {m e : Text} : Mantissa m → Exponent e → Number (m ++ e)

/-- A letter or an underscore, and then letters, underscores and digits. -/
inductive Identifier : Text → Prop
  | mk {b : UInt8} {s : Text} : isLetter b → (∀ c ∈ s, isWordByte c) → Identifier (b :: s)

/-- The lexemes of the language with their kinds. -/
inductive IsLexeme : Text → Kind → Prop
  | symbol (o : Op) : IsLexeme o.symbol (.op o)
  | floor : IsLexeme "//" (.op .over)
  | floorAssign : IsLexeme "//=" (.op .overAssign)
  | andWord : IsLexeme "and" (.op .and)
  | orWord : IsLexeme "or" (.op .or)
  | notWord : IsLexeme "not" (.op .not)
  | keyword (k : Keyword) : IsLexeme k.spelling (.keyword k)
  | name {s : Text} : Identifier s → (∀ k : Keyword, s ≠ k.spelling) →
      s ≠ Text.ofString "and" → s ≠ Text.ofString "or" → s ≠ Text.ofString "not" →
      IsLexeme s .name
  | number {s : Text} : Number s → IsLexeme s .number

/-- `text` is the longest lexeme that `s` starts with, and `kind` is its only kind. -/
structure Longest (s : Text) (kind : Kind) (text : Text) : Prop where
  front : text <+: s
  lexeme : ∀ k, IsLexeme text k ↔ k = kind
  longest : ∀ u k, u <+: s → IsLexeme u k → u.length ≤ text.length

/-- What is to be read at the start of `s`: the longest lexeme, or if there is none an illegal token
of one code point. -/
def Munched (s : Text) (kind : Kind) (text : Text) : Prop :=
  Longest s kind text ∨
    (kind = .illegal ∧ (∀ u k, u <+: s → ¬ IsLexeme u k) ∧ IsFirstRune s text)

variable {s u rest : Text} {b : UInt8} {k : Kind}

theorem digitRun_digits {ds : Text} (h : ∀ b ∈ ds, isDigit b) (rest : Text) :
    digitRun (ds ++ rest) = ds.length + digitRun rest := by
  simp only [digitRun]
  rw [List.takeWhile_append_of_pos h, List.length_append]

theorem digits_split (s : Text) : ∃ ds rest, s = ds ++ rest ∧ (∀ b ∈ ds, isDigit b) ∧
    digitRun s = ds.length :=
  ⟨s.takeWhile isDigit, s.dropWhile isDigit, List.takeWhile_append_dropWhile.symm,
    List.all_eq_true.1 List.all_takeWhile, rfl⟩

theorem digitRun_stop (hb : isDigit b = false) (rest : Text) : digitRun (b :: rest) = 0 := by
  simp [digitRun, hb]

theorem digits_of_length_ne_zero {ds : Text} (h : ∀ b ∈ ds, isDigit b) (hlen : ds.length ≠ 0) :
    Digits ds := by
  refine ⟨?_, h⟩
  rintro rfl
  exact hlen rfl

theorem Digits.length_ne_zero {ds : Text} (h : Digits ds) : ds.length ≠ 0 := by
  intro hlen
  exact h.1 (List.eq_nil_of_length_eq_zero hlen)

theorem mantissaLength_digits {ds : Text} (h : ∀ b ∈ ds, isDigit b) (hd : digitRun rest = 0) :
    mantissaLength (ds ++ rest) = mantissaFrom ds.length rest := by
  rw [mantissaLength_eq, digitRun_digits h, hd, Nat.add_zero, List.drop_left]

theorem mantissaLength_point (rest : Text) :
    mantissaLength (ascii '.' :: rest) = mantissaFrom 0 (ascii '.' :: rest) := by
  rw [mantissaLength_eq, digitRun_stop (by decide)]
  rfl

theorem mantissaFrom_point {whole : Nat} (h : whole ≠ 0 ∨ digitRun rest ≠ 0) :
    mantissaFrom whole (ascii '.' :: rest) = whole + 1 + digitRun rest := by
  have : ¬ (whole = 0 ∧ digitRun rest = 0) := by omega
  simp [mantissaFrom, this]

/-- A mantissa and then more: the mantissa that is read is at least as long. -/
theorem Mantissa.length_le {m : Text} (h : Mantissa m) (rest : Text) :
    m.length ≤ mantissaLength (m ++ rest) := by
  cases h with
  | whole hds =>
    have hle := le_mantissaFrom (digitRun (m ++ rest)) ((m ++ rest).drop (digitRun (m ++ rest)))
    have hrun := digitRun_digits hds.2 rest
    rw [mantissaLength_eq]
    omega
  | @point ds fs hds hfs =>
    have hrun := digitRun_digits hfs rest
    have hlen := hds.length_ne_zero
    rw [List.append_assoc, List.cons_append,
      mantissaLength_digits hds.2 (digitRun_stop (by decide) _), mantissaFrom_point (by omega)]
    simp only [List.length_append, List.length_cons]
    omega
  | @fraction fs hfs =>
    have hrun := digitRun_digits hfs.2 rest
    have hlen := hfs.length_ne_zero
    rw [List.cons_append, mantissaLength_point, mantissaFrom_point (by omega), List.length_cons]
    omega

/-- A mantissa ends before a byte that is neither a digit nor a point. -/
theorem Mantissa.length_eq {m : Text} (h : Mantissa m) (hd : isDigit b = false)
    (hdot : b ≠ ascii '.') (rest : Text) : mantissaLength (m ++ b :: rest) = m.length := by
  have hstop := digitRun_stop hd rest
  cases h with
  | whole hds =>
    rw [mantissaLength_digits hds.2 hstop]
    simp [mantissaFrom, hdot]
  | @point ds fs hds hfs =>
    have hrun := digitRun_digits hfs (b :: rest)
    have hlen := hds.length_ne_zero
    rw [List.append_assoc, List.cons_append,
      mantissaLength_digits hds.2 (digitRun_stop (by decide) _), mantissaFrom_point (by omega)]
    simp only [List.length_append, List.length_cons]
    omega
  | @fraction fs hfs =>
    have hrun := digitRun_digits hfs.2 (b :: rest)
    have hlen := hfs.length_ne_zero
    rw [List.cons_append, mantissaLength_point, mantissaFrom_point (by omega), List.length_cons]
    omega

theorem mantissa_split (h : mantissaLength s ≠ 0) : ∃ m rest, s = m ++ rest ∧ Mantissa m ∧
    mantissaLength s = m.length := by
  obtain ⟨ds, tail, rfl, hds, hrun⟩ := digits_split s
  have hlen : mantissaLength (ds ++ tail) = mantissaFrom ds.length tail := by
    rw [mantissaLength_eq, hrun, List.drop_left]
  rw [hlen] at h ⊢
  cases tail with
  | nil => exact ⟨ds, [], rfl, .whole (digits_of_length_ne_zero hds h), rfl⟩
  | cons b tail =>
    by_cases hb : b = ascii '.'
    · subst hb
      obtain ⟨fs, rest, rfl, hfs, hfrac⟩ := digits_split tail
      by_cases hwhole : ds.length = 0
      · obtain rfl := List.eq_nil_of_length_eq_zero hwhole
        have hne : fs.length ≠ 0 := by
          intro hz
          rw [← hfrac] at hz
          simp [mantissaFrom, hz] at h
        refine ⟨ascii '.' :: fs, rest, rfl, .fraction (digits_of_length_ne_zero hfs hne), ?_⟩
        rw [mantissaFrom_point (by omega), hfrac]
        simp only [List.length_cons, List.length_nil]
        omega
      · refine ⟨ds ++ ascii '.' :: fs, rest, by simp,
          .point (digits_of_length_ne_zero hds hwhole) hfs, ?_⟩
        rw [mantissaFrom_point (by omega), hfrac]
        simp only [List.length_append, List.length_cons]
        omega
    · have hfrom : mantissaFrom ds.length (b :: tail) = ds.length := by simp [mantissaFrom, hb]
      rw [hfrom] at h ⊢
      exact ⟨ds, b :: tail, rfl, .whole (digits_of_length_ne_zero hds h), rfl⟩

theorem signLength_digits {ds : Text} (h : Digits ds) (rest : Text) :
    signLength (ds ++ rest) = 0 := by
  cases ds with
  | nil => exact absurd rfl h.1
  | cons d ds =>
    have hd := h.2 d (by simp)
    have hplus : d ≠ ascii '+' := by
      rintro rfl
      exact absurd hd (by decide)
    have hminus : d ≠ ascii '-' := by
      rintro rfl
      exact absurd hd (by decide)
    simp [signLength, hplus, hminus]

theorem Exponent.length_le {e : Text} (h : Exponent e) (rest : Text) :
    e.length ≤ exponentLength (e ++ rest) := by
  obtain ⟨he, hsign, hds⟩ := h
  rename_i e sign ds
  have he' : (e == ascii 'e' || e == ascii 'E') = true := by simpa using he
  have hlen : signLength (sign ++ (ds ++ rest)) = sign.length := by
    rcases hsign with rfl | rfl | rfl
    · exact signLength_digits hds rest
    · rfl
    · rfl
  have hrun := digitRun_digits hds.2 rest
  have hne := hds.length_ne_zero
  have hnz : ¬ digitRun (ds ++ rest) = 0 := by omega
  rw [List.cons_append, List.append_assoc, exponentLength_cons, hlen, List.drop_left]
  simp only [he', if_true, beq_iff_eq, hnz, if_false, List.length_cons, List.length_append]
  omega

theorem exponent_split (h : exponentLength s ≠ 0) : ∃ e rest, s = e ++ rest ∧ Exponent e ∧
    exponentLength s = e.length := by
  cases s with
  | nil => exact absurd rfl h
  | cons e s =>
    rw [exponentLength_cons] at h ⊢
    split at h
    · rename_i he
      split at h
      · exact absurd rfl h
      · rename_i hz
        obtain ⟨ds, rest, hdrop, hds, hrun⟩ := digits_split (s.drop (signLength s))
        have hne : ds.length ≠ 0 := by simpa [hrun] using hz
        have hsign : s.take (signLength s) = [] ∨ s.take (signLength s) = [ascii '+'] ∨
            s.take (signLength s) = [ascii '-'] := by
          cases s with
          | nil => exact Or.inl rfl
          | cons c s =>
            simp only [signLength]
            split
            · rename_i hc
              right
              simpa using hc
            · exact Or.inl rfl
        have hsplit : s = s.take (signLength s) ++ (ds ++ rest) := by
          rw [← hdrop, List.take_append_drop]
        refine ⟨e :: (s.take (signLength s) ++ ds), rest, ?_,
          .mk (by simpa using he) hsign (digits_of_length_ne_zero hds hne), ?_⟩
        · rw [List.cons_append, List.append_assoc, ← hsplit]
        · have hle := signLength_le (s := s)
          rw [if_pos he, if_neg hz, hrun]
          simp only [List.length_cons, List.length_append, List.length_take]
          omega
    · exact absurd rfl h

theorem numberLength_eq (h : mantissaLength s ≠ 0) :
    numberLength s = mantissaLength s + exponentLength (s.drop (mantissaLength s)) := by
  simp [numberLength, h]

/-- No number that a text starts with is longer than the one that is read. -/
theorem Number.length_le (h : Number u) (rest : Text) : u.length ≤ numberLength (u ++ rest) := by
  have hne : ∀ {m : Text}, Mantissa m → m.length ≠ 0 := by
    intro m hm
    cases hm with
    | whole hds => exact hds.length_ne_zero
    | point | fraction => simp
  cases h with
  | plain hm =>
    have hle := hm.length_le rest
    have hpos := hne hm
    rw [numberLength_eq (by omega)]
    omega
  | @scientific m e hm he =>
    have hexp := he.length_le rest
    have hpos := hne hm
    obtain ⟨hletter, -, -⟩ := he
    rename_i c sign ds
    -- an exponent starts with a letter, and so the mantissa ends before it
    have hmantissa : mantissaLength (m ++ c :: (sign ++ ds) ++ rest) = m.length := by
      rw [List.append_assoc, List.cons_append]
      rcases hletter with rfl | rfl
      · exact hm.length_eq (by decide) (by decide) _
      · exact hm.length_eq (by decide) (by decide) _
    rw [numberLength_eq (by omega), hmantissa, List.append_assoc, List.drop_left,
      List.length_append]
    omega

theorem number_split (h : numberLength s ≠ 0) : ∃ n rest, s = n ++ rest ∧ Number n ∧
    numberLength s = n.length := by
  have hm : mantissaLength s ≠ 0 := by
    intro hm
    simp [numberLength, hm] at h
  obtain ⟨m, tail, hs, hmantissa, hlen⟩ := mantissa_split hm
  rw [numberLength_eq hm, hlen]
  subst hs
  rw [List.drop_left]
  by_cases he : exponentLength tail = 0
  · rw [he]
    exact ⟨m, tail, rfl, .plain hmantissa, rfl⟩
  · obtain ⟨e, rest, rfl, hexp, hlen'⟩ := exponent_split he
    refine ⟨m ++ e, rest, by simp, .scientific hmantissa hexp, ?_⟩
    rw [hlen', List.length_append]

theorem number_of_lexed (h : Word.Lexed ⟨.number, s⟩) : Number s := by
  obtain ⟨hne, hlen⟩ : s ≠ [] ∧ numberLength s = s.length := h
  have hpos := List.length_pos_iff.2 hne
  obtain ⟨n, rest, hs, hnumber, hlen'⟩ := number_split (s := s) (by omega)
  have hrest : rest = [] := by
    apply List.eq_nil_of_length_eq_zero
    have hsplit := congrArg List.length hs
    rw [List.length_append] at hsplit
    omega
  rw [hs, hrest, List.append_nil]
  exact hnumber

/-- The bytes that numbers have besides digits. -/
def isNumberMark (b : UInt8) : Bool := b ∈ ofString ".eE+-"

theorem Number.bytes (h : Number s) : ∀ b ∈ s, isDigit b ∨ isNumberMark b := by
  have hdigits : ∀ {ds : Text}, (∀ b ∈ ds, isDigit b) → ∀ b ∈ ds, isDigit b ∨ isNumberMark b :=
    fun h b hb => Or.inl (h b hb)
  have hpoint : isDigit (ascii '.') ∨ isNumberMark (ascii '.') := by decide
  have hmantissa : ∀ {m : Text}, Mantissa m → ∀ b ∈ m, isDigit b ∨ isNumberMark b := by
    intro m hm
    cases hm with
    | whole hds => exact hdigits hds.2
    | point hds hfs =>
      refine List.forall_mem_append.2 ⟨hdigits hds.2, List.forall_mem_cons.2 ⟨hpoint, ?_⟩⟩
      exact hdigits hfs
    | fraction hfs => exact List.forall_mem_cons.2 ⟨hpoint, hdigits hfs.2⟩
  cases h with
  | plain hm => exact hmantissa hm
  | scientific hm he =>
    obtain ⟨hletter, hsign, hds⟩ := he
    refine List.forall_mem_append.2 ⟨hmantissa hm, List.forall_mem_cons.2 ⟨?_, ?_⟩⟩
    · rcases hletter with rfl | rfl <;> decide
    · refine List.forall_mem_append.2 ⟨?_, hdigits hds.2⟩
      rcases hsign with rfl | rfl | rfl
      · exact List.forall_mem_nil _
      · exact List.forall_mem_singleton.2 (by decide)
      · exact List.forall_mem_singleton.2 (by decide)

theorem Number.first (h : Number s) : ∃ b rest, s = b :: rest ∧ (isDigit b ∨ b = ascii '.') := by
  have hmantissa : ∀ {m : Text}, Mantissa m →
      ∃ b rest, m = b :: rest ∧ (isDigit b ∨ b = ascii '.') := by
    intro m hm
    cases hm with
    | whole hds =>
      obtain ⟨b, rest, rfl⟩ := List.exists_cons_of_ne_nil hds.1
      exact ⟨b, rest, rfl, Or.inl (hds.2 b List.mem_cons_self)⟩
    | point hds =>
      obtain ⟨b, rest, rfl⟩ := List.exists_cons_of_ne_nil hds.1
      exact ⟨b, _, rfl, Or.inl (hds.2 b List.mem_cons_self)⟩
    | fraction => exact ⟨_, _, rfl, Or.inr rfl⟩
  cases h with
  | plain hm => exact hmantissa hm
  | scientific hm =>
    obtain ⟨b, rest, rfl, hb⟩ := hmantissa hm
    exact ⟨b, _, rfl, hb⟩

theorem Identifier.length_le (h : Identifier u) (rest : Text) :
    u.length ≤ wordLength (u ++ rest) := by
  obtain ⟨hb, hs⟩ := h
  simp only [List.cons_append, wordLength, hb, if_true]
  rw [List.takeWhile_append_of_pos hs]
  simp only [List.length_cons, List.length_append]
  omega

theorem word_split (h : wordLength s ≠ 0) : ∃ w rest, s = w ++ rest ∧ Identifier w ∧
    wordLength s = w.length := by
  cases s with
  | nil => exact absurd rfl h
  | cons b s =>
    by_cases hb : isLetter b
    · refine ⟨b :: s.takeWhile isWordByte, s.dropWhile isWordByte, ?_,
        .mk hb (List.all_eq_true.1 List.all_takeWhile), ?_⟩
      · rw [List.cons_append, List.takeWhile_append_dropWhile]
      · simp only [wordLength, hb, if_true, List.length_cons]
        omega
    · simp [wordLength, hb] at h

theorem identifier_iff : Identifier s ↔ s ≠ [] ∧ wordLength s = s.length := by
  constructor
  · intro h
    have hle := h.length_le []
    have hle' := wordLength_le (s := s)
    rw [List.append_nil] at hle
    obtain ⟨-, -⟩ := h
    exact ⟨by simp, by omega⟩
  · rintro ⟨hne, hlen⟩
    have hpos := List.length_pos_iff.2 hne
    obtain ⟨w, rest, hs, hw, hlen'⟩ := word_split (s := s) (by omega)
    have hrest : rest = [] := by
      have hlen'' := congrArg List.length hs
      rw [List.length_append] at hlen''
      exact List.eq_nil_of_length_eq_zero (by omega)
    rw [hs, hrest, List.append_nil]
    exact hw

theorem isIdentifier_iff : s.isIdentifier ↔ Identifier s := by
  rw [identifier_iff]
  simp [isIdentifier]

instance : Decidable (Identifier s) := decidable_of_iff _ identifier_iff.symm

theorem identifier_keyword (k : Keyword) : Identifier k.spelling := by
  cases k <;> decide

theorem ofText?_eq_some_iff {k : Keyword} : Keyword.ofText? s = some k ↔ k.spelling = s := by
  constructor
  · intro h
    simpa using List.find?_some h
  · rintro rfl
    cases k <;> rfl

/-- The identifiers among the lexemes, with the kinds that their spellings have. -/
theorem isLexeme_ofWord (h : Identifier s) : IsLexeme s (Kind.ofWord s) := by
  unfold Kind.ofWord
  cases hk : Keyword.ofText? s with
  | some k =>
    obtain rfl := ofText?_eq_some_iff.1 hk
    exact .keyword k
  | none =>
    simp only [beq_iff_eq]
    by_cases hand : s = Text.ofString "and"
    · subst hand
      exact .andWord
    by_cases hor : s = Text.ofString "or"
    · subst hor
      exact .orWord
    by_cases hnot : s = Text.ofString "not"
    · subst hnot
      exact .notWord
    rw [if_neg hand, if_neg hor, if_neg hnot]
    refine .name h (fun k hk' => ?_) hand hor hnot
    rw [ofText?_eq_some_iff.2 hk'.symm] at hk
    cases hk

theorem ofWord_name (hk : ∀ k : Keyword, s ≠ k.spelling) (hand : s ≠ Text.ofString "and")
    (hor : s ≠ Text.ofString "or") (hnot : s ≠ Text.ofString "not") : Kind.ofWord s = .name := by
  have hnone : Keyword.ofText? s = none := by
    cases h : Keyword.ofText? s with
    | none => rfl
    | some k => exact absurd (ofText?_eq_some_iff.1 h).symm (hk k)
  simp [Kind.ofWord, hnone, hand, hor, hnot]

/-- The table of the operators holds their symbols and the two spellings of floor division. -/
theorem mem_lexemes_iff {o : Op} : (u, o) ∈ Op.lexemes ↔
    u = o.symbol ∨ (u = Text.ofString "//" ∧ o = .over) ∨
      (u = Text.ofString "//=" ∧ o = .overAssign) := by
  constructor
  · intro h
    have hall : ∀ e ∈ Op.lexemes, e.1 = e.2.symbol ∨ (e.1 = Text.ofString "//" ∧ e.2 = .over) ∨
        (e.1 = Text.ofString "//=" ∧ e.2 = .overAssign) := by decide
    exact hall _ h
  · rintro (rfl | ⟨rfl, rfl⟩ | ⟨rfl, rfl⟩)
    · cases o <;> decide
    · decide
    · decide

/-- The three ways in which a lexeme may be read. -/
inductive Class where
  | number
  | word
  | symbol

/-- The class of the lexemes that start with `b`, if any do. -/
def Class.ofByte (b : UInt8) : Class :=
  if isDigit b || b == ascii '.' then .number else if isLetter b then .word else .symbol

def Class.Holds (u : Text) (k : Kind) : Class → Prop
  | .number => Number u ∧ k = .number
  | .word => Identifier u ∧ k = .ofWord u
  | .symbol => ∃ o, (u, o) ∈ Op.lexemes ∧ k = .op o

theorem isLexeme_iff : IsLexeme u k ↔ ∃ c : Class, c.Holds u k := by
  constructor
  · intro h
    cases h with
    | symbol o => exact ⟨.symbol, o, mem_lexemes_iff.2 (Or.inl rfl), rfl⟩
    | floor => exact ⟨.symbol, .over, mem_lexemes_iff.2 (Or.inr (Or.inl ⟨rfl, rfl⟩)), rfl⟩
    | floorAssign =>
      exact ⟨.symbol, .overAssign, mem_lexemes_iff.2 (Or.inr (Or.inr ⟨rfl, rfl⟩)), rfl⟩
    | andWord | orWord | notWord => exact ⟨.word, by decide, by decide⟩
    | keyword k =>
      refine ⟨.word, identifier_keyword k, ?_⟩
      rw [Kind.ofWord, ofText?_eq_some_iff.2 rfl]
    | name hid hk hand hor hnot => exact ⟨.word, hid, (ofWord_name hk hand hor hnot).symm⟩
    | number hn => exact ⟨.number, hn, rfl⟩
  · rintro ⟨c, h⟩
    cases c with
    | number =>
      obtain ⟨hn, rfl⟩ := h
      exact .number hn
    | word =>
      obtain ⟨hid, rfl⟩ := h
      exact isLexeme_ofWord hid
    | symbol =>
      obtain ⟨o, ho, rfl⟩ := h
      rcases mem_lexemes_iff.1 ho with rfl | ⟨rfl, rfl⟩ | ⟨rfl, rfl⟩
      · exact .symbol o
      · exact .floor
      · exact .floorAssign

theorem Mantissa.head {m : Text} (h : Mantissa m) :
    ∃ b t, m = b :: t ∧ Class.ofByte b = .number := by
  have hdigits : ∀ {ds : Text} (tail : Text), Digits ds →
      ∃ b t, ds ++ tail = b :: t ∧ Class.ofByte b = .number := by
    intro ds tail hds
    obtain ⟨d, ds, rfl⟩ := List.exists_cons_of_ne_nil hds.1
    have hd := hds.2 d (by simp)
    exact ⟨d, ds ++ tail, rfl, by simp [Class.ofByte, hd]⟩
  cases h with
  | whole hds => simpa using hdigits [] hds
  | point hds _ => exact hdigits _ hds
  | fraction => exact ⟨_, _, rfl, rfl⟩

/-- The first byte of a lexeme tells its class. -/
theorem Class.Holds.head {c : Class} (h : c.Holds u k) :
    ∃ b t, u = b :: t ∧ Class.ofByte b = c := by
  cases c with
  | number =>
    obtain ⟨hm | ⟨hm, -⟩, -⟩ := h
    · exact hm.head
    · obtain ⟨b, t, rfl, hb⟩ := hm.head
      exact ⟨b, _, rfl, hb⟩
  | word =>
    obtain ⟨⟨hb, -⟩, -⟩ := h
    rename_i b t
    have hdot : b ≠ ascii '.' := by
      rintro rfl
      exact absurd hb (by decide)
    exact ⟨b, t, rfl, by simp [Class.ofByte, hb, isDigit_of_isLetter hb, hdot]⟩
  | symbol =>
    have hall : ∀ e ∈ Op.lexemes, e.1 ≠ [] ∧
        e.1.head?.all (fun b => !isDigit b && b != ascii '.' && !isLetter b) = true := by decide
    obtain ⟨o, ho, -⟩ := h
    obtain ⟨hne, hhead⟩ := hall _ ho
    obtain ⟨b, t, rfl⟩ := List.exists_cons_of_ne_nil hne
    obtain ⟨⟨hd, hdot⟩, hletter⟩ :
        (isDigit b = false ∧ b ≠ ascii '.') ∧ isLetter b = false := by simpa using hhead
    exact ⟨b, t, rfl, by simp [Class.ofByte, hd, hdot, hletter]⟩

theorem Class.Holds.kind_unique {c : Class} {k' : Kind} (h : c.Holds u k) (h' : c.Holds u k') :
    k = k' := by
  cases c with
  | number | word => exact h.2.trans h'.2.symm
  | symbol =>
    have hdistinct : ∀ e ∈ Op.lexemes, ∀ e' ∈ Op.lexemes, e.1 = e'.1 → e.2 = e'.2 := by decide
    obtain ⟨o, ho, rfl⟩ := h
    obtain ⟨o', ho', rfl⟩ := h'
    exact congrArg Kind.op (hdistinct _ ho _ ho' rfl)

/-- Two lexemes at the start of one text are of one class. -/
theorem Class.Holds.of_isLexeme {c : Class} {u' : Text} {k' : Kind} (h : c.Holds u k)
    (hu : u <+: s) (h' : IsLexeme u' k') (hu' : u' <+: s) : c.Holds u' k' := by
  obtain ⟨c', hc'⟩ := isLexeme_iff.1 h'
  obtain ⟨b, t, rfl, hb⟩ := h.head
  obtain ⟨b', t', rfl, hb'⟩ := hc'.head
  obtain ⟨rest, rfl⟩ := hu
  obtain ⟨rest', heq⟩ := hu'
  obtain rfl : b' = b := (List.cons.inj heq).1
  rwa [← hb, hb']

/-- The longest of its class is the longest lexeme. -/
theorem Class.Holds.longest {c : Class} (h : c.Holds u k) (hu : u <+: s)
    (hmax : ∀ u' k', u' <+: s → c.Holds u' k' → u'.length ≤ u.length) : Longest s k u where
  front := hu
  lexeme k' := by
    constructor
    · intro h'
      exact (h.of_isLexeme hu h' hu).kind_unique h
    · rintro rfl
      exact isLexeme_iff.2 ⟨c, h⟩
  longest u' k' hu' h' := hmax u' k' hu' (h.of_isLexeme hu h' hu')

/-- The first operator of the table that `s` starts with is the longest. -/
theorem length_le_of_find {spelling : Text} {o : Op}
    (h : (Op.lexemes.find? fun (spelling, _) => spelling.isPrefixOf s) = some (spelling, o)) :
    (spelling, o) ∈ Op.lexemes ∧ spelling <+: s ∧
      ∀ u o', u <+: s → (u, o') ∈ Op.lexemes → u.length ≤ spelling.length := by
  have hsorted : Op.lexemes.Pairwise fun e e' => e'.1.length ≤ e.1.length := by decide
  obtain ⟨hfront, before, after, hsplit, hbefore⟩ := List.find?_eq_some_iff_append.1 h
  refine ⟨List.mem_of_find?_eq_some h, List.isPrefixOf_iff_prefix.1 hfront, ?_⟩
  intro u o' hu hmem
  rw [hsplit] at hsorted hmem
  rcases List.mem_append.1 hmem with hmem | hmem
  · have hnot := hbefore _ hmem
    simp only [List.isPrefixOf_iff_prefix.2 hu] at hnot
    cases hnot
  · rcases List.mem_cons.1 hmem with heq | hmem
    · exact Nat.le_of_eq (congrArg List.length (Prod.mk.inj heq).1)
    · exact (List.pairwise_cons.1 (List.pairwise_append.1 hsorted).2.1).1 _ hmem

theorem lexeme_munched (hs : s ≠ []) : Munched s (lexeme s).1 (s.take (lexeme s).2) := by
  unfold lexeme
  simp only
  split
  · rename_i hn
    obtain ⟨n, rest, rfl, hnumber, hlen⟩ := number_split (by simpa using hn)
    refine Or.inl ?_
    simp only [hlen, List.take_left]
    refine Class.Holds.longest (c := .number) ⟨hnumber, rfl⟩ (List.prefix_append _ _) ?_
    rintro u k ⟨rest', hrest'⟩ ⟨hu, -⟩
    rw [← hlen, ← hrest']
    exact hu.length_le rest'
  rename_i hn
  split
  · rename_i hw
    obtain ⟨w, rest, rfl, hword, hlen⟩ := word_split (by simpa using hw)
    refine Or.inl ?_
    simp only [hlen, List.take_left]
    refine Class.Holds.longest (c := .word) ⟨hword, rfl⟩ (List.prefix_append _ _) ?_
    rintro u k ⟨rest', hrest'⟩ ⟨hu, -⟩
    rw [← hlen, ← hrest']
    exact hu.length_le rest'
  rename_i hw
  split
  · rename_i spelling o hfind
    obtain ⟨hmem, hfront, hmax⟩ := length_le_of_find hfind
    refine Or.inl ?_
    simp only [← List.prefix_iff_eq_take.1 hfront]
    refine Class.Holds.longest (c := .symbol) ⟨o, hmem, rfl⟩ hfront ?_
    rintro u k hu ⟨o', hmem', -⟩
    exact hmax u o' hu hmem'
  · rename_i hnone
    refine Or.inr ⟨rfl, ?_, isFirstRune_take hs⟩
    intro u k hu hlex
    obtain ⟨c, hc⟩ := isLexeme_iff.1 hlex
    obtain ⟨b, t, rfl, -⟩ := hc.head
    cases c with
    | number =>
      obtain ⟨rest, rfl⟩ := hu
      have hle := hc.1.length_le rest
      simp_all
    | word =>
      obtain ⟨rest, rfl⟩ := hu
      have hle := hc.1.length_le rest
      simp_all
    | symbol =>
      obtain ⟨o, hmem, -⟩ := hc
      have hnot := List.find?_eq_none.1 hnone _ hmem
      exact hnot (List.isPrefixOf_iff_prefix.2 hu)

end Lexer

namespace Scanner

open Text

/-- What is left of the source. -/
def left (sc : Scanner) : Text := sc.rest.drop sc.skip

/-- The position of the first byte that is left. -/
def place (sc : Scanner) : Pos := sc.pos.advance (sc.rest.take sc.skip)

theorem nextFrom_eq (skip : Nat) (p : Pos) (s : Text) :
    nextFrom skip p s = nextFrom 0 (p.advance (s.take skip)) (s.drop skip) := by
  induction s generalizing skip p with
  | nil => cases skip <;> rfl
  | cons b s ih =>
    cases skip with
    | zero => rfl
    | succ skip => exact ih skip (p.step b)

/-- A scanner in front of a lexeme reads it. -/
theorem next_eq {sc : Scanner} {b : UInt8} {s : Text} (hleft : sc.left = b :: s)
    (hgap : Lexer.isGap b = false) (hhash : b ≠ ascii '#') :
    sc.next = (⟨(Lexer.lexeme (b :: s)).1, (b :: s).take (Lexer.lexeme (b :: s)).2, sc.place⟩,
      ⟨(Lexer.lexeme (b :: s)).2 - 1, sc.place.step b, s⟩) := by
  unfold left at hleft
  rw [next, nextFrom_eq, hleft]
  simp [nextFrom, hgap, hhash, place]

/-- At every place of every source that is not at its end and where neither a blank nor a comment
starts, the scanner reads the longest lexeme, or one code point if there is none, and then stands
just behind it. -/
theorem reads_the_longest_lexeme (sc : Scanner) {b : UInt8} {s : Text} (hleft : sc.left = b :: s)
    (hgap : Lexer.isGap b = false) (hhash : b ≠ ascii '#') :
    Lexer.Munched sc.left sc.next.1.kind sc.next.1.text ∧ sc.next.1.pos = sc.place ∧
      sc.next.2.left = sc.left.drop sc.next.1.text.length ∧
      sc.next.2.place = sc.place.advance sc.next.1.text := by
  obtain ⟨hpos, hle⟩ := Lexer.lexeme_bounds (s := b :: s) (by simp)
  have hmunched := Lexer.lexeme_munched (s := b :: s) (by simp)
  rw [next_eq hleft hgap hhash, hleft]
  generalize Lexer.lexeme (b :: s) = l at *
  obtain ⟨n, hn⟩ : ∃ n, l.2 = n + 1 := ⟨l.2 - 1, by omega⟩
  refine ⟨hmunched, rfl, ?_, ?_⟩
  · simp only [List.length_take_of_le hle]
    simp only [left, hn, Nat.add_sub_cancel, List.drop_succ_cons]
  · simp only [place, hn, Nat.add_sub_cancel, List.take_succ_cons]
    rfl

/-- The exponent of `1.e+x` is not complete, and so the number ends before it. -/
theorem incomplete_exponent_is_left : (start "1.e+x").left = ascii '1' :: Text.ofString ".e+x" ∧
    Lexer.isGap (ascii '1') = false ∧ ascii '1' ≠ ascii '#' ∧
    Lexer.Munched "1.e+x" .number "1." ∧ (start "1.e+x").next.2.left = Text.ofString "e+x" := by
  have hleft : (start "1.e+x").left = ascii '1' :: Text.ofString ".e+x" := by decide
  obtain ⟨hmunched, -, hbehind, -⟩ :=
    reads_the_longest_lexeme (start "1.e+x") hleft (by decide) (by decide)
  have hkind : (start "1.e+x").next.1.kind = .number := by decide
  have htext : (start "1.e+x").next.1.text = Text.ofString "1." := by decide
  rw [hkind, htext] at hmunched
  rw [htext] at hbehind
  exact ⟨hleft, by decide, by decide, hmunched, hbehind⟩

end Scanner

end ThreeAddress
