import ThreeAddress.Proofs.Bare
import ThreeAddress.Token.Lexer

/-! Names and numbers as lexemes: cut out of a text, or followed by anything that cannot continue
them, they are recognised at the same length. -/
namespace ThreeAddress

namespace Text

variable {s rest : Text}

/-- The text cannot continue a word or a number that stands in front of it. -/
def Apart (rest : Text) : Prop := ∀ b ∈ rest.head?, isWordByte b = false ∧ b ≠ ascii '.'

theorem length_takeWhile_append {p : UInt8 → Bool} (h : ∀ b ∈ rest.head?, p b = false) :
    ((s ++ rest).takeWhile p).length = (s.takeWhile p).length := by
  induction s with
  | nil =>
    cases rest with
    | nil => rfl
    | cons b rest => simp [h b (by simp)]
  | cons b s ih => by_cases hb : p b <;> simp [hb, ih]

theorem length_takeWhile_take {p : UInt8 → Bool} (n : Nat) :
    ((s.take n).takeWhile p).length = min n (s.takeWhile p).length := by
  induction s generalizing n with
  | nil => simp
  | cons b s ih =>
    cases n with
    | zero => simp
    | succ n => by_cases hb : p b <;> simp [hb, ih, Nat.succ_min_succ]

theorem Apart.digit (h : Apart rest) : ∀ b ∈ rest.head?, isDigit b = false := by
  intro b hb
  have := (h b hb).1
  simp [isWordByte] at this
  exact this.2

theorem Apart.word (h : Apart rest) : ∀ b ∈ rest.head?, isWordByte b = false :=
  fun b hb => (h b hb).1

theorem digitRun_append (h : Apart rest) : digitRun (s ++ rest) = digitRun s :=
  length_takeWhile_append h.digit

theorem digitRun_take (n : Nat) : digitRun (s.take n) = min n (digitRun s) :=
  length_takeWhile_take n

theorem digitRun_le : digitRun s ≤ s.length := (List.takeWhile_sublist _).length_le

theorem wordLength_append (h : Apart rest) (hs : s ≠ []) :
    wordLength (s ++ rest) = wordLength s := by
  cases s with
  | nil => exact absurd rfl hs
  | cons b s =>
    simp only [List.cons_append, wordLength]
    rw [length_takeWhile_append h.word]

theorem wordLength_take : wordLength (s.take (wordLength s)) = wordLength s := by
  cases s with
  | nil => rfl
  | cons b s =>
    by_cases hb : isLetter b
    · simp [wordLength, hb, Nat.add_comm 1, length_takeWhile_take]
    · simp [wordLength, hb]

theorem wordLength_le : wordLength s ≤ s.length := by
  cases s with
  | nil => exact Nat.le_refl _
  | cons b s =>
    have : (s.takeWhile isWordByte).length ≤ s.length := (List.takeWhile_sublist _).length_le
    by_cases hb : isLetter b
    · simp [wordLength, hb]
      omega
    · simp [wordLength, hb]

end Text

namespace Lexer

open Text

variable {s rest : Text}

/-- The length of the sign that an exponent may start with. -/
def signLength : Text → Nat
  | b :: _ => if b == ascii '+' || b == ascii '-' then 1 else 0
  | [] => 0

theorem exponentLength_cons (e : UInt8) (s : Text) : exponentLength (e :: s) =
    if e == ascii 'e' || e == ascii 'E' then
      if digitRun (s.drop (signLength s)) == 0 then 0
      else 1 + signLength s + digitRun (s.drop (signLength s))
    else 0 := by
  cases s <;> rfl

theorem signLength_take {n : Nat} (hn : n ≠ 0) : signLength (s.take n) = signLength s := by
  cases n with
  | zero => exact absurd rfl hn
  | succ n => cases s <;> rfl

theorem signLength_append (hs : s ≠ []) : signLength (s ++ rest) = signLength s := by
  cases s with
  | nil => exact absurd rfl hs
  | cons b s => rfl

theorem signLength_le : signLength s ≤ s.length := by
  cases s with
  | nil => exact Nat.le_refl _
  | cons b s =>
    simp only [signLength, List.length_cons]
    split <;> omega

theorem exponentLength_le : exponentLength s ≤ s.length := by
  cases s with
  | nil => exact Nat.le_refl _
  | cons e s =>
    have h₁ := signLength_le (s := s)
    have h₂ := digitRun_le (s := s.drop (signLength s))
    rw [List.length_drop] at h₂
    rw [exponentLength_cons, List.length_cons]
    split
    · split <;> omega
    · omega

theorem exponentLength_take : exponentLength (s.take (exponentLength s)) = exponentLength s := by
  cases s with
  | nil => rfl
  | cons e s =>
    by_cases he : e == ascii 'e' || e == ascii 'E'
    · by_cases hd : digitRun (s.drop (signLength s)) = 0
      · simp [exponentLength_cons, he, hd]
        rfl
      · have hn : exponentLength (e :: s) =
            (signLength s + digitRun (s.drop (signLength s))) + 1 := by
          simp [exponentLength_cons, he, hd]
          omega
        have hsign : signLength (s.take (signLength s + digitRun (s.drop (signLength s)))) =
            signLength s := signLength_take (by omega)
        rw [hn, List.take_succ_cons, exponentLength_cons, hsign, List.drop_take, digitRun_take]
        simp [he, hd]
        omega
    · simp [exponentLength_cons, he]
      rfl

/-- The length of a mantissa with `whole` digits in front of the text `tail`. -/
def mantissaFrom (whole : Nat) : Text → Nat
  | [] => whole
  | b :: rest =>
    if b == ascii '.' then
      if whole == 0 && digitRun rest == 0 then 0 else whole + 1 + digitRun rest
    else whole

theorem mantissaLength_eq (s : Text) :
    mantissaLength s = mantissaFrom (digitRun s) (s.drop (digitRun s)) := by
  simp only [mantissaLength]
  cases s.drop (digitRun s) <;> rfl

theorem le_mantissaFrom (whole : Nat) (tail : Text) : whole ≤ mantissaFrom whole tail := by
  cases tail with
  | nil => exact Nat.le_refl _
  | cons b rest =>
    simp only [mantissaFrom]
    split
    · split
      · simp_all
      · omega
    · omega

theorem mantissaFrom_le (whole : Nat) (tail : Text) :
    mantissaFrom whole tail ≤ whole + tail.length := by
  cases tail with
  | nil => exact Nat.le_refl _
  | cons b rest =>
    have := digitRun_le (s := rest)
    simp only [mantissaFrom, List.length_cons]
    split
    · split <;> omega
    · omega

theorem mantissaFrom_take {whole n : Nat} {tail : Text} (hn : mantissaFrom whole tail ≤ whole + n)
    (hm : mantissaFrom whole tail ≠ 0) :
    mantissaFrom whole (tail.take n) = mantissaFrom whole tail := by
  cases tail with
  | nil => simp
  | cons b rest =>
    by_cases hb : b = ascii '.'
    · by_cases hz : whole = 0 ∧ digitRun rest = 0
      · simp [mantissaFrom, hb, hz] at hm
      · have hlen : mantissaFrom whole (b :: rest) = whole + 1 + digitRun rest := by
          simp [mantissaFrom, hb, hz]
        obtain ⟨k, rfl⟩ : ∃ k, n = k + 1 := ⟨n - 1, by omega⟩
        have hfrac : digitRun (rest.take k) = digitRun rest := by
          rw [digitRun_take]
          omega
        simp [mantissaFrom, hb, hfrac]
    · cases n <;> simp [mantissaFrom, hb]

theorem mantissaFrom_append {whole : Nat} {tail : Text} (h : Apart rest) :
    mantissaFrom whole (tail ++ rest) = mantissaFrom whole tail := by
  cases tail with
  | nil =>
    cases rest with
    | nil => rfl
    | cons b rest =>
      have := (h b (by simp)).2
      simp [mantissaFrom, this]
  | cons b tail => simp [mantissaFrom, digitRun_append h]

theorem mantissaLength_le : mantissaLength s ≤ s.length := by
  have h₁ := digitRun_le (s := s)
  have h₂ := mantissaFrom_le (digitRun s) (s.drop (digitRun s))
  rw [List.length_drop] at h₂
  rw [mantissaLength_eq]
  omega

theorem mantissaLength_take {n : Nat} (hn : mantissaLength s ≤ n) (hm : mantissaLength s ≠ 0) :
    mantissaLength (s.take n) = mantissaLength s := by
  rw [mantissaLength_eq] at hn hm
  have hw := le_mantissaFrom (digitRun s) (s.drop (digitRun s))
  have hrun : digitRun (s.take n) = digitRun s := by
    rw [digitRun_take]
    omega
  rw [mantissaLength_eq, mantissaLength_eq, hrun, List.drop_take]
  exact mantissaFrom_take (by omega) hm

theorem mantissaLength_append (h : Apart rest) : mantissaLength (s ++ rest) = mantissaLength s := by
  rw [mantissaLength_eq, mantissaLength_eq, digitRun_append h,
    List.drop_append_of_le_length digitRun_le, mantissaFrom_append h]

theorem exponentLength_append (h : Apart rest) (hs : exponentLength s = s.length) :
    exponentLength (s ++ rest) = exponentLength s := by
  cases s with
  | nil =>
    cases rest with
    | nil => rfl
    | cons b rest =>
      have hb := (h b (by simp)).1
      have he : (b == ascii 'e' || b == ascii 'E') = false := by
        simp only [Bool.or_eq_false_iff, beq_eq_false_iff_ne]
        constructor <;> rintro rfl <;> exact absurd hb (by decide)
      simp [exponentLength_cons, he]
      rfl
  | cons e s =>
    have hne : s ≠ [] := by
      rintro rfl
      simp [exponentLength_cons, signLength, digitRun] at hs
    rw [List.cons_append, exponentLength_cons, exponentLength_cons, signLength_append hne,
      List.drop_append_of_le_length signLength_le, digitRun_append h]

theorem numberLength_le : numberLength s ≤ s.length := by
  have h₁ := mantissaLength_le (s := s)
  have h₂ := exponentLength_le (s := s.drop (mantissaLength s))
  rw [List.length_drop] at h₂
  unfold numberLength
  simp only
  split <;> omega

/-- What is cut out as a number is one. -/
theorem numberLength_take (h : numberLength s ≠ 0) :
    numberLength (s.take (numberLength s)) = numberLength s := by
  have hm : mantissaLength s ≠ 0 := by
    intro hm
    simp [numberLength, hm] at h
  have hn : numberLength s = mantissaLength s + exponentLength (s.drop (mantissaLength s)) := by
    simp [numberLength, hm]
  have htake : mantissaLength (s.take (numberLength s)) = mantissaLength s :=
    mantissaLength_take (by omega) hm
  have hdrop : (s.take (numberLength s)).drop (mantissaLength s) =
      (s.drop (mantissaLength s)).take (exponentLength (s.drop (mantissaLength s))) := by
    rw [List.drop_take, hn]
    congr 1
    omega
  have : numberLength (s.take (numberLength s)) =
      mantissaLength s + exponentLength (s.drop (mantissaLength s)) := by
    rw [numberLength, htake, hdrop, exponentLength_take]
    simp [hm]
  rw [this, hn]

/-- A number ends where something begins that cannot continue it. -/
theorem numberLength_append (h : Apart rest) (hs : s ≠ []) (hn : numberLength s = s.length) :
    numberLength (s ++ rest) = s.length := by
  have hm : mantissaLength s ≠ 0 := by
    intro hm
    simp [numberLength, hm] at hn
    exact hs (List.eq_nil_of_length_eq_zero hn.symm)
  have hlen : mantissaLength s + exponentLength (s.drop (mantissaLength s)) = s.length := by
    simpa [numberLength, hm] using hn
  have hexp : exponentLength (s.drop (mantissaLength s)) = (s.drop (mantissaLength s)).length := by
    rw [List.length_drop]
    omega
  rw [numberLength, mantissaLength_append h, List.drop_append_of_le_length mantissaLength_le,
    exponentLength_append h hexp]
  simp [hm, hlen]

end Lexer

namespace Word

/-- What the kind of a word tells about its text, when both come from a source. -/
def Lexed (w : Word) : Prop :=
  match w.kind with
  | .name => w.text.isIdentifier ∧ Kind.ofWord w.text = .name
  | .number => w.text ≠ [] ∧ Lexer.numberLength w.text = w.text.length
  | .eof => False
  | _ => True

theorem Lexed.kind_ne_eof {w : Word} (h : w.Lexed) : w.kind ≠ .eof := by
  intro hk
  simp [Lexed, hk] at h

end Word

namespace Lexer

open Text

variable {s : Text}

/-- A number starts with a digit or a point. -/
theorem numberLength_cons {b : UInt8} (hd : isDigit b = false) (hdot : b ≠ ascii '.') (s : Text) :
    numberLength (b :: s) = 0 := by
  have hrun : digitRun (b :: s) = 0 := by simp [digitRun, hd]
  have hm : mantissaLength (b :: s) = 0 := by
    rw [mantissaLength_eq, hrun]
    simp [mantissaFrom, hdot]
  simp [numberLength, hm]

theorem isDigit_of_isLetter {b : UInt8} (h : isLetter b) : isDigit b = false := by
  rw [Bool.eq_false_iff]
  intro hd
  simp only [isLetter, isDigit, Bool.or_eq_true, Bool.and_eq_true, decide_eq_true_eq,
    beq_iff_eq] at h hd
  obtain (⟨h, -⟩ | ⟨h, -⟩) | rfl := h
  · exact absurd (UInt8.le_trans h hd.2) (by decide)
  · exact absurd (UInt8.le_trans h hd.2) (by decide)
  · exact absurd hd.2 (by decide)

theorem isLetter_of_isIdentifier {b : UInt8} (h : isIdentifier (b :: s)) : isLetter b := by
  by_cases hb : isLetter b
  · exact hb
  · simp [isIdentifier, wordLength, hb] at h

theorem starts_number {b : UInt8} (h : Word.Lexed ⟨.number, b :: s⟩) :
    isDigit b ∨ b = ascii '.' := by
  by_cases hd : isDigit b
  · exact Or.inl hd
  · by_cases hdot : b = ascii '.'
    · exact Or.inr hdot
    · have hlen : numberLength (b :: s) = (b :: s).length := h.2
      rw [numberLength_cons (by simpa using hd) hdot] at hlen
      exact absurd hlen (by simp)

theorem ofWord_cases (s : Text) :
    Kind.ofWord s = .name ∨ (∃ k, Kind.ofWord s = .keyword k) ∨ ∃ o, Kind.ofWord s = .op o := by
  unfold Kind.ofWord
  cases Keyword.ofText? s with
  | some k => exact Or.inr (Or.inl ⟨k, rfl⟩)
  | none =>
    simp only
    split
    · exact Or.inr (Or.inr ⟨_, rfl⟩)
    · split
      · exact Or.inr (Or.inr ⟨_, rfl⟩)
      · split
        · exact Or.inr (Or.inr ⟨_, rfl⟩)
        · exact Or.inl rfl

theorem lexeme_lexed (s : Text) : Word.Lexed ⟨(lexeme s).1, s.take (lexeme s).2⟩ := by
  unfold lexeme
  simp only
  split
  · rename_i hn
    have hn : numberLength s ≠ 0 := by simpa using hn
    have hlen := numberLength_take hn
    have hle := numberLength_le (s := s)
    refine ⟨?_, ?_⟩
    · intro hnil
      have hnil : s.take (numberLength s) = [] := hnil
      rw [hnil] at hlen
      exact hn hlen.symm
    · rw [hlen, List.length_take]
      omega
  · split
    · rename_i hw
      have hw : wordLength s ≠ 0 := by simpa using hw
      obtain hk | ⟨k, hk⟩ | ⟨o, hk⟩ := ofWord_cases (s.take (wordLength s))
      · have hle := wordLength_le (s := s)
        have hid : isIdentifier (s.take (wordLength s)) := by
          have hne : s ≠ [] := by
            rintro rfl
            exact hw rfl
          simp [isIdentifier, wordLength_take, hw, hne]
          omega
        simp [Word.Lexed, hk, hid]
      · simp [Word.Lexed, hk]
      · simp [Word.Lexed, hk]
    · split <;> trivial

/-- What is true of the lexeme at the start of every text where neither a blank nor a comment starts
is true of every token. -/
theorem scan_forall {P : Kind → Text → Prop}
    (h : ∀ b s, isGap b = false → b ≠ ascii '#' →
      P (lexeme (b :: s)).1 ((b :: s).take (lexeme (b :: s)).2))
    (skip : Nat) (p : Pos) (s : Text) : ∀ t ∈ scan skip p s, P t.kind t.text := by
  induction s generalizing skip p with
  | nil => simp [scan]
  | cons b s ih =>
    cases skip with
    | succ skip =>
      unfold scan
      exact ih skip _
    | zero =>
      unfold scan
      split
      · exact ih 0 _
      · rename_i hgap
        split
        · exact ih _ _
        · rename_i hcomment
          intro t ht
          obtain rfl | ht := List.mem_cons.1 ht
          · exact h b s (by simpa using hgap) (by simpa using hcomment)
          · exact ih _ _ t ht

end Lexer

/-- Every token of a source has a text that fits its kind. -/
theorem Token.tokenize_lexed (s : Text) : ∀ t ∈ Token.tokenize s, t.word.Lexed :=
  Lexer.scan_forall (P := fun kind text => Word.Lexed ⟨kind, text⟩)
    (fun b s _ _ => Lexer.lexeme_lexed (b :: s)) 0 _ s

end ThreeAddress
