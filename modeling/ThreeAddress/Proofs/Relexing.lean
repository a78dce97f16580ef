import ThreeAddress.Proofs.WellFormed

/-! The words of a text that is put together from lexemes and gaps: each lexeme is found again at
its own length, provided that what follows it cannot continue it. -/
namespace ThreeAddress

def Op.word (o : Op) : Word := ⟨.op o, o.symbol⟩

def Keyword.word (k : Keyword) : Word := ⟨.keyword k, k.spelling⟩

namespace Lexer

open Text

variable {s rest : Text}

/-- The tokens of a text without their positions. -/
def wordsIn (s : Text) : List Word := (Token.tokenize s).map Token.word

theorem map_word_scan (skip : Nat) (p q : Pos) (s : Text) :
    (scan skip p s).map Token.word = (scan skip q s).map Token.word := by
  induction s generalizing skip p q with
  | nil => rfl
  | cons b s ih =>
    cases skip with
    | succ skip => exact ih skip _ _
    | zero =>
      unfold scan
      split
      · exact ih 0 _ _
      · split
        · exact ih _ _ _
        · exact congrArg (List.cons _) (ih _ _ _)

theorem map_word_scan_append (p : Pos) (piece rest : Text) :
    (scan piece.length p (piece ++ rest)).map Token.word = wordsIn rest := by
  induction piece generalizing p with
  | nil => exact map_word_scan 0 _ _ rest
  | cons b piece ih => exact ih (p.step b)

@[simp] theorem wordsIn_nil : wordsIn [] = [] := rfl

theorem wordsIn_gap {b : UInt8} (hb : isGap b) (s : Text) : wordsIn (b :: s) = wordsIn s := by
  have h : Token.tokenize (b :: s) = scan 0 (Pos.first.step b) s := by
    simp [Token.tokenize, scan, hb]
  rw [wordsIn, h]
  exact map_word_scan 0 _ _ s

theorem wordsIn_gaps {gaps : Text} (h : gaps.all isGap) (s : Text) :
    wordsIn (gaps ++ s) = wordsIn s := by
  induction gaps with
  | nil => rfl
  | cons b gaps ih =>
    rw [List.all_cons, Bool.and_eq_true] at h
    rw [List.cons_append, wordsIn_gap h.1, ih h.2]

/-- A lexeme in front of a text is its first word. -/
theorem wordsIn_lexeme {kind : Kind} {b : UInt8} (hgap : isGap b = false) (hc : b ≠ ascii '#')
    (h : lexeme (b :: s ++ rest) = (kind, (b :: s).length)) :
    wordsIn (b :: s ++ rest) = ⟨kind, b :: s⟩ :: wordsIn rest := by
  have htok : Token.tokenize (b :: s ++ rest) =
      ⟨kind, b :: s, Pos.first⟩ :: scan s.length (Pos.first.step b) (s ++ rest) := by
    rw [List.cons_append] at h
    simp [Token.tokenize, scan, hgap, hc, h]
  rw [wordsIn, htok, List.map_cons, map_word_scan_append]
  rfl

theorem isGap_of_isLetter {b : UInt8} (h : isLetter b) : isGap b = false := by
  rw [Bool.eq_false_iff]
  intro hg
  simp only [isGap, Bool.or_eq_true, beq_iff_eq] at hg
  obtain ((rfl | rfl) | rfl) | rfl := hg <;> exact absurd h (by decide)

theorem isGap_of_isDigit {b : UInt8} (h : isDigit b) : isGap b = false := by
  rw [Bool.eq_false_iff]
  intro hg
  simp only [isGap, Bool.or_eq_true, beq_iff_eq] at hg
  obtain ((rfl | rfl) | rfl) | rfl := hg <;> exact absurd h (by decide)

/-- An identifier ends where something begins that cannot continue it. -/
theorem wordsIn_identifier (hs : s.isIdentifier) (h : Apart rest) :
    wordsIn (s ++ rest) = ⟨.ofWord s, s⟩ :: wordsIn rest := by
  cases s with
  | nil => exact absurd hs (by decide)
  | cons b s =>
    have hb := isLetter_of_isIdentifier hs
    have hnum : numberLength (b :: s ++ rest) = 0 :=
      numberLength_cons (isDigit_of_isLetter hb) (by rintro rfl; exact absurd hb (by decide)) _
    have hword : wordLength (b :: s ++ rest) = (b :: s).length := by
      rw [wordLength_append h (by simp)]
      simpa [isIdentifier] using hs
    refine wordsIn_lexeme (isGap_of_isLetter hb) (by rintro rfl; exact absurd hb (by decide)) ?_
    simp only [lexeme, hnum, hword]
    simp

/-- A number ends where something begins that cannot continue it. -/
theorem wordsIn_number (hs : Word.Lexed ⟨.number, s⟩) (h : Apart rest) :
    wordsIn (s ++ rest) = ⟨.number, s⟩ :: wordsIn rest := by
  cases s with
  | nil => exact absurd rfl hs.1
  | cons b s =>
    have hb := starts_number hs
    have hgap : isGap b = false := by
      obtain hd | rfl := hb
      · exact isGap_of_isDigit hd
      · decide
    have hc : b ≠ ascii '#' := by
      rintro rfl
      exact absurd hb (by decide)
    refine wordsIn_lexeme hgap hc ?_
    simp only [lexeme, numberLength_append h hs.1 hs.2]
    simp

end Lexer

namespace Op

open Text

/-- The bytes that would make the spelling of an operator into a longer one. -/
def followers (o : Op) : List UInt8 :=
  Op.lexemes.filterMap fun (spelling, _) =>
    if o.symbol.isPrefixOf spelling then (spelling.drop o.symbol.length).head? else none

theorem mem_followers {o : Op} {b : UInt8} (h : b ∈ o.followers) :
    b = ascii '=' ∨ b = ascii '/' := by
  have hall : o.followers.all (fun b => b = ascii '=' ∨ b = ascii '/') := by cases o <;> decide
  simpa using List.all_eq_true.1 hall b h

theorem isPrefixOf_append {spelling symbol rest : Text}
    (h : symbol.isPrefixOf spelling → ∀ b ∈ (spelling.drop symbol.length).head?, b ∉ rest.head?) :
    spelling.isPrefixOf (symbol ++ rest) = spelling.isPrefixOf symbol := by
  induction symbol generalizing spelling with
  | nil =>
    cases spelling with
    | nil => simp
    | cons c spelling =>
      cases rest with
      | nil => rfl
      | cons b rest =>
        have hne : c ≠ b := by simpa [eq_comm] using h (by simp) c (by simp)
        simp [List.isPrefixOf, hne]
  | cons a symbol ih =>
    cases spelling with
    | nil => simp
    | cons c spelling =>
      by_cases hc : c = a
      · subst hc
        simp only [List.cons_append, List.isPrefixOf_cons_cons, BEq.rfl, Bool.true_and]
        exact ih (by simpa using h)
      · have hne : (c == a) = false := by simpa using hc
        simp [List.isPrefixOf, hne]

theorem find?_lexemes (o : Op) :
    Op.lexemes.find? (fun (spelling, _) => spelling.isPrefixOf o.symbol) = some (o.symbol, o) := by
  cases o <;> rfl

theorem find?_lexemes_append (o : Op) {rest : Text} (h : ∀ b ∈ rest.head?, b ∉ o.followers) :
    Op.lexemes.find? (fun (spelling, _) => spelling.isPrefixOf (o.symbol ++ rest)) =
      some (o.symbol, o) := by
  have key : ∀ entry ∈ Op.lexemes,
      entry.1.isPrefixOf (o.symbol ++ rest) = entry.1.isPrefixOf o.symbol := by
    intro entry he
    refine isPrefixOf_append fun hp b hb hr => h b hr ?_
    exact List.mem_filterMap.2 ⟨entry, he, by simpa [hp] using hb⟩
  rw [← find?_lexemes o, ← List.head?_filter, ← List.head?_filter, List.filter_congr key]

theorem symbol_eq_cons (o : Op) : ∃ b s, o.symbol = b :: s ∧ Lexer.isGap b = false ∧
    b ≠ ascii '#' ∧ isDigit b = false ∧ b ≠ ascii '.' ∧ isLetter b = false := by
  cases o <;> exact ⟨_, _, rfl, by decide⟩

end Op

namespace Lexer

open Text

variable {rest : Text}

/-- An operator is the longest that can be read where it stands. -/
theorem wordsIn_symbol (o : Op) (h : ∀ b ∈ rest.head?, b ∉ o.followers) :
    wordsIn (o.symbol ++ rest) = o.word :: wordsIn rest := by
  obtain ⟨b, s, hs, hgap, hc, hd, hdot, hl⟩ := o.symbol_eq_cons
  have hfind := o.find?_lexemes_append h
  rw [Op.word, hs] at *
  refine wordsIn_lexeme hgap hc ?_
  have hnum : numberLength (b :: s ++ rest) = 0 := numberLength_cons hd hdot _
  have hword : wordLength (b :: s ++ rest) = 0 := by simp [wordLength, hl]
  simp only [lexeme, hnum, hword, hfind]
  rfl

theorem ofWord_spelling (k : Keyword) : Kind.ofWord k.spelling = .keyword k := by
  cases k <;> rfl

theorem wordsIn_keyword (k : Keyword) (h : Apart rest) :
    wordsIn (k.spelling ++ rest) = k.word :: wordsIn rest := by
  rw [wordsIn_identifier (by cases k <;> rfl) h, ofWord_spelling]
  rfl

theorem wordsIn_name {x : Text} (hx : IsName x) (h : Apart rest) :
    wordsIn (x ++ rest) = ⟨.name, x⟩ :: wordsIn rest := by
  rw [wordsIn_identifier hx.1 h, hx.2]

end Lexer

end ThreeAddress
