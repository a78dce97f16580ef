import ThreeAddress.Proofs.MaximalMunch
import ThreeAddress.Proofs.WhiteSpace

/-! Where lexemes end. No lexeme has a blank in it or the sign that opens a comment, and so such a
byte ends what stands in front of it as the end of the source would; and what was read out of a
longer text is read again when it stands alone. Both follow from what the scanner is to read, not
from how it reads it. -/
namespace ThreeAddress

namespace Text

variable {s t u rest : Text} {b : UInt8}

/-- What a text starts with ends before a byte that it does not have. -/
theorem prefix_of_not_mem (h : u <+: s ++ b :: rest) (hb : b ∉ u) : u <+: s := by
  obtain ⟨tail, htail⟩ := h
  rcases List.append_eq_append_iff.1 htail with ⟨r, rfl, -⟩ | ⟨r, rfl, hr⟩
  · exact List.prefix_append u r
  · cases r with
    | nil => simp
    | cons c r =>
      obtain rfl : b = c := (List.cons.inj hr).1
      simp at hb

/-- A stray byte is one still when what comes behind the text cannot continue it. -/
theorem IsFirstRune.append (h : IsFirstRune s t) (hs : s ≠ []) (hrest : Starts rest) :
    IsFirstRune (s ++ rest) t := by
  rcases h with ⟨c, hc, hfront⟩ | ⟨hstray, b, hb, hfront⟩
  · exact Or.inl ⟨c, hc, hfront.trans (List.prefix_append s rest)⟩
  · refine Or.inr ⟨?_, b, hb, hfront.trans (List.prefix_append s rest)⟩
    obtain ⟨a, s, rfl⟩ := List.exists_cons_of_ne_nil hs
    have hnone : decode (a :: s) = none := by
      cases hdecode : decode (a :: s) with
      | none => rfl
      | some found =>
        obtain ⟨c, -, -, hc⟩ := decode_eq_some_iff.1 hdecode
        exact absurd hc (hstray c)
    intro c hc
    have hsome := decode_eq_some_iff.2 ⟨c, rfl, rfl, hc⟩
    rw [List.cons_append, decode_stray hnone hrest] at hsome
    cases hsome

theorem IsFirstRune.self (h : IsFirstRune s t) : IsFirstRune t t := by
  rcases h with ⟨c, hc, -⟩ | ⟨hstray, b, hb, hfront⟩
  · exact Or.inl ⟨c, hc, List.prefix_refl t⟩
  · exact Or.inr ⟨fun c hc => hstray c (hc.trans hfront), b, hb, List.prefix_refl t⟩

theorem IsFirstRune.unique (h : IsFirstRune s t) (h' : IsFirstRune s u) : t = u := by
  rcases h with ⟨c, rfl, hfront⟩ | ⟨hstray, b, rfl, hfront⟩
  · rcases h' with ⟨c', rfl, hfront'⟩ | ⟨hstray', -⟩
    · -- both encodings are found by decoding, at the same length
      have hsame := (decode_eq_some_iff.2 ⟨c, rfl, rfl, hfront⟩).symm.trans
        (decode_eq_some_iff.2 ⟨c', rfl, rfl, hfront'⟩)
      have hlen := (Prod.mk.inj (Option.some.inj hsame)).2
      exact (List.prefix_of_prefix_length_le hfront hfront' hlen.le).eq_of_length hlen
    · exact absurd hfront (hstray' c)
  · rcases h' with ⟨c', rfl, hfront'⟩ | ⟨-, b', rfl, hfront'⟩
    · exact absurd hfront' (hstray c')
    · exact (List.prefix_of_prefix_length_le hfront hfront' (Nat.le_refl 1)).eq_of_length rfl

end Text

namespace Lexer

open Text

variable {s t u rest : Text} {b : UInt8} {k k' : Kind}

/-- A byte that starts a blank or a comment. -/
def divides (b : UInt8) : Bool := isGap b || b == ascii '#'

theorem divides_eq_false : divides b = false ↔ isGap b = false ∧ b ≠ ascii '#' := by
  simp [divides]

theorem divides_cases (h : divides b) : b ∈ ofString " \t\r\n#" := by
  simp only [divides, isGap, Bool.or_eq_true, beq_iff_eq] at h
  rcases h with (((rfl | rfl) | rfl) | rfl) | rfl <;> decide

/-- What is true of none of the five bytes is true of no byte that divides. -/
theorem divides_of_holds {p : UInt8 → Bool} (hp : (ofString " \t\r\n#").all (!p ·)) (h : p b) :
    divides b = false := by
  rw [Bool.eq_false_iff]
  intro hb
  have hnot := List.all_eq_true.1 hp b (divides_cases hb)
  simp [h] at hnot

theorem IsLexeme.divides_eq_false (h : IsLexeme u k) : ∀ b ∈ u, divides b = false := by
  obtain ⟨c, hc⟩ := isLexeme_iff.1 h
  cases c with
  | number =>
    intro b hb
    rcases hc.1.bytes b hb with hdigit | hmark
    · exact divides_of_holds rfl hdigit
    · exact divides_of_holds rfl hmark
  | word =>
    obtain ⟨⟨hletter, hword⟩, -⟩ := hc
    exact List.forall_mem_cons.2
      ⟨divides_of_holds rfl hletter, fun b hb => divides_of_holds rfl (hword b hb)⟩
  | symbol =>
    have hall : ∀ e ∈ Op.lexemes, e.1.all (!divides ·) := by decide
    obtain ⟨o, ho, -⟩ := hc
    intro b hb
    simpa using List.all_eq_true.1 (hall _ ho) b hb

theorem IsLexeme.not_mem (h : IsLexeme u k) (hb : divides b) : b ∉ u := by
  intro hmem
  simp [h.divides_eq_false b hmem] at hb

theorem starts_of_divides (hb : divides b) (rest : Text) : Starts (b :: rest) := by
  have hall : (ofString " \t\r\n#").all (·.toNat < 0x80) := rfl
  have hlow : b.toNat < 0x80 := by simpa using List.all_eq_true.1 hall b (divides_cases hb)
  intro c hc
  obtain rfl : b = c := by simpa using hc
  unfold Trails
  omega

/-- What is to be read stays the same when a blank or a comment is put behind the text. -/
theorem Munched.append (h : Munched s k t) (hs : s ≠ []) (hb : divides b) (rest : Text) :
    Munched (s ++ b :: rest) k t := by
  rcases h with h | ⟨hk, hnone, hrune⟩
  · refine Or.inl ⟨h.front.trans (List.prefix_append s _), h.lexeme, ?_⟩
    intro u k' hu hlex
    exact h.longest u k' (prefix_of_not_mem hu (hlex.not_mem hb)) hlex
  · refine Or.inr ⟨hk, ?_, hrune.append hs (starts_of_divides hb rest)⟩
    intro u k' hu hlex
    exact hnone u k' (prefix_of_not_mem hu (hlex.not_mem hb)) hlex

theorem Munched.front (h : Munched s k t) : t <+: s := by
  rcases h with h | ⟨-, -, ⟨c, -, hfront⟩ | ⟨-, b, -, hfront⟩⟩
  · exact h.front
  · exact hfront
  · exact hfront

/-- What was read is all that is to be read where it stands alone. -/
theorem Munched.self (h : Munched s k t) : Munched t k t := by
  have hfront := h.front
  rcases h with h | ⟨hk, hnone, hrune⟩
  · exact Or.inl ⟨List.prefix_refl t, h.lexeme, fun u _ hu _ => hu.length_le⟩
  · exact Or.inr ⟨hk, fun u k' hu => hnone u k' (hu.trans hfront), hrune.self⟩

theorem Munched.unique (h : Munched s k t) (h' : Munched s k' u) : k = k' ∧ t = u := by
  rcases h with h | ⟨rfl, hnone, hrune⟩
  · have hlex := (h.lexeme k).2 rfl
    rcases h' with h' | ⟨-, hnone', -⟩
    · have hlex' := (h'.lexeme k').2 rfl
      have hle := h'.longest t k h.front hlex
      have hge := h.longest u k' h'.front hlex'
      obtain rfl := (List.prefix_of_prefix_length_le h.front h'.front hle).eq_of_length (by omega)
      exact ⟨((h.lexeme k').1 hlex').symm, rfl⟩
    · exact absurd hlex (hnone' t k h.front)
  · rcases h' with h' | ⟨rfl, -, hrune'⟩
    · exact absurd ((h'.lexeme k').2 rfl) (hnone u k' h'.front)
    · exact ⟨rfl, hrune.unique hrune'⟩

/-- The scanner reads what is to be read, since there is no choice. -/
theorem Munched.lexeme_eq (h : Munched s k t) (hs : s ≠ []) : lexeme s = (k, t.length) := by
  obtain ⟨rfl, rfl⟩ := h.unique (lexeme_munched hs)
  rw [List.length_take_of_le (lexeme_bounds hs).2]

/-- A blank or a comment is the end of the lexeme in front of it, as the end of the source would
be. -/
theorem lexeme_append (hs : s ≠ []) (hb : divides b) (rest : Text) :
    lexeme (s ++ b :: rest) = lexeme s := by
  have hmunched := (lexeme_munched hs).append hs hb rest
  rw [hmunched.lexeme_eq (by simp), List.length_take_of_le (lexeme_bounds hs).2]

/-- A word that starts neither a blank nor a comment and is read as it is where it stands alone. -/
structure Settled (w : Word) : Prop where
  head : ∃ b s, w.text = b :: s ∧ divides b = false
  munched : Munched w.text w.kind w.text

theorem settled_lexeme (hb : divides b = false) (s : Text) :
    Settled ⟨(lexeme (b :: s)).1, (b :: s).take (lexeme (b :: s)).2⟩ := by
  have hne := List.cons_ne_nil b s
  obtain ⟨n, hn⟩ := Nat.exists_eq_add_one.2 (lexeme_bounds hne).1
  refine ⟨⟨b, s.take n, ?_, hb⟩, (lexeme_munched hne).self⟩
  simp only [hn, List.take_succ_cons]

end Lexer

theorem Token.settled_of_mem {src : Text} {t : Token} (ht : t ∈ tokenize src) :
    Lexer.Settled t.word :=
  Lexer.scan_forall (P := fun kind text => Lexer.Settled ⟨kind, text⟩)
    (fun _ s hgap hcomment => Lexer.settled_lexeme (Lexer.divides_eq_false.2 ⟨hgap, hcomment⟩) s)
    0 _ src t ht

end ThreeAddress
