import ThreeAddress.Proofs.Relexing
import ThreeAddress.Proofs.Separators

/-! Layout means nothing. The tokens of a source, stray bytes among them, are found again when they
are written with any blanks and comments between them. -/
namespace ThreeAddress

/-- The pieces in their order with separators between them; `sep i` stands behind the piece with
number `i`, the last one apart. -/
def Text.spaced (sep : Nat → Text) : List Text → Text
  | [] => []
  | [piece] => piece
  | piece :: next :: pieces => piece ++ sep 0 ++ spaced (fun i => sep (i + 1)) (next :: pieces)

namespace Lexer

open Text

/-- Blanks, and comments with the line feeds that end them. -/
inductive Spacing : Text → Prop
  | nil : Spacing []
  | blank {b : UInt8} {s : Text} : isGap b → Spacing s → Spacing (b :: s)
  | comment {body s : Text} : lineFeed ∉ body → Spacing s →
      Spacing (ascii '#' :: (body ++ lineFeed :: s))

/-- What keeps two tokens apart. -/
def Separator (s : Text) : Prop := Spacing s ∧ s ≠ []

variable {s rest : Text}

theorem wordsIn_comment {body : Text} (hbody : lineFeed ∉ body) (s : Text) :
    wordsIn (ascii '#' :: (body ++ lineFeed :: s)) = wordsIn s := by
  have hline : (body ++ lineFeed :: s).takeWhile (· != lineFeed) = body := by
    rw [List.takeWhile_append_of_pos]
    · simp
    · intro b hb
      simpa using fun heq : b = lineFeed => hbody (heq ▸ hb)
  have hscan : Token.tokenize (ascii '#' :: (body ++ lineFeed :: s)) =
      scan body.length (Pos.first.step (ascii '#')) (body ++ lineFeed :: s) := by
    have hgap : isGap (ascii '#') = false := rfl
    simp [Token.tokenize, scan, hgap, hline]
  rw [wordsIn, hscan, map_word_scan_append, wordsIn_gap rfl]

/-- There are no tokens in a spacing, and it does not change those behind it. -/
theorem Spacing.wordsIn_append (h : Spacing s) (rest : Text) :
    wordsIn (s ++ rest) = wordsIn rest := by
  induction h with
  | nil => rfl
  | blank hb _ ih => rw [List.cons_append, wordsIn_gap hb, ih]
  | comment hbody _ ih =>
    rw [List.cons_append, List.append_assoc, List.cons_append, wordsIn_comment hbody, ih]

theorem Separator.head (h : Separator s) : ∃ b tail, s = b :: tail ∧ divides b := by
  obtain ⟨hspacing, hne⟩ := h
  cases hspacing with
  | nil => exact absurd rfl hne
  | blank hb => exact ⟨_, _, rfl, by simp [divides, hb]⟩
  | comment => exact ⟨_, _, rfl, rfl⟩

/-- A settled word is the first of every text that starts with it and goes on with a separator, or
not at all. -/
theorem Settled.wordsIn_append {w : Word} (h : Settled w) (hrest : rest = [] ∨ ∃ b tail,
    rest = b :: tail ∧ divides b) : wordsIn (w.text ++ rest) = w :: wordsIn rest := by
  obtain ⟨kind, text⟩ := w
  obtain ⟨⟨b, s, rfl, hb⟩, hmunched⟩ := h
  obtain ⟨hgap, hcomment⟩ := divides_eq_false.1 hb
  refine wordsIn_lexeme hgap hcomment ?_
  have halone := hmunched.lexeme_eq (List.cons_ne_nil b s)
  rcases hrest with rfl | ⟨c, tail, rfl, hc⟩
  · rwa [List.append_nil]
  · rwa [lexeme_append (List.cons_ne_nil b s) hc]

theorem wordsIn_spaced {ws : List Word} (hws : ∀ w ∈ ws, Settled w) {sep : Nat → Text}
    (hsep : ∀ i, Separator (sep i)) : wordsIn (spaced sep (ws.map Word.text)) = ws := by
  induction ws generalizing sep with
  | nil => rfl
  | cons w ws ih =>
    obtain ⟨hw, hws⟩ := List.forall_mem_cons.1 hws
    cases ws with
    | nil =>
      have halone : wordsIn (w.text ++ []) = [w] := hw.wordsIn_append (Or.inl rfl)
      rwa [List.append_nil] at halone
    | cons next ws =>
      rw [List.map_cons, List.map_cons, spaced, List.append_assoc, hw.wordsIn_append (Or.inr ?_),
        (hsep 0).1.wordsIn_append]
      · exact congrArg (List.cons w) (ih hws fun i => hsep (i + 1))
      · obtain ⟨b, tail, hhead, hb⟩ := (hsep 0).head
        exact ⟨b, _, by rw [hhead, List.cons_append], hb⟩

end Lexer

namespace Token

open Text

/-- The texts of the tokens of a source, written one after the other with any separators between
them, have the same tokens: as many, of the same kinds and with the same texts, whether legal or
not. -/
theorem respacing_keeps_tokens (src : Text) {sep : Nat → Text}
    (hsep : ∀ i, Lexer.Separator (sep i)) :
    (tokenize (spaced sep ((tokenize src).map (·.text)))).map word = (tokenize src).map word := by
  have hsettled : ∀ w ∈ (tokenize src).map word, Lexer.Settled w := by
    intro w hw
    obtain ⟨t, ht, rfl⟩ := List.mem_map.1 hw
    exact settled_of_mem ht
  have hwords := Lexer.wordsIn_spaced hsettled hsep
  rwa [List.map_map] at hwords

/-- The first byte of a sequence that is cut off and the exponent that is not complete are read as
before when blanks and comments come between. -/
theorem stray_byte_survives_respacing :
    (∀ i, Lexer.Separator (if i % 2 = 0 then " " else "#1\n\t")) ∧
    (tokenize (0xE2 :: ofString " 1#1\n\te +#1\n\t//=")).map word =
      [⟨.illegal, [0xE2]⟩, ⟨.number, "1"⟩, ⟨.name, "e"⟩, ⟨.op .plus, "+"⟩,
        ⟨.op .overAssign, "//="⟩] := by
  have hblank : Lexer.Separator " " := ⟨.blank rfl .nil, by decide⟩
  have hcomment : Lexer.Separator "#1\n\t" :=
    ⟨.comment (by decide : lineFeed ∉ ofString "1") (.blank rfl .nil), by decide⟩
  have hsep : ∀ i, Lexer.Separator (if i % 2 = 0 then " " else "#1\n\t") := by
    intro i
    split
    · exact hblank
    · exact hcomment
  exact ⟨hsep, respacing_keeps_tokens (0xE2 :: ofString "1e+//=") hsep⟩

end Token

end ThreeAddress
