import ThreeAddress.Proofs.Relocation
import ThreeAddress.Proofs.Separators

/-! Lines and tokens. No token and no comment goes on behind a line feed, so the tokens of a source
are those of its lines, each at the place of its line. -/
namespace ThreeAddress

namespace Lexer

open Text

/-- What comes behind a line feed is scanned as if it stood alone. -/
theorem scan_lineFeed {skip : Nat} (p : Pos) (s rest : Text) (hskip : skip ≤ s.length) :
    scan skip p (s ++ lineFeed :: rest) =
      scan skip p s ++ scan 0 ((p.advance s).step lineFeed) rest := by
  induction s generalizing skip p with
  | nil =>
    obtain rfl : skip = 0 := Nat.le_zero.1 hskip
    rfl
  | cons b s ih =>
    rw [List.cons_append]
    cases skip with
    | succ skip => exact ih (p.step b) (Nat.le_of_succ_le_succ hskip)
    | zero =>
      rw [scan, scan]
      by_cases hgap : isGap b
      · rw [if_pos hgap, if_pos hgap]
        exact ih (p.step b) (Nat.zero_le _)
      rw [if_neg hgap, if_neg hgap]
      by_cases hcomment : b == ascii '#'
      · rw [if_pos hcomment, if_pos hcomment, length_takeWhile_append (by simp)]
        exact ih (p.step b) (List.takeWhile_sublist _).length_le
      rw [if_neg hcomment, if_neg hcomment]
      have hlexeme := lexeme_append (b := lineFeed) (List.cons_ne_nil b s) rfl rest
      have hlength := (lexeme_bounds (List.cons_ne_nil b s)).2
      rw [← List.cons_append, hlexeme]
      simp only [List.take_append_of_le_length hlength]
      exact congrArg _ (ih (p.step b) (Nat.pred_le_of_le_succ hlength))

/-- Where the first byte stands matters for the positions only. -/
theorem scan_relocate {f : Pos → Pos} (hf : ∀ p b, f (Pos.step p b) = (f p).step b) (skip : Nat)
    (p : Pos) (s : Text) : scan skip (f p) s = (scan skip p s).map (Token.relocate f) := by
  fun_induction scan skip p s with
  | case1 skip p => rfl
  | case2 skip p b s ih => rw [scan, ← hf, ih]
  | case3 p b s hgap ih => rw [scan, if_pos hgap, ← hf, ih]
  | case4 p b s hgap hcomment ih => rw [scan, if_neg hgap, if_pos hcomment, ← hf, ih]
  | case5 p b s hgap hcomment kind length hlexeme ih =>
    rw [scan, if_neg hgap, if_neg hcomment, hlexeme]
    simp only [List.map_cons]
    rw [← ih, hf]
    rfl

end Lexer

namespace Pos

open Text

/-- The place so many lines and bytes further on, in the same column. -/
def shift (lines bytes : Int) (p : Pos) : Pos := ⟨p.line + lines, p.column, p.offset + bytes⟩

theorem rigid_shift (lines bytes : Int) : Rigid (shift lines bytes) := by
  intro p s
  simp only [shift, past, Pos.mk.injEq, true_and]
  omega

theorem shift_step (lines bytes : Int) (p : Pos) (b : UInt8) :
    shift lines bytes (p.step b) = (shift lines bytes p).step b := by
  unfold step
  split
  · simp only [shift, Pos.mk.injEq, true_and]
    omega
  · simp only [shift, Pos.mk.injEq, true_and]
    omega

theorem shift_advance (lines bytes : Int) (p : Pos) (s : Text) :
    shift lines bytes (p.advance s) = (shift lines bytes p).advance s := by
  induction s generalizing p with
  | nil => rfl
  | cons b s ih =>
    have hstep := ih (p.step b)
    rw [shift_step] at hstep
    exact hstep

theorem shift_shift (lines bytes lines' bytes' : Int) (p : Pos) :
    shift lines bytes (shift lines' bytes' p) = shift (lines + lines') (bytes + bytes') p := by
  simp only [shift, Pos.mk.injEq, true_and]
  omega

/-- The first place behind a text and a line feed. -/
theorem advance_lineFeed (p : Pos) (s : Text) :
    (p.advance s).step lineFeed = ⟨p.line + s.count lineFeed + 1, 1, p.offset + s.length + 1⟩ := by
  induction s generalizing p with
  | nil => simp [advance, step]
  | cons b s ih =>
    refine (ih (p.step b)).trans ?_
    by_cases hb : b = lineFeed
    · simp only [step, hb, beq_self_eq_true, if_true, List.count_cons_self, List.length_cons,
        Pos.mk.injEq, true_and]
      omega
    · simp only [step, beq_iff_eq, hb, if_false, List.count_cons_of_ne (Ne.symm (Ne.symm hb)),
        List.length_cons, Pos.mk.injEq, true_and]
      omega

end Pos

namespace Token

open Text

theorem first_lineFeed (a : Text) : (Pos.first.advance a).step lineFeed =
    Pos.shift (a.count lineFeed + 1) (a.length + 1) Pos.first := by
  rw [Pos.advance_lineFeed]
  simp only [Pos.first, Pos.shift, Pos.mk.injEq, true_and]
  omega

/-- The tokens of two texts with a line feed between them: those of the first, and those of the
second on their own lines. -/
theorem tokenize_lineFeed (a b : Text) : tokenize (a ++ lineFeed :: b) =
    tokenize a ++
      (tokenize b).map (relocate (Pos.shift (a.count lineFeed + 1) (a.length + 1))) := by
  rw [tokenize, Lexer.scan_lineFeed _ _ _ (Nat.zero_le _), first_lineFeed,
    Lexer.scan_relocate (Pos.shift_step _ _)]
  rfl

/-- Two texts with a line feed between them are scanned one by one: the tokens of the second stand
as many lines and bytes further on as the first and the line feed take up, in their old columns and
with their old kinds and texts. -/
theorem tokenize_is_compositional_over_lines (a b : Text) :
    tokenize (a ++ lineFeed :: b) = tokenize a ++ (tokenize b).map fun t =>
      { t with pos := ⟨t.pos.line + (a.count lineFeed + 1), t.pos.column,
          t.pos.offset + (a.length + 1)⟩ } :=
  tokenize_lineFeed a b

theorem endOf_lineFeed (a b : Text) : endOf (a ++ lineFeed :: b) =
    (endOf b).relocate (Pos.shift (a.count lineFeed + 1) (a.length + 1)) := by
  have hadvance : Pos.first.advance (a ++ lineFeed :: b) =
      ((Pos.first.advance a).step lineFeed).advance b := List.foldl_append
  rw [endOf, hadvance, first_lineFeed, ← Pos.shift_advance]
  rfl

end Token

end ThreeAddress
