import ThreeAddress.Proofs.Lexemes

/-! Nothing of a source is lost in its tokens: each is a piece of the source at the place that its
position tells, and what lies between them are blanks and comments. -/
namespace ThreeAddress

namespace Text

variable {s : Text} {b : UInt8} {i j : Nat}

/-- The bytes of a text from number `i` up to but not including number `j`. -/
def slice (s : Text) (i j : Nat) : Text := (s.drop i).take (j - i)

theorem slice_append_drop (h : i ≤ j) : s.slice i j ++ s.drop j = s.drop i := by
  have hdrop : s.drop j = (s.drop i).drop (j - i) := by
    rw [List.drop_drop]
    congr 1
    omega
  rw [slice, hdrop, List.take_append_drop]

theorem drop_succ {rest : Text} (h : s.drop i = b :: rest) : s.drop (i + 1) = rest := by
  rw [← List.drop_drop, h]
  rfl

theorem decode_length {code n : Nat} (h : decode s = some (code, n)) : 0 < n ∧ n ≤ s.length := by
  rcases s with _ | ⟨b, _ | ⟨c, _ | ⟨d, _ | ⟨e, s⟩⟩⟩⟩ <;> simp only [decode] at h <;>
    repeat' split at h
  all_goals
    simp only [reduceCtorEq, Option.some.injEq, Prod.mk.injEq] at h
    try (obtain ⟨-, rfl⟩ := h; simp)

theorem runeLength_bounds (hs : s ≠ []) : 0 < runeLength s ∧ runeLength s ≤ s.length := by
  unfold runeLength
  split
  · rename_i h
    exact decode_length h
  · exact ⟨Nat.one_pos, List.length_pos_iff.2 hs⟩

end Text

namespace Pos

open Text

variable {src : Text} {i j : Nat} {p q r : Pos}

/-- The position of the byte with number `i`: the line feeds before it count its line, and the bytes
since the last of them its column. -/
def counted (src : Text) (i : Nat) : Pos :=
  ⟨1 + (src.take i).count lineFeed, 1 + ((src.take i).reverse.takeWhile (· != lineFeed)).length, i⟩

theorem counted_succ {b : UInt8} {s : Text} (h : src.drop i = b :: s) :
    counted src (i + 1) = (counted src i).step b := by
  have hget : src[i]? = some b := by
    rw [← Nat.add_zero i, ← List.getElem?_drop, h]
    rfl
  have htake : src.take (i + 1) = src.take i ++ [b] := by
    rw [List.take_add_one, hget]
    rfl
  by_cases hb : b = lineFeed
  · simp [counted, step, htake, hb, Int.add_assoc]
  · simp [counted, step, htake, hb, Int.add_assoc]

theorem counted_add {s rest : Text} (h : src.drop i = s ++ rest) :
    counted src (i + s.length) = (counted src i).advance s := by
  induction s generalizing i with
  | nil => rfl
  | cons b s ih =>
    have hstep := ih (drop_succ h)
    rw [counted_succ h] at hstep
    rw [List.length_cons, show i + (s.length + 1) = i + 1 + s.length by omega]
    exact hstep

theorem before_iff :
    p.before q ↔ p.line < q.line ∨ (p.line = q.line ∧ p.column < q.column) := by
  by_cases h : p.line = q.line <;> simp [before, h]

theorem before_trans (h : p.before q) (h' : q.before r) : p.before r := by
  rw [before_iff] at *
  omega

theorem not_before_self (p : Pos) : p.before p = false := by
  simp [before]

theorem before_step (p : Pos) (b : UInt8) : p.before (p.step b) := by
  rw [before_iff, step]
  split
  · exact Or.inl (Int.lt_succ p.line)
  · exact Or.inr ⟨rfl, Int.lt_succ p.column⟩

/-- The position moves on with every byte. -/
theorem before_advance {s : Text} (hs : s ≠ []) : p.before (p.advance s) := by
  induction s generalizing p with
  | nil => exact absurd rfl hs
  | cons b s ih =>
    have hstep := before_step p b
    by_cases hnil : s = []
    · subst hnil
      exact hstep
    · exact before_trans hstep (ih hnil)

theorem before_counted (hij : i < j) (hj : j ≤ src.length) :
    (counted src i).before (counted src j) := by
  have hsplit : src.drop i = src.slice i j ++ src.drop j :=
    (slice_append_drop (Nat.le_of_lt hij)).symm
  have hlen : (src.slice i j).length = j - i := by
    simp [slice]
    omega
  have hadd := counted_add hsplit
  rw [hlen, show i + (j - i) = j by omega] at hadd
  rw [hadd]
  apply before_advance
  intro hnil
  rw [hnil] at hlen
  simp at hlen
  omega

/-- Of two places in a source, the one before the other is that with the smaller number. -/
theorem before_counted_iff (hi : i ≤ src.length) (hj : j ≤ src.length) :
    (counted src i).before (counted src j) ↔ i < j := by
  constructor
  · intro h
    rcases Nat.lt_trichotomy i j with hlt | rfl | hgt
    · exact hlt
    · rw [not_before_self] at h
      cases h
    · have hself := before_trans h (before_counted hgt hi)
      rw [not_before_self] at hself
      cases hself
  · intro h
    exact before_counted h hj

end Pos

namespace Lexer

open Text

/-- Bytes that belong to no token: blanks, and comments, which run up to a line feed or to the end
of the source. What follows them in the source is `after`. -/
inductive Gap (after : Text) : Text → Prop
  | nil : Gap after []
  | blank {b : UInt8} {s : Text} : isGap b → Gap after s → Gap after (b :: s)
  | comment {body s : Text} : (∀ b ∈ body, b ≠ lineFeed) →
      (∀ b ∈ (s ++ after).head?, b = lineFeed) → Gap after s → Gap after (ascii '#' :: (body ++ s))

theorem lexeme_bounds {s : Text} (hs : s ≠ []) : 0 < (lexeme s).2 ∧ (lexeme s).2 ≤ s.length := by
  unfold lexeme
  simp only
  split
  · rename_i hn
    have hn : numberLength s ≠ 0 := by simpa using hn
    exact ⟨Nat.pos_of_ne_zero hn, numberLength_le⟩
  · split
    · rename_i hw
      have hw : wordLength s ≠ 0 := by simpa using hw
      exact ⟨Nat.pos_of_ne_zero hw, wordLength_le⟩
    · split
      · rename_i spelling o hfind
        have hfront : spelling <+: s := List.isPrefixOf_iff_prefix.1 (by
          simpa using List.find?_some hfind)
        have hne : ∀ entry ∈ Op.lexemes, 0 < entry.1.length := by decide
        exact ⟨hne _ (List.mem_of_find?_eq_some hfind), hfront.length_le⟩
      · exact runeLength_bounds hs

/-- The tokens lie in the source one after the other from number `i` on, with gaps before, between
and behind them. -/
inductive Laid (src : Text) : Nat → List Token → Prop
  | nil {i : Nat} : i ≤ src.length → Gap [] (src.drop i) → Laid src i []
  | cons {i j : Nat} {t : Token} {ts : List Token} : i ≤ j → Gap (src.drop j) (src.slice i j) →
      t.pos = Pos.counted src j → t.text ≠ [] → t.text <+: src.drop j →
      Laid src (j + t.text.length) ts → Laid src i (t :: ts)

variable {src : Text} {i : Nat} {ts : List Token}

/-- A piece that a gap may start with stands in front. -/
theorem Laid.prepend (piece : Text) (h : Laid src (i + piece.length) ts)
    (hpiece : src.drop i = piece ++ src.drop (i + piece.length))
    (hgap : ∀ after s, s ++ after = src.drop (i + piece.length) → Gap after s →
      Gap after (piece ++ s)) : Laid src i ts := by
  cases h with
  | nil hle hg =>
    refine .nil (by omega) ?_
    rw [hpiece]
    exact hgap [] _ (by simp) hg
  | @cons _ j t ts hle hg hpos hne hfront hrest =>
    refine .cons (by omega) ?_ hpos hne hfront hrest
    have hslice : src.slice i j = piece ++ src.slice (i + piece.length) j := by
      apply (List.append_left_inj (src.drop j)).1
      rw [slice_append_drop (by omega), List.append_assoc, slice_append_drop hle, hpiece]
    rw [hslice]
    exact hgap _ _ (slice_append_drop hle) hg

/-- A comment ends before the first line feed. -/
theorem comment_split (s : Text) : ∃ body rest, s = body ++ rest ∧
    (s.takeWhile (· != lineFeed)).length = body.length ∧ (∀ b ∈ body, b ≠ lineFeed) ∧
      ∀ b ∈ rest.head?, b = lineFeed := by
  induction s with
  | nil => exact ⟨[], [], rfl, rfl, by simp, by simp⟩
  | cons c s ih =>
    by_cases hc : c = lineFeed
    · exact ⟨[], c :: s, rfl, by simp [hc], by simp, by simp [hc]⟩
    · obtain ⟨body, rest, hs, hlen, hbody, hrest⟩ := ih
      exact ⟨c :: body, rest, by simp [hs], by simp [hc, hlen], by simpa [hc] using hbody, hrest⟩

namespace Laid

variable {b : UInt8} {s : Text}

theorem blank (h : Laid src (i + 1) ts) (hs : src.drop i = b :: s) (hb : isGap b) :
    Laid src i ts := by
  refine prepend [b] h ?_ fun after rest _ hg => .blank hb hg
  rw [List.length_singleton, drop_succ hs]
  exact hs

theorem comment (h : Laid src (i + 1 + (s.takeWhile (· != lineFeed)).length) ts)
    (hs : src.drop i = ascii '#' :: s) : Laid src i ts := by
  obtain ⟨body, rest, hsplit, hlen, hbody, hend⟩ := comment_split s
  have hlength : i + (ascii '#' :: body).length = i + 1 + body.length := by
    rw [List.length_cons]
    omega
  have hbehind : src.drop (i + (ascii '#' :: body).length) = rest := by
    rw [hlength, ← List.drop_drop, drop_succ hs, hsplit, List.drop_left]
  refine prepend (ascii '#' :: body) ?_ ?_ fun after gap hgap hg => ?_
  · rwa [hlength, ← hlen]
  · rw [hs, hbehind, hsplit]
    rfl
  · refine .comment hbody ?_ hg
    rw [hgap, hbehind]
    exact hend

theorem token {kind : Kind} {length : Nat} (h : Laid src (i + length) ts) (hs : src.drop i = s)
    (hpos : 0 < length) (hle : length ≤ s.length) :
    Laid src i (⟨kind, s.take length, Pos.counted src i⟩ :: ts) := by
  have htext : (s.take length).length = length := List.length_take_of_le hle
  refine .cons (Nat.le_refl i) ?_ rfl ?_ ?_ ?_
  · simp only [slice, Nat.sub_self, List.take_zero]
    exact .nil
  · apply List.ne_nil_of_length_pos
    show 0 < (s.take length).length
    rw [htext]
    exact hpos
  · rw [hs]
    exact List.take_prefix _ _
  · rwa [htext]

end Laid

/-- Scanning lays out the tokens, whatever part of a piece is still to be skipped. -/
theorem scan_laid (s : Text) (k skip : Nat) (hs : src.drop k = s) (hk : k ≤ src.length)
    (hskip : skip ≤ s.length) : Laid src (k + skip) (scan skip (Pos.counted src k) s) := by
  induction s generalizing k skip with
  | nil =>
    obtain rfl : skip = 0 := by simpa using hskip
    refine .nil hk ?_
    rw [Nat.add_zero, hs]
    exact .nil
  | cons b s ih =>
    have hk' : k + 1 ≤ src.length := by
      have hlen := congrArg List.length hs
      simp only [List.length_drop, List.length_cons] at hlen
      omega
    have hrest : ∀ skip ≤ s.length,
        Laid src (k + 1 + skip) (scan skip ((Pos.counted src k).step b) s) := by
      intro skip hskip
      rw [← Pos.counted_succ hs]
      exact ih (k + 1) skip (drop_succ hs) hk' hskip
    cases skip with
    | succ skip =>
      rw [show k + (skip + 1) = k + 1 + skip by omega]
      exact hrest skip (by simpa using hskip)
    | zero =>
      rw [scan]
      split
      · rename_i hgap
        exact (hrest 0 (Nat.zero_le _)).blank hs hgap
      · split
        · rename_i hhash
          obtain rfl : b = ascii '#' := by simpa using hhash
          exact (hrest _ (List.takeWhile_sublist _).length_le).comment hs
        · have hbounds := lexeme_bounds (s := b :: s) (by simp)
          cases hlexeme : lexeme (b :: s) with
          | mk kind length =>
            rw [hlexeme] at hbounds
            obtain ⟨hpos, hle⟩ := hbounds
            rw [List.length_cons] at hle
            have hbehind := hrest (length - 1) (by omega)
            rw [show k + 1 + (length - 1) = k + length by omega] at hbehind
            exact hbehind.token hs hpos hle

theorem tokenize_laid (src : Text) : Laid src 0 (Token.tokenize src) :=
  scan_laid src 0 0 rfl (Nat.zero_le _) (Nat.zero_le _)

namespace Laid

theorem length_le (h : Laid src i ts) : i + ts.length ≤ src.length := by
  induction h with
  | nil hle _ => exact hle
  | cons hle _ _ hne _ _ ih =>
    have hpos := List.length_pos_iff.2 hne
    rw [List.length_cons]
    omega

/-- Each token has the position and the text of its place in the source. -/
theorem mem (h : Laid src i ts) {t : Token} (ht : t ∈ ts) : ∃ j, i ≤ j ∧
    j + t.text.length ≤ src.length ∧ t.pos = Pos.counted src j ∧ t.text ≠ [] ∧
      t.text = src.slice j (j + t.text.length) := by
  induction h with
  | nil => simp at ht
  | @cons i j u ts hle _ hpos hne hfront hrest ih =>
    rcases List.mem_cons.1 ht with rfl | ht
    · have hle' := hrest.length_le
      refine ⟨j, hle, by omega, hpos, hne, ?_⟩
      rw [slice, show j + t.text.length - j = t.text.length by omega]
      exact List.prefix_iff_eq_take.1 hfront
    · obtain ⟨j', hle', rest⟩ := ih ht
      exact ⟨j', by omega, rest⟩

/-- No token reaches into the next. -/
theorem pairwise (h : Laid src i ts) : ts.Pairwise fun t u => t.stop.offset ≤ u.pos.offset := by
  induction h with
  | nil => exact .nil
  | @cons i j t ts _ _ hpos _ _ hrest ih =>
    refine .cons (fun u hu => ?_) ih
    obtain ⟨j', hle, -, hpos', -⟩ := hrest.mem hu
    rw [Token.stop, hpos, hpos']
    simp only [Pos.past, Pos.counted]
    omega

end Laid

end Lexer

namespace Token

/-- Where the gaps of a source start and end, from number `i` on, if these are its tokens. -/
def gapsFrom (src : Text) (i : Nat) : List Token → List (Nat × Nat)
  | [] => [(i, src.length)]
  | t :: ts => (i, t.pos.offset.toNat) :: gapsFrom src t.stop.offset.toNat ts

end Token

open Lexer in
theorem Lexer.Laid.gaps {src : Text} {i : Nat} {ts : List Token} (h : Laid src i ts) :
    ∀ g ∈ Token.gapsFrom src i ts, g.1 ≤ g.2 ∧ g.2 ≤ src.length ∧
      Gap (src.drop g.2) (src.slice g.1 g.2) := by
  induction h with
  | nil hle hg =>
    simp only [Token.gapsFrom, List.forall_mem_singleton]
    refine ⟨hle, Nat.le_refl _, ?_⟩
    rw [List.drop_length, Text.slice, List.take_of_length_le (by simp)]
    exact hg
  | @cons i j t ts hle hg hpos _ _ hrest ih =>
    have hlen := hrest.length_le
    have hstart : t.pos.offset.toNat = j := by simp [hpos, Pos.counted]
    have hstop : t.stop.offset.toNat = j + t.text.length := by
      simp only [Token.stop, Pos.past, hpos, Pos.counted]
      omega
    rw [Token.gapsFrom, hstart, hstop, List.forall_mem_cons]
    exact ⟨⟨hle, by omega, hg⟩, ih⟩

/-- The tokens of a source, and the one that stands for its end, lose nothing of it. -/
structure Token.Lossless (src : Text) (ts : List Token) (last : Token) : Prop where
  /-- The end is at the end, after no more tokens than there are bytes. -/
  ends : last.kind = .eof ∧ last.pos.offset = src.length ∧ ts.length ≤ src.length
  /-- Every token is a piece of the source that is not empty. -/
  texts : ∀ t ∈ ts, t.kind ≠ .eof ∧ t.text ≠ [] ∧ ∃ i : Nat, t.pos.offset = i ∧
    t.text = src.slice i (i + t.text.length)
  /-- Tokens do not overlap, and each starts behind the one before. -/
  ordered : ts.Pairwise fun t u => t.stop.offset ≤ u.pos.offset ∧ t.pos.offset < u.pos.offset
  /-- Before, between and behind them are blanks and comments. -/
  gaps : ∀ g ∈ Token.gapsFrom src 0 ts, g.1 ≤ g.2 ∧ g.2 ≤ src.length ∧
    Lexer.Gap (src.drop g.2) (src.slice g.1 g.2)
  /-- Lines count line feeds, and columns the bytes since the last of them. -/
  positions : ∀ t ∈ ts ++ [last], ∃ i ≤ src.length, t.pos = Pos.counted src i
  /-- Positions are in the order of the bytes. -/
  before : ∀ t ∈ ts ++ [last], ∀ u ∈ ts ++ [last],
    t.pos.before u.pos = true ↔ t.pos.offset < u.pos.offset

theorem Token.endOf_pos (src : Text) : (Token.endOf src).pos = Pos.counted src src.length := by
  have h := Pos.counted_add (show src.drop 0 = src ++ [] by simp)
  rw [Nat.zero_add] at h
  exact h.symm

theorem Token.tokenize_lossless (src : Text) :
    Token.Lossless src (Token.tokenize src) (Token.endOf src) := by
  have hlaid := Lexer.tokenize_laid src
  have hpos : ∀ t ∈ Token.tokenize src ++ [Token.endOf src],
      ∃ i ≤ src.length, t.pos = Pos.counted src i := by
    intro t ht
    rcases List.mem_append.1 ht with ht | ht
    · obtain ⟨j, -, hle, hpos, -⟩ := hlaid.mem ht
      exact ⟨j, by omega, hpos⟩
    · obtain rfl := List.mem_singleton.1 ht
      exact ⟨src.length, Nat.le_refl _, Token.endOf_pos src⟩
  refine ⟨⟨rfl, ?_, ?_⟩, ?_, ?_, hlaid.gaps, hpos, ?_⟩
  · rw [Token.endOf_pos]
    rfl
  · have hle := hlaid.length_le
    omega
  · intro t ht
    obtain ⟨j, -, -, hpos, hne, htext⟩ := hlaid.mem ht
    refine ⟨(Token.tokenize_lexed src t ht).kind_ne_eof, hne, j, ?_, htext⟩
    rw [hpos]
    rfl
  · refine hlaid.pairwise.imp_of_mem fun ht hu hle => ⟨hle, ?_⟩
    obtain ⟨j, -, -, -, hne, -⟩ := hlaid.mem ht
    have hlen := List.length_pos_iff.2 hne
    simp only [Token.stop, Pos.past] at hle
    omega
  · intro t ht u hu
    obtain ⟨i, hi, hposT⟩ := hpos t ht
    obtain ⟨j, hj, hposU⟩ := hpos u hu
    rw [hposT, hposU, Pos.before_counted_iff hi hj]
    simp [Pos.counted]

namespace Scanner

open Text

/-- The token that is read after `n` others. -/
def nth (sc : Scanner) : Nat → Token
  | 0 => sc.next.1
  | n + 1 => sc.next.2.nth n

/-- Either no token is left, or the next one is the first of those that are left. -/
theorem nextFrom_cases (skip : Nat) (p : Pos) (s : Text) :
    (Lexer.scan skip p s = [] ∧
      nextFrom skip p s = (⟨.eof, [], p.advance s⟩, ⟨0, p.advance s, []⟩)) ∨
    ∃ t sc, nextFrom skip p s = (t, sc) ∧ sc.pos.advance sc.rest = p.advance s ∧
      Lexer.scan skip p s = t :: Lexer.scan sc.skip sc.pos sc.rest := by
  induction s generalizing skip p with
  | nil =>
    left
    cases skip <;> exact ⟨rfl, rfl⟩
  | cons b s ih =>
    cases skip with
    | succ skip => exact ih skip (p.step b)
    | zero =>
      by_cases hgap : Lexer.isGap b
      · have hscan : Lexer.scan 0 p (b :: s) = Lexer.scan 0 (p.step b) s := by
          simp [Lexer.scan, hgap]
        have hnext : nextFrom 0 p (b :: s) = nextFrom 0 (p.step b) s := by simp [nextFrom, hgap]
        rw [hscan, hnext]
        exact ih 0 (p.step b)
      by_cases hhash : b = ascii '#'
      · subst hhash
        have hscan : Lexer.scan 0 p (ascii '#' :: s) =
            Lexer.scan (s.takeWhile (· != lineFeed)).length (p.step (ascii '#')) s := by
          simp [Lexer.scan, hgap]
        have hnext : nextFrom 0 p (ascii '#' :: s) =
            nextFrom (s.takeWhile (· != lineFeed)).length (p.step (ascii '#')) s := by
          simp [nextFrom, hgap]
        rw [hscan, hnext]
        exact ih _ _
      · cases hlexeme : Lexer.lexeme (b :: s) with
        | mk kind length =>
          refine Or.inr ⟨⟨kind, (b :: s).take length, p⟩, ⟨length - 1, p.step b, s⟩, ?_, rfl, ?_⟩
          · simp [nextFrom, hgap, hhash, hlexeme]
          · simp [Lexer.scan, hgap, hhash, hlexeme]

theorem nth_eq (n : Nat) (sc : Scanner) :
    sc.nth n = ((Lexer.scan sc.skip sc.pos sc.rest)[n]?).getD
      ⟨.eof, [], sc.pos.advance sc.rest⟩ := by
  induction n generalizing sc with
  | zero =>
    rcases nextFrom_cases sc.skip sc.pos sc.rest with ⟨hscan, hnext⟩ | ⟨t, sc', hnext, -, hscan⟩
    · simp [nth, next, hscan, hnext]
    · simp [nth, next, hscan, hnext]
  | succ n ih =>
    rcases nextFrom_cases sc.skip sc.pos sc.rest with ⟨hscan, hnext⟩ | ⟨t, sc', hnext, hend, hscan⟩
    · rw [nth, next, hnext, ih, hscan]
      rfl
    · rw [nth, next, hnext, ih, hscan, List.getElem?_cons_succ, hend]

end Scanner

/-- Whatever bytes a source has, its tokens lose nothing of it. A scanner gives out just these, and
then the end of file forever. -/
theorem tokenization_is_lossless (src : Text) :
    Token.Lossless src (Token.tokenize src) (Token.endOf src) ∧
      ∀ n, (Scanner.start src).nth n = ((Token.tokenize src)[n]?).getD (Token.endOf src) :=
  ⟨Token.tokenize_lossless src, fun n => Scanner.nth_eq n (Scanner.start src)⟩

end ThreeAddress
