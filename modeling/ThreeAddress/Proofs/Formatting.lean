import ThreeAddress.Layout
import ThreeAddress.Proofs.WhiteSpace

/-! Layout changes nothing but white space, and a text that is laid out is left as it is. The depth
of a line depends only on what the lines before it hold apart from white space, so a second pass
finds the same depths. -/
namespace ThreeAddress

namespace Text

variable {s : Text}

section

variable {sep b : UInt8} {piece : Text} {pieces : List Text}

theorem split_sep (sep : UInt8) (s : Text) : split sep (sep :: s) = [] :: split sep s := by
  simp [split]

theorem split_cons (hb : b ≠ sep) (hs : split sep s = piece :: pieces) :
    split sep (b :: s) = (b :: piece) :: pieces := by
  simp [split, hb, hs]

theorem split_ne_nil (sep : UInt8) (s : Text) : split sep s ≠ [] := by
  cases s with
  | nil => simp [split]
  | cons b s =>
    unfold split
    split
    · simp
    · split <;> simp

theorem split_of_not_mem (h : sep ∉ piece) : split sep piece = [piece] := by
  induction piece with
  | nil => rfl
  | cons b piece ih =>
    obtain ⟨hb, hpiece⟩ := not_or.1 (mt List.mem_cons.2 h)
    exact split_cons (Ne.symm hb) (ih hpiece)

theorem split_append (h : sep ∉ piece) (rest : Text) :
    split sep (piece ++ sep :: rest) = piece :: split sep rest := by
  induction piece with
  | nil => exact split_sep sep rest
  | cons b piece ih =>
    obtain ⟨hb, hpiece⟩ := not_or.1 (mt List.mem_cons.2 h)
    exact split_cons (Ne.symm hb) (ih hpiece)

theorem not_mem_of_mem_split (sep : UInt8) (s : Text) : ∀ piece ∈ split sep s, sep ∉ piece := by
  induction s with
  | nil => simp [split]
  | cons b s ih =>
    by_cases hb : b = sep
    · rw [hb, split_sep]
      exact List.forall_mem_cons.2 ⟨List.not_mem_nil, ih⟩
    · obtain ⟨piece, pieces, hs⟩ := List.exists_cons_of_ne_nil (split_ne_nil sep s)
      rw [hs] at ih
      obtain ⟨hpiece, hpieces⟩ := List.forall_mem_cons.1 ih
      rw [split_cons hb hs]
      refine List.forall_mem_cons.2 ⟨?_, hpieces⟩
      intro hmem
      rcases List.mem_cons.1 hmem with h | h
      · exact hb h.symm
      · exact hpiece h

theorem split_first (h : split sep s = piece :: pieces) :
    s = piece ∨ ∃ rest, s = piece ++ sep :: rest := by
  induction s generalizing piece pieces with
  | nil =>
    obtain ⟨rfl, -⟩ := List.cons.inj h
    exact Or.inl rfl
  | cons b s ih =>
    by_cases hb : b = sep
    · rw [hb, split_sep] at h
      obtain ⟨rfl, -⟩ := List.cons.inj h
      exact Or.inr ⟨s, by rw [hb]; rfl⟩
    · obtain ⟨first, others, hs⟩ := List.exists_cons_of_ne_nil (split_ne_nil sep s)
      rw [split_cons hb hs] at h
      obtain ⟨rfl, -⟩ := List.cons.inj h
      rcases ih hs with rfl | ⟨rest, rfl⟩
      · exact Or.inl rfl
      · exact Or.inr ⟨rest, rfl⟩

end

theorem lines_join {ls : List Text} (hne : ls ≠ []) (hls : ∀ l ∈ ls, lineFeed ∉ l) :
    (join [lineFeed] ls).lines = ls := by
  induction ls with
  | nil => exact absurd rfl hne
  | cons l ls ih =>
    obtain ⟨hl, hls⟩ := List.forall_mem_cons.1 hls
    cases ls with
    | nil => exact split_of_not_mem hl
    | cons l' ls =>
      have hjoin : join [lineFeed] (l :: l' :: ls) =
          l ++ lineFeed :: join [lineFeed] (l' :: ls) := by simp [join]
      rw [hjoin, lines, split_append hl, ← lines, ih (List.cons_ne_nil _ _) hls]

theorem IsBlank.ne_nil {w : Text} (h : IsBlank w) : w ≠ [] := by
  obtain ⟨code, hw, -⟩ := h
  obtain ⟨b, bs, rfl, -, -⟩ := hw.head_tail
  exact List.cons_ne_nil b bs

theorem Blanks.append {t : Text} (hs : Blanks s) (ht : Blanks t) : Blanks (s ++ t) := by
  induction hs with
  | nil => exact ht
  | cons hw _ ih =>
    rw [List.append_assoc]
    exact .cons hw ih

theorem trim_eq_nil_iff : s.trim = [] ↔ Blanks s := by
  constructor
  · intro h
    obtain ⟨before, after, hs, hbefore, hafter⟩ := (trim_trimmed s).around
    rw [h, List.append_nil] at hs
    rw [hs]
    exact hbefore.append hafter
  · intro h
    apply Trimmed.eq_trim
    refine ⟨⟨s, [], by simp, h, .nil⟩, ?_, ?_⟩
    · intro w hw hfront
      exact hw.ne_nil (List.prefix_nil.1 hfront)
    · intro w hw hback
      exact hw.ne_nil (List.suffix_nil.1 hback)

theorem not_mem_trim {b : UInt8} (h : b ∉ s) : b ∉ s.trim := by
  obtain ⟨before, after, hs, -, -⟩ := (trim_trimmed s).around
  rw [hs] at h
  simp only [List.mem_append, not_or] at h
  exact h.1.2

end Text

namespace Layout

open Text

variable {depth : Nat} {blank : Bool} {line : Text} {rest ls : List Text}

/-- The white space of one level, and so of any number of levels. -/
theorem blanks_indentation (depth : Nat) : Blanks (indentation depth) := by
  have hspace : IsBlank [ascii ' '] := ⟨0x20, .one (b := ascii ' ') (by decide), by decide⟩
  have hunit : Blanks indentUnit := .cons hspace (.cons hspace (.cons hspace (.cons hspace .nil)))
  induction depth with
  | zero => exact .nil
  | succ depth ih => exact hunit.append ih

/-- What becomes of a line that holds `content` apart from white space. -/
def indented (depth : Nat) (content : Text) : Text :=
  indentation (if isOutdented content then depth - 1 else depth) ++ content

theorem indent_blank (h : line.trim = []) : indent depth blank (line :: rest) =
    if blank then indent depth true rest else [] :: indent depth true rest := by
  simp [indent, h]

theorem indent_content (h : line.trim ≠ []) : indent depth blank (line :: rest) =
    indented depth line.trim :: indent (depthAfter depth line.trim) false rest := by
  simp [indent, h, indented]

theorem trim_indented (depth : Nat) (line : Text) :
    (indented depth line.trim).trim = line.trim := by
  apply Trimmed.eq_trim
  obtain ⟨-, hfirst, hlast⟩ := trim_trimmed line
  exact ⟨⟨_, [], (List.append_nil _).symm, blanks_indentation _, .nil⟩, hfirst, hlast⟩

/-- A second pass over lines changes nothing. -/
theorem indent_indent (depth : Nat) (blank : Bool) (ls : List Text) :
    indent depth blank (indent depth blank ls) = indent depth blank ls := by
  induction ls generalizing depth blank with
  | nil => rfl
  | cons line rest ih =>
    by_cases h : line.trim = []
    · rw [indent_blank h]
      cases blank with
      | true => exact ih depth true
      | false =>
        have hnil : trim [] = [] := rfl
        simp only [Bool.false_eq_true, if_false]
        rw [indent_blank hnil, ih]
        rfl
    · have h' : (indented depth line.trim).trim ≠ [] := by rwa [trim_indented]
      rw [indent_content h, indent_content h', trim_indented, ih]

/-- What the lines hold apart from white space, without the blank ones. -/
def contents (ls : List Text) : List Text := (ls.map trim).filter fun line => !line.isEmpty

theorem contents_indent (depth : Nat) (blank : Bool) (ls : List Text) :
    contents (indent depth blank ls) = contents ls := by
  induction ls generalizing depth blank with
  | nil => rfl
  | cons line rest ih =>
    by_cases h : line.trim = []
    · have hline : contents (line :: rest) = contents rest := by simp [contents, h]
      rw [indent_blank h, hline]
      cases blank with
      | true => exact ih depth true
      | false => exact ih depth true
    · have hcons : ∀ l ls, trim l ≠ [] → contents (l :: ls) = l.trim :: contents ls := by
        intro l ls hl
        simp [contents, hl]
      have h' : (indented depth line.trim).trim ≠ [] := by rwa [trim_indented]
      rw [indent_content h, hcons _ _ h', hcons _ _ h, trim_indented, ih]

/-- No two blank lines are adjacent, and none comes first behind one. -/
theorem isChain_indent (depth : Nat) (blank : Bool) (ls : List Text) :
    (indent depth blank ls).IsChain (fun l l' => ¬ (Blanks l ∧ Blanks l')) ∧
      (blank → ∀ l ∈ (indent depth blank ls).head?, ¬ Blanks l) := by
  have hcons : ∀ {l : Text} {ls : List Text},
      ls.IsChain (fun l l' => ¬ (Blanks l ∧ Blanks l')) →
      (∀ l' ∈ ls.head?, ¬ (Blanks l ∧ Blanks l')) →
      (l :: ls).IsChain fun l l' => ¬ (Blanks l ∧ Blanks l') := by
    intro l ls hls hl
    cases ls with
    | nil => exact .singleton l
    | cons l' ls => exact .cons_cons (hl l' rfl) hls
  induction ls generalizing depth blank with
  | nil => exact ⟨.nil, by simp [indent]⟩
  | cons line rest ih =>
    by_cases h : line.trim = []
    · obtain ⟨hchain, hhead⟩ := ih depth true
      rw [indent_blank h]
      cases blank with
      | true => exact ⟨hchain, hhead⟩
      | false => exact ⟨hcons hchain fun l' hl' hb => hhead rfl l' hl' hb.2, by simp⟩
    · obtain ⟨hchain, -⟩ := ih (depthAfter depth line.trim) false
      have hcontent : ¬ Blanks (indented depth line.trim) := by
        rwa [← trim_eq_nil_iff, trim_indented]
      rw [indent_content h]
      refine ⟨hcons hchain fun l' _ hb => hcontent hb.1, ?_⟩
      rintro - l ⟨rfl⟩
      exact hcontent

/-- Every line is empty, or ends with what it holds. -/
theorem mem_indent {l : Text} (h : l ∈ indent depth blank ls) :
    l = [] ∨ ∃ depth, ∃ x ∈ ls, x.trim ≠ [] ∧ l = indented depth x.trim := by
  induction ls generalizing depth blank with
  | nil => simp [indent] at h
  | cons line rest ih =>
    have hrest : ∀ {depth blank}, l ∈ indent depth blank rest →
        l = [] ∨ ∃ depth, ∃ x ∈ line :: rest, x.trim ≠ [] ∧ l = indented depth x.trim := by
      intro depth blank hl
      rcases ih hl with hnil | ⟨depth, x, hx, hcontent⟩
      · exact Or.inl hnil
      · exact Or.inr ⟨depth, x, List.mem_cons_of_mem _ hx, hcontent⟩
    by_cases hline : line.trim = []
    · rw [indent_blank hline] at h
      cases blank with
      | true => exact hrest h
      | false =>
        rcases List.mem_cons.1 h with hnil | h
        · exact Or.inl hnil
        · exact hrest h
    · rw [indent_content hline] at h
      rcases List.mem_cons.1 h with rfl | h
      · exact Or.inr ⟨depth, line, List.mem_cons_self, hline, rfl⟩
      · exact hrest h

theorem not_suffix_of_mem_indent {l : Text} (h : l ∈ indent depth blank ls) :
    ∀ w, IsBlank w → ¬ w <:+ l := by
  rcases mem_indent h with rfl | ⟨depth, line, -, hcontent, rfl⟩
  · intro w hw hback
    exact hw.ne_nil (List.suffix_nil.1 hback)
  · exact not_suffix_append (blanks_indentation _) hcontent (trim_trimmed line).last

theorem lineFeed_not_mem_indent (hls : ∀ l ∈ ls, lineFeed ∉ l) :
    ∀ l ∈ indent depth blank ls, lineFeed ∉ l := by
  intro l hl
  rcases mem_indent hl with rfl | ⟨depth, line, hline, -, rfl⟩
  · exact List.not_mem_nil
  · have hunit : lineFeed ∉ indentUnit := by decide
    simp only [indented, indentation, List.mem_append, List.mem_flatten, List.mem_replicate]
    rintro (⟨unit, ⟨-, rfl⟩, hmem⟩ | hmem)
    · exact hunit hmem
    · exact not_mem_trim (hls line hline) hmem

/-- The first line is kept, so that something is left. -/
theorem indent_ne_nil (hne : ls ≠ []) : indent depth false ls ≠ [] := by
  cases ls with
  | nil => exact absurd rfl hne
  | cons line rest =>
    by_cases h : line.trim = []
    · simp [indent_blank h]
    · simp [indent_content h]

theorem lines_format (s : Text) : (format s).lines = indent 0 false s.lines :=
  lines_join (indent_ne_nil (split_ne_nil lineFeed s))
    (lineFeed_not_mem_indent (not_mem_of_mem_split lineFeed s))

/-- Whatever bytes a text has, layout is done after one pass and keeps what the lines hold apart
from white space, in order. Of adjacent blank lines one is left, and no line ends with white
space. -/
theorem format_changes_only_white_space (s : Text) :
    format (format s) = format s ∧ contents (format s).lines = contents s.lines ∧
      (format s).lines.IsChain (fun l l' => ¬ (Blanks l ∧ Blanks l')) ∧
      ∀ l ∈ (format s).lines, ∀ w, IsBlank w → ¬ w <:+ l := by
  refine ⟨?_, ?_, ?_, ?_⟩
  · rw [format, lines_format, indent_indent, ← format]
  · rw [lines_format, contents_indent]
  · rw [lines_format]
    exact (isChain_indent 0 false s.lines).1
  · rw [lines_format]
    exact fun l hl => not_suffix_of_mem_indent hl

end Layout

end ThreeAddress
