import Mathlib.Data.List.DropRight
import ThreeAddress.Proofs.CodePoints
import ThreeAddress.Text.Blank

/-! White space around a text. Trimming takes off whole white space characters at both ends and
nothing else, whatever bytes the text has: the encoding of a character never starts inside that of
another, so it is found from either end. -/
namespace ThreeAddress.Text

variable {s t rest w : Text} {code : Nat}

/-- Only the first byte of a sequence does not continue one. -/
theorem Encodes.head_tail (h : Encodes w code) :
    ∃ b bs, w = b :: bs ∧ ¬ Trails b ∧ ∀ c ∈ bs, Trails c := by
  cases h with
  | @one b hb => exact ⟨b, [], rfl, by unfold Trails; omega, by simp⟩
  | @two b c hb _ hc => exact ⟨b, [c], rfl, by unfold Trails; omega, by simpa using hc⟩
  | @three b c d hb _ hc hd =>
    exact ⟨b, [c, d], rfl, by unfold Trails; omega, by simpa using ⟨hc, hd⟩⟩
  | @four b c d e hb _ hc hd he =>
    exact ⟨b, [c, d, e], rfl, by unfold Trails; omega, by simpa using ⟨hc, hd, he⟩⟩

theorem runes_encoded (h : Encodes w code) (rest : Text) :
    runes (w ++ rest) = .point code w :: runes rest := by
  have hdecode := decode_of_encodes h rest
  obtain ⟨b, bs, rfl, -, -⟩ := h.head_tail
  rw [List.cons_append] at hdecode ⊢
  rw [runes_of_decode hdecode]
  simp

/-- A text is empty, or a code point or a stray byte stands in front of a text. -/
theorem units_induction {motive : Text → Prop} (nil : motive [])
    (point : ∀ w code rest, Encodes w code → motive rest → motive (w ++ rest))
    (stray : ∀ b rest, decode (b :: rest) = none → motive rest → motive (b :: rest))
    (s : Text) : motive s := by
  -- a unit has at least one byte, so what comes behind it is shorter
  induction hn : s.length using Nat.strongRecOn generalizing s with
  | ind n ih =>
    cases s with
    | nil => exact nil
    | cons b rest =>
      cases hdecode : decode (b :: rest) with
      | none =>
        apply stray b rest hdecode
        exact ih rest.length (by simp_all; omega) rest rfl
      | some found =>
        obtain ⟨w, tail, hsplit, -, hw⟩ := encodes_of_decode hdecode
        obtain ⟨c, bs, rfl, -, -⟩ := hw.head_tail
        rw [hsplit] at hn ⊢
        apply point _ _ _ hw
        apply ih tail.length _ tail rfl
        simp at hn
        omega

theorem flatMap_runes (s : Text) : (runes s).flatMap Rune.bytes = s := by
  induction s using units_induction with
  | nil => rfl
  | point w code rest hw ih => rw [runes_encoded hw, List.flatMap_cons, ih]; rfl
  | stray b rest hstray ih => rw [runes_of_stray hstray, List.flatMap_cons, ih]; rfl

/-- The text cannot continue a sequence of bytes that is not complete. -/
def Starts (rest : Text) : Prop := ∀ b ∈ rest.head?, ¬ Trails b

theorem Encodes.starts (h : Encodes w code) (rest : Text) : Starts (w ++ rest) := by
  obtain ⟨b, bs, rfl, hb, -⟩ := h.head_tail
  simpa [Starts] using hb

/-- A stray byte is one still when a text that cannot continue it comes behind. -/
theorem decode_stray {b : UInt8} (h : decode (b :: s) = none) (hrest : Starts rest) :
    decode (b :: (s ++ rest)) = none := by
  cases hdecode : decode (b :: (s ++ rest)) with
  | none => rfl
  | some found =>
    obtain ⟨w, tail, hsplit, -, hw⟩ := encodes_of_decode hdecode
    rw [← List.cons_append] at hsplit
    rcases List.append_eq_append_iff.1 hsplit with ⟨r, rfl, hr⟩ | ⟨r, hr, -⟩
    · -- the sequence would reach into `rest`
      cases r with
      | nil =>
        have hfound := decode_of_encodes hw []
        simp [h] at hfound
      | cons c r =>
        obtain ⟨a, bs, hcons, -, htrails⟩ := hw.head_tail
        obtain ⟨-, rfl⟩ := List.cons.inj hcons
        have hc : ¬ Trails c := by
          apply hrest
          rw [hr]
          rfl
        exact absurd (htrails c (by simp)) hc
    · have hfound := decode_of_encodes hw r
      rw [← hr, h] at hfound
      cases hfound

theorem runes_append (hrest : Starts rest) (s : Text) :
    runes (s ++ rest) = runes s ++ runes rest := by
  induction s using units_induction with
  | nil => rfl
  | point w code s hw ih => rw [List.append_assoc, runes_encoded hw, runes_encoded hw, ih]; rfl
  | stray b s hstray ih =>
    rw [List.cons_append, runes_of_stray (decode_stray hstray hrest), runes_of_stray hstray, ih]
    rfl

/-- A text starts with a character if this is its first unit. -/
theorem prefix_iff_head? (hw : Encodes w code) :
    w <+: s ↔ .point code w ∈ (runes s).head? := by
  constructor
  · rintro ⟨rest, rfl⟩
    rw [runes_encoded hw]
    rfl
  · intro h
    obtain ⟨us, hus⟩ := List.head?_eq_some_iff.1 (Option.mem_def.1 h)
    exact ⟨us.flatMap Rune.bytes, by rw [← flatMap_runes s, hus]; rfl⟩

/-- It ends with a character if this is its last unit. -/
theorem suffix_iff_getLast? (hw : Encodes w code) :
    w <:+ s ↔ .point code w ∈ (runes s).getLast? := by
  constructor
  · rintro ⟨rest, rfl⟩
    have hstarts : Starts w := by simpa using hw.starts []
    have hunits : runes w = [.point code w] := by simpa using runes_encoded hw []
    rw [runes_append hstarts, hunits]
    simp
  · intro h
    obtain ⟨us, hus⟩ := List.getLast?_eq_some_iff.1 (Option.mem_def.1 h)
    exact ⟨us.flatMap Rune.bytes, by rw [← flatMap_runes s, hus]; simp [Rune.bytes]⟩

/-- The bytes of one white space character. -/
def IsBlank (w : Text) : Prop := ∃ code, Encodes w code ∧ isBlankPoint code

/-- Nothing but white space characters. -/
inductive Blanks : Text → Prop
  | nil : Blanks []
  | cons {w s : Text} : IsBlank w → Blanks s → Blanks (w ++ s)

theorem Blanks.starts (h : Blanks s) : Starts s := by
  cases h with
  | nil => simp [Starts]
  | cons hw _ =>
    obtain ⟨code, hw, -⟩ := hw
    exact hw.starts _

theorem isBlank_runes (h : Blanks s) : ∀ r ∈ runes s, r.isBlank := by
  induction h with
  | nil => simp
  | cons hw _ ih =>
    obtain ⟨code, hw, hblank⟩ := hw
    rw [runes_encoded hw]
    exact List.forall_mem_cons.2 ⟨hblank, ih⟩

/-- A unit that is white space is a white space character. -/
theorem isBlank_bytes {r : Rune} (hr : r ∈ runes s) (hblank : r.isBlank) :
    ∃ code, r = .point code r.bytes ∧ Encodes r.bytes code ∧ isBlankPoint code := by
  induction s using units_induction with
  | nil => simp at hr
  | point w code rest hw ih =>
    rw [runes_encoded hw] at hr
    rcases List.mem_cons.1 hr with rfl | hr
    · exact ⟨code, rfl, hw, hblank⟩
    · exact ih hr
  | stray b rest hstray ih =>
    rw [runes_of_stray hstray] at hr
    rcases List.mem_cons.1 hr with rfl | hr
    · cases hblank
    · exact ih hr

/-- White space units of a text are the units of their bytes. -/
theorem blanks_flatMap {us : List Rune} (hus : ∀ r ∈ us, r ∈ runes s ∧ r.isBlank) :
    Blanks (us.flatMap Rune.bytes) ∧ runes (us.flatMap Rune.bytes) = us := by
  induction us with
  | nil => exact ⟨.nil, rfl⟩
  | cons r us ih =>
    obtain ⟨⟨hr, hblank⟩, hus⟩ := List.forall_mem_cons.1 hus
    obtain ⟨code, hpoint, hbytes, hcode⟩ := isBlank_bytes hr hblank
    obtain ⟨hblanks, hrunes⟩ := ih hus
    refine ⟨.cons ⟨code, hbytes, hcode⟩ hblanks, ?_⟩
    rw [List.flatMap_cons, runes_encoded hbytes, hrunes, ← hpoint]

section

variable {α : Type} {p : α → Bool} {l a m b : List α}

/-- What is left of a list when both ends are cleared of what satisfies `p`. -/
theorem cleared_of_split (hl : l = a ++ m ++ b) (ha : ∀ x ∈ a, p x) (hb : ∀ x ∈ b, p x)
    (hfirst : ∀ x ∈ m.head?, ¬ p x) (hlast : ∀ x ∈ m.getLast?, ¬ p x) :
    (l.dropWhile p).rdropWhile p = m := by
  subst hl
  have hback : ∀ x ∈ b.reverse, p x := by simpa using hb
  rw [List.append_assoc, List.dropWhile_append_of_pos ha]
  cases m with
  | nil =>
    have hnil : b.dropWhile p = [] := List.dropWhile_eq_nil_iff.2 hb
    simp [hnil]
  | cons x m =>
    have hx : ¬ p x := hfirst x rfl
    rw [List.cons_append, List.dropWhile_cons_of_neg hx, ← List.cons_append, List.rdropWhile,
      List.reverse_append, List.dropWhile_append_of_pos hback]
    refine List.rdropWhile_eq_self_iff.2 fun hne => ?_
    exact hlast _ (List.getLast?_eq_some_getLast hne)

theorem cleared_split : ∃ a b, l = a ++ (l.dropWhile p).rdropWhile p ++ b ∧
    (∀ x ∈ a, p x) ∧ (∀ x ∈ b, p x) ∧ (∀ x ∈ ((l.dropWhile p).rdropWhile p).head?, ¬ p x) ∧
      ∀ x ∈ ((l.dropWhile p).rdropWhile p).getLast?, ¬ p x := by
  refine ⟨l.takeWhile p, (l.dropWhile p).rtakeWhile p, ?_, ?_, ?_, ?_, ?_⟩
  · rw [List.append_assoc, List.rdropWhile_append_rtakeWhile, List.takeWhile_append_dropWhile]
  · intro x hx
    exact List.mem_takeWhile_imp hx
  · intro x hx
    exact List.mem_rtakeWhile_imp hx
  · intro x hx
    -- the first that is left is the first of those where the dropping stopped
    have hhead := List.head?_dropWhile_not p l
    obtain ⟨tail, htail⟩ := List.rdropWhile_prefix p (l.dropWhile p)
    rw [← htail, List.head?_append, Option.mem_def.1 hx] at hhead
    simpa using hhead
  · intro x hx
    obtain ⟨hne, rfl⟩ := List.mem_getLast?_eq_getLast hx
    exact List.rdropWhile_last_not p _ hne

end

theorem trim_eq (s : Text) :
    s.trim = (((runes s).dropWhile Rune.isBlank).rdropWhile Rune.isBlank).flatMap Rune.bytes :=
  rfl

/-- `t` is `s` without the white space at both ends. -/
structure Trimmed (s t : Text) : Prop where
  around : ∃ before after, s = before ++ t ++ after ∧ Blanks before ∧ Blanks after
  first : ∀ w, IsBlank w → ¬ w <+: t
  last : ∀ w, IsBlank w → ¬ w <:+ t

/-- White space around a text does not change the units of the text. -/
theorem runes_around {before after : Text} (hbefore : Blanks before) (hafter : Blanks after)
    (t : Text) : runes (before ++ t ++ after) = runes before ++ runes t ++ runes after := by
  rw [runes_append hafter.starts]
  congr 1
  induction hbefore with
  | nil => rfl
  | cons hw _ ih =>
    obtain ⟨code, hw, -⟩ := hw
    rw [List.append_assoc, runes_encoded hw, runes_encoded hw, ih]
    rfl

theorem trim_trimmed (s : Text) : Trimmed s s.trim := by
  obtain ⟨front, back, hsplit, hfront, hback, hhead, hlast⟩ :=
    cleared_split (l := runes s) (p := Rune.isBlank)
  have htrim := trim_eq s
  generalize ((runes s).dropWhile Rune.isBlank).rdropWhile Rune.isBlank = middle
    at hsplit hhead hlast htrim
  have hmem : ∀ r, r ∈ front ∨ r ∈ back → r ∈ runes s := by
    intro r hr
    rw [hsplit]
    rcases hr with hr | hr <;> simp [hr]
  obtain ⟨hbefore, hrunesBefore⟩ :=
    blanks_flatMap fun r hr => ⟨hmem r (Or.inl hr), hfront r hr⟩
  obtain ⟨hafter, hrunesAfter⟩ :=
    blanks_flatMap fun r hr => ⟨hmem r (Or.inr hr), hback r hr⟩
  have hs : s = front.flatMap Rune.bytes ++ s.trim ++ back.flatMap Rune.bytes := by
    rw [htrim, ← List.flatMap_append, ← List.flatMap_append, ← hsplit, flatMap_runes]
  have hmiddle : runes s.trim = middle := by
    have haround := runes_around hbefore hafter s.trim
    rw [← hs, hrunesBefore, hrunesAfter, hsplit] at haround
    exact (List.append_cancel_left (List.append_cancel_right haround)).symm
  refine ⟨⟨_, _, hs, hbefore, hafter⟩, ?_, ?_⟩
  · rintro w ⟨code, hw, hblank⟩ hfront
    rw [prefix_iff_head? hw, hmiddle] at hfront
    exact hhead _ hfront hblank
  · rintro w ⟨code, hw, hblank⟩ hback
    rw [suffix_iff_getLast? hw, hmiddle] at hback
    exact hlast _ hback hblank

theorem Trimmed.eq_trim (h : Trimmed s t) : s.trim = t := by
  obtain ⟨⟨before, after, rfl, hbefore, hafter⟩, hfirst, hlast⟩ := h
  rw [trim_eq, cleared_of_split (runes_around hbefore hafter t) (isBlank_runes hbefore)
    (isBlank_runes hafter) ?_ ?_, flatMap_runes]
  · intro r hr hblank
    obtain ⟨code, hpoint, hbytes, hcode⟩ := isBlank_bytes (List.mem_of_mem_head? hr) hblank
    apply hfirst r.bytes ⟨code, hbytes, hcode⟩
    rwa [prefix_iff_head? hbytes, ← hpoint]
  · intro r hr hblank
    obtain ⟨code, hpoint, hbytes, hcode⟩ := isBlank_bytes (List.mem_of_mem_getLast? hr) hblank
    apply hlast r.bytes ⟨code, hbytes, hcode⟩
    rwa [suffix_iff_getLast? hbytes, ← hpoint]

/-- White space in front of a text that is not empty leaves its end as it is. -/
theorem not_suffix_append {before : Text} (hbefore : Blanks before) (ht : t ≠ [])
    (hlast : ∀ w, IsBlank w → ¬ w <:+ t) : ∀ w, IsBlank w → ¬ w <:+ before ++ t := by
  rintro w ⟨code, hw, hblank⟩ hback
  have hunits := runes_around hbefore .nil t
  have hne : runes t ≠ [] := by
    intro hnil
    apply ht
    rw [← flatMap_runes t, hnil]
    rfl
  apply hlast w ⟨code, hw, hblank⟩
  rw [suffix_iff_getLast? hw] at hback ⊢
  simp only [List.append_nil, runes_nil] at hunits
  rwa [hunits, List.getLast?_append_of_ne_nil _ hne] at hback

end ThreeAddress.Text
