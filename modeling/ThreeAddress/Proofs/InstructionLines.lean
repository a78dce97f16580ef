import ThreeAddress.Proofs.Formatting
import ThreeAddress.Proofs.MaximalMunch
import ThreeAddress.Proofs.Safety

/-! The laid out C program: what stands inside `main` is indented by one level, labels are not, and
nothing else differs from the program as it was generated. Layout sees nothing but bytes, so the
texts of instructions are followed to where their parts come from: lexemes of the source, generated
names and settings that were accepted. -/
namespace ThreeAddress

namespace Text

variable {s t line : Text}

/-- A printable byte that is neither a space nor a brace. -/
def isSolid (b : UInt8) : Bool :=
  0x20 < b && b < 0x7F && b != ascii '\x7b' && b != ascii '\x7d'

/-- Printable bytes other than braces. -/
def Flat (s : Text) : Prop := ∀ b ∈ s, isSolid b ∨ b = ascii ' '

instance : Decidable (Flat s) := List.decidableBAll _ s

theorem flat_append : Flat (s ++ t) ↔ Flat s ∧ Flat t := List.forall_mem_append

theorem flat_of_isSolid (h : ∀ b ∈ s, isSolid b) : Flat s := fun b hb => Or.inl (h b hb)

theorem isSolid_of_isWordByte {b : UInt8} (h : isWordByte b) : isSolid b := by
  simp only [isWordByte, isLetter, isDigit, isSolid, Bool.or_eq_true, Bool.and_eq_true,
    decide_eq_true_eq, beq_iff_eq, bne_iff_ne, ne_eq, ← UInt8.toNat_inj, UInt8.le_iff_toNat_le,
    UInt8.lt_iff_toNat_lt] at h ⊢
  simp [ascii, Char.toUInt8] at h ⊢
  omega

theorem isSolid_of_isDigit {b : UInt8} (h : isDigit b) : isSolid b :=
  isSolid_of_isWordByte (by simp [isWordByte, h])

theorem isSolid_of_isIdentifier (h : s.isIdentifier) : ∀ b ∈ s, isSolid b := by
  obtain ⟨hletter, hword⟩ := Lexer.isIdentifier_iff.1 h
  refine List.forall_mem_cons.2 ⟨isSolid_of_isWordByte (by simp [isWordByte, hletter]), ?_⟩
  intro c hc
  exact isSolid_of_isWordByte (hword c hc)

theorem flat_of_isIdentifier (h : s.isIdentifier) : Flat s :=
  flat_of_isSolid (isSolid_of_isIdentifier h)

theorem isIdentifier_append_ofNat (h : s.isIdentifier) (n : Nat) :
    (s ++ ofNat n).isIdentifier := by
  have hdigits : ∀ b ∈ ofNat n, isWordByte b := by
    intro b hb
    simp [isWordByte, isDigit_of_mem_ofNat hb]
  obtain ⟨hletter, hword⟩ := Lexer.isIdentifier_iff.1 h
  rw [Lexer.isIdentifier_iff, List.cons_append]
  exact .mk hletter (List.forall_mem_append.2 ⟨hword, hdigits⟩)

theorem flat_of_number (h : Lexer.Number s) : Flat s := by
  intro b hb
  rcases h.bytes b hb with hdigit | hmark
  · exact Or.inl (isSolid_of_isDigit hdigit)
  · have hmarks : (ofString ".eE+-").all isSolid = true := by decide
    exact Or.inl (List.all_eq_true.1 hmarks b (by simpa [Lexer.isNumberMark] using hmark))

/-- A line that starts and ends with something to see, and has no brace. -/
structure Tidy (line : Text) : Prop where
  flat : Flat line
  first : ∃ b ∈ line.head?, isSolid b
  last : ∃ b ∈ line.getLast?, isSolid b

/-- White space has no byte that is to be seen. -/
theorem IsBlank.isSolid_eq_false {w : Text} (h : IsBlank w) : ∀ b ∈ w, isSolid b = false := by
  obtain ⟨code, hw, hblank⟩ := h
  have htrails : ∀ {b : UInt8}, 0x80 ≤ b.toNat → isSolid b = false := by
    intro b hb
    simp only [isSolid, UInt8.lt_iff_toNat_lt, Bool.and_eq_false_iff, decide_eq_false_iff_not]
    simp
    omega
  cases hw with
  | @one b hb =>
    have hle : ¬ 0x20 < b.toNat := by
      simp only [isBlankPoint, Bool.or_eq_true, Bool.and_eq_true, decide_eq_true_eq,
        beq_iff_eq] at hblank
      omega
    simp [isSolid, UInt8.lt_iff_toNat_lt, hle]
  | two hb _ hc =>
    simp only [List.forall_mem_cons]
    exact ⟨htrails (by omega), htrails hc.1, by simp⟩
  | three hb _ hc hd =>
    simp only [List.forall_mem_cons]
    exact ⟨htrails (by omega), htrails hc.1, htrails hd.1, by simp⟩
  | four hb _ hc hd he =>
    simp only [List.forall_mem_cons]
    exact ⟨htrails (by omega), htrails hc.1, htrails hd.1, htrails he.1, by simp⟩

theorem Tidy.trim_eq (h : Tidy line) : line.trim = line := by
  apply Trimmed.eq_trim
  refine ⟨⟨[], [], by simp, .nil, .nil⟩, ?_, ?_⟩
  · rintro w hw ⟨rest, rfl⟩
    obtain ⟨b, hmem, hb⟩ := h.first
    rw [List.head?_append_of_ne_nil _ hw.ne_nil] at hmem
    have hsolid := hw.isSolid_eq_false b (List.mem_of_mem_head? hmem)
    simp [hb] at hsolid
  · rintro w hw ⟨rest, rfl⟩
    obtain ⟨b, hmem, hb⟩ := h.last
    rw [List.getLast?_append_of_ne_nil _ hw.ne_nil] at hmem
    have hsolid := hw.isSolid_eq_false b (List.mem_of_mem_getLast? hmem)
    simp [hb] at hsolid

theorem Flat.not_mem (h : Flat s) {b : UInt8} (hb : isSolid b = false) (hspace : b ≠ ascii ' ') :
    b ∉ s := by
  intro hmem
  rcases h b hmem with h | h
  · rw [hb] at h
    cases h
  · exact hspace h

/-- The lines of a text in which each ends with a line feed. -/
def unlines (ls : List Text) : Text := ls.flatMap (· ++ [lineFeed])

theorem unlines_append (ls ls' : List Text) : unlines (ls ++ ls') = unlines ls ++ unlines ls' :=
  List.flatMap_append

theorem lines_unlines {ls : List Text} (hls : ∀ l ∈ ls, lineFeed ∉ l) :
    (unlines ls).lines = ls ++ [[]] := by
  induction ls with
  | nil => rfl
  | cons l ls ih =>
    obtain ⟨hl, hls⟩ := List.forall_mem_cons.1 hls
    have hcons : unlines (l :: ls) = l ++ lineFeed :: unlines ls := by simp [unlines]
    rw [hcons, lines, split_append hl, ← lines, ih hls]
    rfl

theorem join_concat_nil (ls : List Text) : join [lineFeed] (ls ++ [[]]) = unlines ls := by
  induction ls with
  | nil => rfl
  | cons l ls ih =>
    obtain ⟨l', ls', hne⟩ := List.exists_cons_of_ne_nil (l := ls ++ [[]]) (by simp)
    have hjoin : join [lineFeed] (l :: (ls ++ [[]])) =
        l ++ [lineFeed] ++ join [lineFeed] (ls ++ [[]]) := by rw [hne]; rfl
    rw [List.cons_append, hjoin, ih]
    rfl

theorem mem_split {sep b : UInt8} (h : b ∈ s) : b = sep ∨ ∃ piece ∈ split sep s, b ∈ piece := by
  induction s with
  | nil => simp at h
  | cons c s ih =>
    by_cases hc : c = sep
    · rw [hc, split_sep]
      rcases List.mem_cons.1 h with rfl | h
      · exact Or.inl hc
      · rcases ih h with hsep | ⟨piece, hpiece, hb⟩
        · exact Or.inl hsep
        · exact Or.inr ⟨piece, List.mem_cons_of_mem _ hpiece, hb⟩
    · obtain ⟨first, pieces, hs⟩ := List.exists_cons_of_ne_nil (split_ne_nil sep s)
      rw [split_cons hc hs]
      rw [hs] at ih
      rcases List.mem_cons.1 h with rfl | h
      · exact Or.inr ⟨_, List.mem_cons_self, List.mem_cons_self⟩
      · rcases ih h with hsep | ⟨piece, hpiece, hb⟩
        · exact Or.inl hsep
        · rcases List.mem_cons.1 hpiece with rfl | hpiece
          · exact Or.inr ⟨_, List.mem_cons_self, List.mem_cons_of_mem _ hb⟩
          · exact Or.inr ⟨piece, List.mem_cons_of_mem _ hpiece, hb⟩

theorem flat_of_isTypeName (h : Settings.isTypeName s) : Flat s := by
  have hwords := List.all_eq_true.1 h
  intro b hb
  have hcases : b = ascii ' ' ∨ ∃ word ∈ split (ascii ' ') s, b ∈ word := mem_split hb
  rcases hcases with hspace | ⟨word, hword, hb⟩
  · exact Or.inr hspace
  · exact Or.inl (isSolid_of_isIdentifier (hwords word hword) b hb)

/-- The text starts with a whole identifier, and `c` comes next. -/
def Opens (c : UInt8) (s : Text) : Prop := ∃ w rest, w.isIdentifier ∧ s = w ++ c :: rest

theorem Opens.append {c : UInt8} (h : Opens c s) (t : Text) : Opens c (s ++ t) := by
  obtain ⟨w, rest, hw, rfl⟩ := h
  exact ⟨w, rest ++ t, hw, by simp⟩

theorem opens_of_isTypeName (h : Settings.isTypeName s) : Opens (ascii ' ') (s ++ " ") := by
  have hwords := List.all_eq_true.1 h
  obtain ⟨word, words, hs⟩ := List.exists_cons_of_ne_nil (split_ne_nil (ascii ' ') s)
  rw [hs] at hwords
  have hword := hwords word List.mem_cons_self
  rcases split_first hs with rfl | ⟨rest, rfl⟩
  · exact ⟨_, [], hword, rfl⟩
  · exact ⟨word, rest ++ " ", hword, by simp⟩

end Text

namespace Layout

open Text

variable {line s : Text} {depth : Nat} {blank : Bool} {rest : List Text}

theorem isLabelLine_of_opens {c : UInt8} (h : Opens c s) (hc : Apart [c]) :
    isLabelLine s = (c == ascii ':') := by
  obtain ⟨w, rest, hw, rfl⟩ := h
  obtain ⟨hne, hlen⟩ := Lexer.identifier_iff.1 (Lexer.isIdentifier_iff.1 hw)
  have hlength : wordLength (w ++ c :: rest) = w.length := by
    rw [wordLength_append (fun b hb => hc b (by simpa using hb)) hne, hlen]
  simp [isLabelLine, hlength, hne]

theorem depthAfter_of_flat (h : Flat line) (depth : Nat) : depthAfter depth line = depth := by
  have hopen := List.count_eq_zero.2 (h.not_mem (b := ascii '\x7b') (by decide) (by decide))
  have hclose := List.count_eq_zero.2 (h.not_mem (b := ascii '\x7d') (by decide) (by decide))
  simp [depthAfter, hopen, hclose]

/-- A tidy line is kept, and so is the depth. -/
theorem indent_tidy (h : Tidy line) : indent depth blank (line :: rest) =
    (indentation (if isLabelLine line then depth - 1 else depth) ++ line) ::
      indent depth false rest := by
  have hclose : (line.head? == some (ascii '\x7d')) = false := by
    obtain ⟨b, hb, hsolid⟩ := h.first
    rw [Option.mem_def.1 hb, beq_eq_false_iff_ne]
    rintro ⟨rfl⟩
    exact absurd hsolid (by decide)
  have hne : line.trim ≠ [] := by
    rw [h.trim_eq]
    rintro rfl
    obtain ⟨b, hb, -⟩ := h.first
    cases hb
  rw [indent_content hne, h.trim_eq, depthAfter_of_flat h.flat]
  simp [indented, isOutdented, hclose]

end Layout

open Text

/-- An instruction whose parts are identifiers, types and texts without braces. -/
def Action.Clean : Action → Prop
  | .declare type name => Settings.isTypeName type ∧ name.isIdentifier
  | .compute type dest rhs => Settings.isTypeName type ∧ dest.isIdentifier ∧ Flat rhs.render
  | .store type dest op x =>
    (∀ t ∈ type, Settings.isTypeName t) ∧ dest.isIdentifier ∧ Flat op ∧ Flat x
  | .jumpUnless x target => Flat x ∧ Flat target
  | .jumpIf x op y target => Flat x ∧ Flat op ∧ Flat y ∧ Flat target
  | .jump target => Flat target
  | .label name => name.isIdentifier
  | .unknown _ => False

namespace Action

variable {a : Action}

theorem Clean.flat (h : a.Clean) : Flat a.render := by
  have hspace : Flat " " := by decide
  have hend : Flat ";" := by decide
  cases a with
  | declare type name =>
    simp only [render, flat_append]
    exact ⟨⟨⟨flat_of_isTypeName h.1, hspace⟩, flat_of_isIdentifier h.2⟩, hend⟩
  | compute type dest rhs =>
    simp only [render, flat_append]
    exact ⟨⟨⟨⟨⟨flat_of_isTypeName h.1, hspace⟩, flat_of_isIdentifier h.2.1⟩, by decide⟩, h.2.2⟩,
      hend⟩
  | store type dest op x =>
    obtain ⟨htype, hdest, hop, hx⟩ := h
    have hdest' := flat_of_isIdentifier hdest
    cases type with
    | none =>
      simp only [render, flat_append]
      exact ⟨⟨⟨⟨⟨hdest', hspace⟩, hop⟩, hspace⟩, hx⟩, hend⟩
    | some type =>
      simp only [render, flat_append]
      exact ⟨⟨⟨⟨⟨⟨⟨flat_of_isTypeName (htype type rfl), hspace⟩, hdest'⟩, hspace⟩, hop⟩, hspace⟩,
        hx⟩, hend⟩
  | jumpUnless x target =>
    simp only [render, flat_append]
    exact ⟨⟨⟨⟨by decide, h.1⟩, by decide⟩, h.2⟩, hend⟩
  | jumpIf x op y target =>
    obtain ⟨hx, hop, hy, htarget⟩ := h
    simp only [render, flat_append]
    exact ⟨⟨⟨⟨⟨⟨⟨⟨by decide, hx⟩, hspace⟩, hop⟩, hspace⟩, hy⟩, by decide⟩, htarget⟩, hend⟩
  | jump target =>
    simp only [render, flat_append]
    exact ⟨⟨by decide, h⟩, hend⟩
  | label name =>
    simp only [render, flat_append]
    exact ⟨flat_of_isIdentifier h, by decide⟩
  | unknown code => exact absurd h id

/-- The first identifier of an instruction is followed by a colon in a label, and else by a
space. -/
theorem Clean.opens (h : a.Clean) :
    Opens (if a.label?.isSome then ascii ':' else ascii ' ') a.render := by
  cases a with
  | declare type name => exact ((opens_of_isTypeName h.1).append _).append _
  | compute type dest rhs =>
    exact ((((opens_of_isTypeName h.1).append _).append _).append _).append _
  | store type dest op x =>
    obtain ⟨htype, hdest, -, -⟩ := h
    cases type with
    | none => exact ⟨dest, op ++ " " ++ x ++ ";", hdest, by simp [render, label?]; rfl⟩
    | some type =>
      exact ((((((opens_of_isTypeName (htype type rfl)).append _).append _).append _).append
        _).append _).append _
  | jumpUnless x target => exact ⟨"if", "(!" ++ x ++ ") goto " ++ target ++ ";", by decide, rfl⟩
  | jumpIf x op y target =>
    exact ⟨"if", "(" ++ x ++ " " ++ op ++ " " ++ y ++ ") goto " ++ target ++ ";", by decide, rfl⟩
  | jump target => exact ⟨"goto", target ++ ";", by decide, rfl⟩
  | label name => exact ⟨name, " ;", h, rfl⟩
  | unknown code => exact absurd h id

theorem Clean.tidy (h : a.Clean) : Tidy a.render := by
  refine ⟨h.flat, ?_, ?_⟩
  · obtain ⟨w, rest, hw, hrender⟩ := h.opens
    obtain ⟨hne, -⟩ := Lexer.identifier_iff.1 (Lexer.isIdentifier_iff.1 hw)
    obtain ⟨b, s, rfl⟩ := List.exists_cons_of_ne_nil hne
    rw [hrender]
    exact ⟨b, rfl, isSolid_of_isIdentifier hw b List.mem_cons_self⟩
  · have hend : ∀ {s t : Text}, (∃ b ∈ t.getLast?, isSolid b) →
        ∃ b ∈ (s ++ t).getLast?, isSolid b := by
      rintro s t ⟨b, hb, hsolid⟩
      have hne : t ≠ [] := by
        rintro rfl
        cases hb
      exact ⟨b, by rwa [List.getLast?_append_of_ne_nil s hne], hsolid⟩
    have hsemicolon : ∃ b ∈ (ofString ";").getLast?, isSolid b := ⟨_, rfl, by decide⟩
    cases a with
    | store type dest op x => cases type <;> exact hend hsemicolon
    | label name => exact hend ⟨_, rfl, by decide⟩
    | unknown code => exact absurd h id
    | _ => exact hend hsemicolon

theorem Clean.isLabelLine_eq (h : a.Clean) : Layout.isLabelLine a.render = a.label?.isSome := by
  have hopens := h.opens
  cases hlabel : a.label?.isSome with
  | true =>
    rw [hlabel] at hopens
    exact Layout.isLabelLine_of_opens hopens (by rintro _ ⟨rfl⟩; decide)
  | false =>
    rw [hlabel] at hopens
    exact Layout.isLabelLine_of_opens hopens (by rintro _ ⟨rfl⟩; decide)

end Action

theorem isIdentifier_of_isName {s : Text} (h : IsName s) : s.isIdentifier := h.1

/-- No operator of an expression or an assignment is a brace. -/
theorem Op.flat_symbol {o : Op} : o.isBinary || o.isSign || o.isAssign → Flat o.symbol := by
  cases o <;> decide

theorem Kind.flat_symbol {k : Kind} (h : k.isAssign) : Flat k.symbol := by
  cases k with
  | op o => exact Op.flat_symbol (by simp [show o.isAssign from h])
  | _ => simp [isAssign] at h

theorem Rhs.flat_ofParts {op x y : Text} (hop : Flat op) (hx : Flat x) (hy : Flat y) :
    Flat (Rhs.ofParts op x y).render := by
  unfold Rhs.ofParts
  split
  · simp only [Rhs.render, flat_append]
    exact ⟨⟨⟨⟨hx, by decide⟩, hop⟩, by decide⟩, hy⟩
  · split
    · exact flat_append.2 ⟨hop, hx⟩
    · exact hx

/-- A scheme with which declarations and generated names are well formed. -/
structure Scheme.Valid (scheme : Scheme) : Prop where
  type : Settings.isTypeName scheme.type
  tempStem : scheme.tempStem.isIdentifier
  labelStem : scheme.labelStem.isIdentifier

section

variable {scheme : Scheme} {reserved : List Text} {names names' : Names} {code : List Instr}

theorem Scheme.Valid.temp (hv : scheme.Valid) (n : Nat) : (scheme.temp n).isIdentifier :=
  isIdentifier_append_ofNat hv.tempStem n

theorem Scheme.Valid.label (hv : scheme.Valid) (n : Nat) : (scheme.label n).isIdentifier :=
  isIdentifier_append_ofNat hv.labelStem n

theorem Scheme.Valid.flat_label (hv : scheme.Valid) (n : Nat) : Flat (scheme.label n) :=
  flat_of_isIdentifier (hv.label n)

theorem ExprCode.clean (hv : scheme.Valid) {e : Expr} {x : Text} (he : e.WellFormed)
    (h : ExprCode scheme reserved e names code x names') :
    (∀ i ∈ code, i.action.Clean) ∧ Flat x := by
  induction h with
  | @number span value raw _ =>
    have hne : raw ≠ [] := he.1.1
    have hraw := flat_of_number (Lexer.number_of_lexed he.1)
    exact ⟨by simp, by simpa [numberText, hne] using hraw⟩
  | @boolean _ value _ => exact ⟨by simp, by cases value <;> decide⟩
  | name => exact ⟨by simp, flat_of_isIdentifier (isIdentifier_of_isName he)⟩
  | @binary _ _ _ _ _ _ names₂ _ _ _ _ _ _ ihl ihr =>
    obtain ⟨⟨o, rfl, ho⟩, hwfl, hwfr⟩ := he
    obtain ⟨hl, hx⟩ := ihl hwfl
    obtain ⟨hr, hy⟩ := ihr hwfr
    have hop : Flat o.symbol := Op.flat_symbol (by simp [ho])
    have htemp := hv.temp (names₂.nextTemp scheme reserved)
    simp only [List.forall_mem_append, List.forall_mem_singleton]
    exact ⟨⟨⟨hl, hr⟩, hv.type, htemp, Rhs.flat_ofParts hop hx hy⟩,
      flat_of_isIdentifier htemp⟩
  | @unary _ _ _ _ names₁ _ _ _ ih =>
    obtain ⟨⟨o, rfl, ho⟩, hwf⟩ := he
    obtain ⟨hcode, hx⟩ := ih hwf
    have hop : Flat o.symbol := Op.flat_symbol (by simp [ho])
    have htemp := hv.temp (names₁.nextTemp scheme reserved)
    simp only [List.forall_mem_append, List.forall_mem_singleton]
    exact ⟨⟨hcode, hv.type, htemp, Rhs.flat_ofParts hop hx (by decide)⟩,
      flat_of_isIdentifier htemp⟩

theorem BoundCode.clean (hv : scheme.Valid) {e : Expr} {x : Text} (he : e.WellFormed)
    (h : BoundCode scheme reserved e names code x names') :
    (∀ i ∈ code, i.action.Clean) ∧ Flat x := by
  cases h with
  | plain _ h => exact h.clean hv he
  | copied =>
    have htemp := hv.temp (names.nextTemp scheme reserved)
    have hn := flat_of_isIdentifier (isIdentifier_of_isName he)
    exact ⟨List.forall_mem_singleton.2 ⟨hv.type, htemp, hn⟩, flat_of_isIdentifier htemp⟩

theorem ConditionsCode.clean (hv : scheme.Valid) {bs : List (Branch Stmt)} {xs : List Text}
    (hbs : Stmt.WellFormedBranches bs)
    (h : ConditionsCode scheme reserved bs names code xs names') :
    (∀ i ∈ code, i.action.Clean) ∧ ∀ x ∈ xs, Flat x := by
  induction h with
  | nil => simp
  | cons he _ ih =>
    obtain ⟨hcode, hx⟩ := he.clean hv hbs.1
    obtain ⟨hcodes, hxs⟩ := ih hbs.2.2
    exact ⟨List.forall_mem_append.2 ⟨hcode, hcodes⟩, List.forall_mem_cons.2 ⟨hx, hxs⟩⟩

theorem StoreCode.clean (hv : scheme.Valid) {isNew : Bool} {target x : Text} {op : Kind} {pos : Pos}
    (htarget : target.isIdentifier) (hop : op.isAssign) (hx : Flat x)
    (h : StoreCode scheme isNew target op x pos code) : ∀ i ∈ code, i.action.Clean := by
  have hstore : ∀ {type : Option Text}, (∀ t ∈ type, Settings.isTypeName t) →
      (Action.store type target op.symbol x).Clean :=
    fun htype => ⟨htype, htarget, Kind.flat_symbol hop, hx⟩
  have hnone : ∀ t ∈ (none : Option Text), Settings.isTypeName t := by simp
  cases h with
  | first =>
    refine List.forall_mem_singleton.2 (hstore ?_)
    rintro _ ⟨rfl⟩
    exact hv.type
  | declared =>
    exact List.forall_mem_cons.2 ⟨⟨hv.type, htarget⟩, List.forall_mem_singleton.2 (hstore hnone)⟩
  | plain => exact List.forall_mem_singleton.2 (hstore hnone)

/-- The labels and operands that a task is given are texts without braces. -/
def Task.Flat : Task → Prop
  | .chain stop conds _ => Text.Flat stop ∧ ∀ x ∈ conds, Text.Flat x
  | _ => True

/-- Lowered code is clean. Jumps lead to the labels of the loop and to the end of the chain, which
were generated outside the task. -/
theorem Lowered.clean (hv : scheme.Valid) {loop : Option Loop} {task : Task}
    (hwf : task.WellFormed) (hloop : ∀ l ∈ loop, Text.Flat l.breakTo ∧ Text.Flat l.continueTo)
    (htask : task.Flat) (h : Lowered scheme reserved loop task names code names') :
    ∀ i ∈ code, i.action.Clean := by
  induction h with
  | nil | chainNil => simp
  | cons _ _ ih ih' =>
    exact List.forall_mem_append.2 ⟨ih hwf.1 hloop trivial, ih' hwf.2 hloop trivial⟩
  | assign he hs =>
    obtain ⟨hcode, hx⟩ := he.clean hv hwf.2.2
    exact List.forall_mem_append.2 ⟨hcode, hs.clean hv (isIdentifier_of_isName hwf.1) hwf.2.1 hx⟩
  | eval he => exact (he.clean hv hwf).1
  | breakLoop => exact List.forall_mem_singleton.2 (hloop _ rfl).1
  | continueLoop => exact List.forall_mem_singleton.2 (hloop _ rfl).2
  | branch _ hc _ _ ih ih' =>
    obtain ⟨hcode, hxs⟩ := hc.clean hv hwf.2.1
    have hclauses := ih hwf.2.1 hloop ⟨hv.flat_label _, hxs⟩
    have hlast := ih' ((Stmt.wellFormedBody_iff _).1 hwf.2.2) hloop trivial
    simp only [List.forall_mem_append, List.forall_mem_singleton]
    exact ⟨⟨⟨hcode, hclauses⟩, hlast⟩, hv.label _⟩
  | chainCons _ _ ih ih' =>
    have hinner := ih ((Stmt.wellFormedBody_iff _).1 hwf.2.1.2) hloop trivial
    obtain ⟨hstop, hconds⟩ := htask
    obtain ⟨hx, hxs⟩ := List.forall_mem_cons.1 hconds
    have hclauses := ih' hwf.2.2 hloop ⟨hstop, hxs⟩
    simp only [List.forall_mem_append, List.forall_mem_cons]
    exact ⟨⟨⟨⟨⟨hx, hv.flat_label _⟩, by simp⟩, hinner⟩, hstop, hv.label _, by simp⟩, hclauses⟩
  | whileLoop he _ ih =>
    obtain ⟨hcode, hx⟩ := he.clean hv hwf.1
    have hinner := ih ((Stmt.wellFormedBody_iff _).1 hwf.2.2)
      (by rintro _ ⟨rfl⟩; exact ⟨hv.flat_label _, hv.flat_label _⟩) trivial
    simp only [List.forall_mem_append, List.forall_mem_cons]
    exact ⟨⟨⟨⟨⟨hv.label _, by simp⟩, hcode⟩, ⟨hx, hv.flat_label _⟩, by simp⟩, hinner⟩,
      hv.flat_label _, hv.label _, by simp⟩
  | @forLoop _ _ var range _ _ _ _ _ _ _ _ _ _ _ first last step type h₁ h₂ h₃ _ htype _ ih =>
    obtain ⟨hname, hrange, -, hbody⟩ := hwf
    obtain ⟨hfirst, hx⟩ := h₁.clean hv hrange.1
    obtain ⟨hlast, hy⟩ := h₂.clean hv hrange.2.1
    obtain ⟨hstep, hz⟩ := h₃.clean hv hrange.2.2
    have hvar := isIdentifier_of_isName hname
    have hinner := ih ((Stmt.wellFormedBody_iff _).1 hbody)
      (by rintro _ ⟨rfl⟩; exact ⟨hv.flat_label _, hv.flat_label _⟩) trivial
    have hnew : ∀ t ∈ type, Settings.isTypeName t := by
      rw [htype]
      split
      · simp
      · rintro _ ⟨rfl⟩
        exact hv.type
    have htest : Text.Flat (Lower.exitTest range.step) := by
      unfold Lower.exitTest
      split
      · split <;> decide
      · decide
    have hvarFlat := flat_of_isIdentifier hvar
    simp only [List.forall_mem_append, List.forall_mem_cons]
    refine ⟨⟨⟨⟨⟨hfirst, hlast⟩, hstep⟩, ?_, hv.label _, ?_, by simp⟩, hinner⟩, hv.label _, ?_,
      hv.flat_label _, hv.label _, by simp⟩
    · exact ⟨hnew, hvar, by decide, hx⟩
    · exact ⟨hvarFlat, htest, hy, hv.flat_label _⟩
    · exact ⟨by simp, hvar, by decide, hz⟩

end

/-- The line of an instruction, with a margin unless it is a label. -/
def Action.line (margin : Text) (a : Action) : Text :=
  if a.label?.isSome then a.render else margin ++ a.render

/-- The lines of a C program before the instructions. -/
def Listing.opening : List Text :=
  ["#include <stdio.h>", ofString "", "int main() \x7b"]

/-- The lines of a C program, with the given margin inside of `main`. -/
def Listing.lines (margin : Text) (l : Listing) : List Text :=
  opening ++ l.code.map (·.action.line margin) ++ [margin ++ "return 0;", ofString "\x7d"]

namespace Listing

variable {l : Listing}

theorem text_eq (l : Listing) : l.text = unlines (l.lines []) := by
  have hbody : l.body = unlines (l.code.map (·.action.line [])) := by
    simp [body, unlines, List.flatMap_map, Action.line]
  have hheader : header = unlines opening := by decide
  have hfooter : footer = unlines [ofString "return 0;", ofString "\x7d"] := by decide
  rw [text, hbody, hheader, hfooter, lines, unlines_append, unlines_append]
  rfl

/-- The instructions of a program, inside of `main`. -/
theorem indent_code {code : List Instr} (h : ∀ i ∈ code, i.action.Clean) (rest : List Text) :
    Layout.indent 1 false (code.map (·.action.line []) ++ rest) =
      code.map (·.action.line "    ") ++ Layout.indent 1 false rest := by
  induction code with
  | nil => rfl
  | cons i code ih =>
    obtain ⟨hi, hcode⟩ := List.forall_mem_cons.1 h
    have hbare : i.action.line [] = i.action.render := by simp [Action.line]
    have hline : indentation (if i.action.label?.isSome then 1 - 1 else 1) ++
        i.action.render = i.action.line "    " := by
      cases hlabel : i.action.label?.isSome <;> simp [Action.line, hlabel] <;> rfl
    rw [List.map_cons, List.cons_append, hbare, Layout.indent_tidy hi.tidy, hi.isLabelLine_eq,
      hline, ih hcode]
    rfl

theorem not_mem_lines (h : ∀ i ∈ l.code, i.action.Clean) {margin : Text}
    (hmargin : lineFeed ∉ margin) : ∀ line ∈ l.lines margin, lineFeed ∉ line := by
  have hcode : ∀ line ∈ l.code.map (·.action.line margin), lineFeed ∉ line := by
    intro line hline
    obtain ⟨i, hi, rfl⟩ := List.mem_map.1 hline
    have hrender := (h i hi).flat.not_mem (b := lineFeed) (by decide) (by decide)
    unfold Action.line
    split
    · exact hrender
    · simp [hmargin, hrender]
  simp only [lines, List.forall_mem_append, List.forall_mem_cons]
  refine ⟨⟨by decide, hcode⟩, ?_, by decide, by simp⟩
  exact fun hmem => (List.mem_append.1 hmem).elim hmargin (by decide)

theorem format_text (h : ∀ i ∈ l.code, i.action.Clean) :
    Layout.format l.text = unlines (l.lines "    ") := by
  have hheader : ∀ rest : List Text,
      Layout.indent 0 false (opening ++ rest) = opening ++ Layout.indent 1 false rest :=
    fun _ => rfl
  have hfooter : Layout.indent 1 false ([ofString "return 0;", ofString "\x7d"] ++ [[]]) =
      [ofString "    return 0;", ofString "\x7d"] ++ [[]] := by decide
  have hindent : Layout.indent 0 false (l.lines [] ++ [[]]) = l.lines "    " ++ [[]] := by
    calc Layout.indent 0 false (l.lines [] ++ [[]])
        = Layout.indent 0 false (opening ++ (l.code.map (·.action.line []) ++
            ([ofString "return 0;", ofString "\x7d"] ++ [[]]))) := by simp [lines]
      _ = l.lines "    " ++ [[]] := by
        rw [hheader, indent_code h, hfooter]
        simp [lines]
        rfl
  rw [Layout.format, text_eq, lines_unlines (not_mem_lines h (by simp)), hindent, join_concat_nil]

end Listing

theorem Scheme.valid_of_validate {s s' : Scheme} (h : s.validate = .ok s') : s.Valid := by
  unfold Scheme.validate at h
  split at h
  · cases h
  · split at h
    · cases h
    · split at h
      · cases h
      · rename_i htype hstem hlabel
        exact ⟨by simpa using htype, by simpa using hstem, by simpa using hlabel⟩

section

variable {settings : Settings} {source : Text} {t : Compilation}

/-- A source that is compiled with some layout is compiled with any, to the same instructions. -/
theorem compile_layout (h : (compile settings source).outcome = .ok t) (layout : Bool) :
    (compile { settings with layout := layout } source).outcome = .ok { t with
      code := if layout then Layout.format t.listing.text else t.listing.text } := by
  unfold compile at h ⊢
  cases hv : settings.scheme.filled.validate with
  | error e => simp [hv] at h
  | ok scheme =>
    cases hp : Program.parse source with
    | error e => simp [hv, hp] at h
    | ok p =>
      cases hl : p.lower scheme with
      | error e => simp [hv, hp, hl] at h
      | ok listing =>
        simp only [hv, hp, hl, Except.ok.injEq] at h ⊢
        subst h
        rfl

theorem Scheme.valid_of_compile (h : (compile settings source).outcome = .ok t) :
    settings.scheme.filled.Valid := by
  unfold compile at h
  cases hv : settings.scheme.filled.validate with
  | error e => simp [hv] at h
  | ok scheme => exact Scheme.valid_of_validate hv

/-- The instructions of a compiled program are clean. -/
theorem clean_of_compile (h : (compile settings source).outcome = .ok t) :
    ∀ i ∈ t.listing.code, i.action.Clean := by
  obtain ⟨-, hparse, hlower⟩ := compile_eq_ok h
  obtain ⟨names, hcode⟩ := Program.lowered_of_lower hlower
  rw [Scheme.filled_filled] at hcode
  have hwf : Task.WellFormed (.list t.program.stmts) := Program.wellFormed_of_parse hparse
  exact hcode.clean (Scheme.valid_of_compile h) hwf (by simp) trivial

/-- With layout, a compiled program is its instructions in order, each on a line of its own, in a
frame of five lines: four spaces stand before what is inside of `main` and is no label. Without
layout they are all that is missing. -/
theorem layout_indents_all_but_labels (hcompile : (compile settings source).outcome = .ok t)
    (hlayout : settings.layout = true) :
    t.code = unlines (t.listing.lines "    ") ∧ t.code.lines = t.listing.lines "    " ++ [[]] ∧
      ∃ u, (compile { settings with layout := false } source).outcome = .ok u ∧
        u.listing = t.listing ∧ u.code = unlines (t.listing.lines []) ∧
          u.code.lines = t.listing.lines [] ++ [[]] := by
  have hclean := clean_of_compile hcompile
  have hcode : t.code = unlines (t.listing.lines "    ") := by
    have hagain := hcompile.symm.trans (compile_layout hcompile settings.layout)
    rw [if_pos hlayout, Listing.format_text hclean] at hagain
    exact congrArg Compilation.code (Except.ok.inj hagain)
  refine ⟨hcode, ?_, _, compile_layout hcompile false, rfl, Listing.text_eq _, ?_⟩
  · rw [hcode, lines_unlines (Listing.not_mem_lines hclean (by decide))]
  · exact (congrArg Text.lines (Listing.text_eq _)).trans
      (lines_unlines (Listing.not_mem_lines hclean (by simp)))

end

theorem labels_stand_at_the_margin : ∃ t u,
    (compile ⟨⟨"long int", [], "L"⟩, true, []⟩ "while x: { x -= 1 }").outcome = .ok t ∧
      t.code = "#include <stdio.h>\n\nint main() \x7b\nL1: ;\n    if (!x) goto L2;\n" ++
        "    long int x;\n    x -= 1;\n    goto L1;\nL2: ;\n    return 0;\n\x7d\n" ∧
      (compile ⟨⟨"long int", [], "L"⟩, false, []⟩ "while x: { x -= 1 }").outcome = .ok u ∧
      u.code = "#include <stdio.h>\n\nint main() \x7b\nL1: ;\nif (!x) goto L2;\n" ++
        "long int x;\nx -= 1;\ngoto L1;\nL2: ;\nreturn 0;\n\x7d\n" := by
  have hrun : (compile ⟨⟨"long int", [], "L"⟩, true, []⟩
      "while x: { x -= 1 }").outcome.toOption.map (fun t => t.listing.code.map (·.action)) =
        some [.label "L1", .jumpUnless "x" "L2", .declare "long int" "x",
          .store none "x" "-=" "1", .jump "L1", .label "L2"] := by decide +kernel
  obtain ⟨t, hcompile, hactions⟩ := exists_of_map_compile hrun
  obtain ⟨hcode, -, u, hcompile', -, hcode', -⟩ := layout_indents_all_but_labels hcompile rfl
  have hlines : ∀ margin : Text, t.listing.lines margin =
      Listing.opening ++ (t.listing.code.map (·.action)).map (·.line margin) ++
        [margin ++ "return 0;", ofString "\x7d"] := by
    intro margin
    simp [Listing.lines]
  rw [hlines, hactions] at hcode hcode'
  exact ⟨t, u, hcompile, hcode.trans (by decide +kernel), hcompile',
    hcode'.trans (by decide +kernel)⟩

end ThreeAddress
