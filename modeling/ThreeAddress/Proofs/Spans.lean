import ThreeAddress.Proofs.Separators
import ThreeAddress.Proofs.Subtrees

/-! Places of tokens and trees in a source. What is asked of a node looks at the node and its
children only: where its span lies, that the spans of the children lie in it one after the other,
and that a leaf has the text of its span. -/
namespace ThreeAddress

open Text

/-- The span from the byte with number `i` up to but not including that with number `j`. -/
def Span.between (src : Text) (i j : Nat) : Span := ⟨Pos.counted src i, Pos.counted src j⟩

theorem Pos.advance_eq_past {s : Text} (h : lineFeed ∉ s) (p : Pos) : p.advance s = p.past s := by
  induction s generalizing p with
  | nil => simp [advance, past]
  | cons b s ih =>
    obtain ⟨hb, hs⟩ := not_or.1 (mt List.mem_cons.2 h)
    have hstep : p.step b = ⟨p.line, p.column + 1, p.offset + 1⟩ := by
      simp [step, beq_eq_false_iff_ne.2 (Ne.symm hb)]
    have hrest : (p.step b).advance s = (p.step b).past s := ih hs _
    rw [hstep] at hrest
    show (p.step b).advance s = _
    rw [hstep, hrest]
    simp only [past, List.length_cons, Pos.mk.injEq, true_and]
    omega

namespace Token

/-- The token `t` takes up the source from byte `i` to byte `j`; the end of the source takes up
nothing. -/
structure Lies (src : Text) (t : Token) (i j : Nat) : Prop where
  span : t.span = Span.between src i j
  le : i ≤ j
  bound : j ≤ src.length
  text : src.slice i j = t.text
  lexeme : t.kind ≠ .eof → i < j ∧ t ∈ tokenize src ∧ Lexer.IsLexeme t.text t.kind

theorem isLexeme_of_mem {src : Text} {t : Token} (ht : t ∈ tokenize src) (hk : t.kind ≠ .illegal) :
    Lexer.IsLexeme t.text t.kind := by
  rcases (settled_of_mem ht).munched with h | ⟨h, -⟩
  · exact (h.lexeme _).2 rfl
  · exact absurd h hk

/-- The first of the tokens that are left. -/
theorem lies_of_laid {src : Text} {k : Nat} {t : Token} {ts : List Token}
    (h : Lexer.Laid src k (t :: ts)) (ht : t ∈ tokenize src) (hk : t.kind ≠ .illegal) :
    ∃ i j, k ≤ i ∧ t.Lies src i j ∧ Lexer.Laid src j ts := by
  cases h with
  | @cons _ i _ _ hle _ hpos hne hfront hrest =>
    have hlexeme := isLexeme_of_mem ht hk
    have hlen := List.length_pos_iff.2 hne
    have hbound := hrest.length_le
    obtain ⟨rest, hdrop⟩ := hfront
    have hstop : Pos.counted src (i + t.text.length) = t.stop := by
      rw [Pos.counted_add hdrop.symm, Pos.advance_eq_past (hlexeme.not_mem rfl), stop, hpos]
    refine ⟨i, i + t.text.length, hle, ⟨?_, by omega, by omega, ?_, ?_⟩, hrest⟩
    · rw [Span.between, hstop, ← hpos]
      rfl
    · rw [slice, Nat.add_sub_cancel_left, ← hdrop, List.take_left]
    · intro _
      exact ⟨by omega, ht, hlexeme⟩

theorem Lies.pos_eq {src : Text} {t : Token} {i j : Nat} (h : t.Lies src i j) :
    t.pos = Pos.counted src i :=
  congrArg Span.start h.span

theorem Lies.stop_eq {src : Text} {t : Token} {i j : Nat} (h : t.Lies src i j) :
    t.stop = Pos.counted src j :=
  congrArg Span.stop h.span

theorem Lies.spelling {src : Text} {t : Token} {i j : Nat} (h : t.Lies src i j) {k : Keyword}
    (hk : t.kind = .keyword k) : k.spelling = t.text := by
  have hkeyword : ∀ {u : Text} {kind : Kind}, Lexer.IsLexeme u kind → kind = .keyword k →
      k.spelling = u := by
    intro u kind hlexeme hkind
    cases hlexeme <;> cases hkind
    rfl
  obtain ⟨-, -, hlexeme⟩ := h.lexeme (by simp [hk])
  exact hkeyword hlexeme hk

theorem endOf_lies (src : Text) : (endOf src).Lies src src.length src.length := by
  refine ⟨?_, Nat.le_refl _, Nat.le_refl _, ?_, fun h => absurd rfl h⟩
  · rw [Span.between, ← endOf_pos]
    simp [span, stop, Pos.past, endOf]
  · simp [slice, endOf]

end Token

/-- A number that takes up nothing in the source. -/
def Expr.isImplicit : Expr → Bool
  | .number span _ _ => span.start == span.stop
  | _ => false

/-- The text that a leaf stands for. -/
def Expr.leafText? : Expr → Option Text
  | .number _ _ raw => some raw
  | .boolean _ value => some (if value then "True" else "False")
  | .name n => some n.text
  | _ => none

namespace Tree

def isImplicit : Tree → Bool
  | .expr e => e.isImplicit
  | _ => false

/-- The text that a node without parts stands for. -/
def leafText? : Tree → Option Text
  | .expr e => e.leafText?
  | .stmt (.breakLoop _) => some "break"
  | .stmt (.continueLoop _) => some "continue"
  | _ => none

/-- The child `c` of the loop `t` is an argument that its call of `range` leaves out: the first or
the last one, with an empty span at the word `range`. -/
def LeftOut (src : Text) (t c : Tree) : Prop :=
  ∃ span var range body, t = .stmt (.forLoop span var range body) ∧
    ∃ word ∈ Token.tokenize src, word.kind = .keyword .rangeWord ∧
      var.span.stop.offset ≤ word.pos.offset ∧ word.stop.offset ≤ range.stop.start.offset ∧
      (c = .expr range.start ∧ range.start = Parser.implicit word.pos 0 ∨
        c = .expr range.step ∧ range.step = Parser.implicit word.pos 1)

/-- The node at the root of `t` is true to the source. -/
structure Faithful (src : Text) (t : Tree) : Prop where
  /-- Its span is a stretch of the source, with the lines and columns of both ends. -/
  place : ∃ i j, i ≤ j ∧ j ≤ src.length ∧ t.span = Span.between src i j
  /-- A walk comes to the node, and then to its children in order. -/
  walk : ∃ sort, ∀ enter, t.nodes enter =
    Node.withChildren enter ⟨sort, t.span⟩ (t.children.flatMap (·.nodes enter))
  nested : ∀ c ∈ t.children, t.span.start.offset ≤ c.span.start.offset ∧
    c.span.stop.offset ≤ t.span.stop.offset
  ordered : (t.children.filter fun c => !c.isImplicit).Pairwise fun c d =>
    c.span.start.offset < d.span.start.offset ∧ c.span.stop.offset ≤ d.span.start.offset
  leaf : ∀ text, t.leafText? = some text → t.isImplicit = false →
    src.slice t.span.start.offset.toNat t.span.stop.offset.toNat = text
  leftOut : ∀ c ∈ t.children, c.isImplicit → t.LeftOut src c

/-- The tree `t` takes up the source from byte `i` to byte `j`, and all its nodes are true to it. -/
structure At (src : Text) (t : Tree) (i j : Nat) : Prop where
  span : t.span = Span.between src i j
  lt : i < j
  bound : j ≤ src.length
  faithful : ∀ u, t.Has u → u.Faithful src

/-- The trees take up the source from byte `lo` to byte `hi` one after the other, perhaps with gaps
before, between and behind them. -/
inductive Row (src : Text) : Nat → List Tree → Nat → Prop
  | nil {lo hi : Nat} : lo ≤ hi → Row src lo [] hi
  | cons {lo i j hi : Nat} {t : Tree} {ts : List Tree} : lo ≤ i → t.At src i j →
      Row src j ts hi → Row src lo (t :: ts) hi

variable {src : Text} {t c : Tree} {ts us : List Tree} {lo lo' mid hi hi' i j : Nat}

theorem At.start_eq (h : t.At src i j) : t.span.start = Pos.counted src i :=
  congrArg Span.start h.span

theorem At.stop_eq (h : t.At src i j) : t.span.stop = Pos.counted src j :=
  congrArg Span.stop h.span

theorem At.isImplicit_eq (h : t.At src i j) : t.isImplicit = false := by
  obtain ⟨hspan, hlt, -, -⟩ := h
  cases t with
  | expr e =>
    cases e with
    | number span value raw =>
      obtain rfl : span = Span.between src i j := hspan
      show (Pos.counted src i == Pos.counted src j) = false
      rw [beq_eq_false_iff_ne]
      intro heq
      have hoffset : (i : Int) = j := congrArg Pos.offset heq
      omega
    | _ => rfl
  | _ => rfl

namespace Row

theorem le (h : Row src lo ts hi) : lo ≤ hi := by
  induction h with
  | nil hle => exact hle
  | cons hle hat _ ih =>
    have hlt := hat.lt
    omega

theorem mono (h : Row src lo ts hi) (hlo : lo' ≤ lo) (hhi : hi ≤ hi') : Row src lo' ts hi' := by
  induction h generalizing lo' with
  | nil hle => exact .nil (by omega)
  | cons hle hat _ ih => exact .cons (by omega) hat (ih (Nat.le_refl _) hhi)

theorem append (h : Row src lo ts mid) (h' : Row src mid us hi) : Row src lo (ts ++ us) hi := by
  induction h with
  | nil hle => exact h'.mono hle (Nat.le_refl _)
  | cons hle hat _ ih => exact .cons hle hat (ih h')

theorem single (hlo : lo ≤ i) (h : t.At src i j) (hhi : j ≤ hi) : Row src lo [t] hi :=
  .cons hlo h (.nil hhi)

/-- A tree behind the others. -/
theorem concat (h : Row src lo ts mid) (hmid : mid ≤ i) (ht : t.At src i j) (hhi : j ≤ hi) :
    Row src lo (ts ++ [t]) hi :=
  h.append (.single hmid ht hhi)

theorem exists_at (h : Row src lo ts hi) (ht : t ∈ ts) : ∃ i j, lo ≤ i ∧ t.At src i j ∧ j ≤ hi := by
  induction h with
  | nil => simp at ht
  | @cons lo i j hi u ts hle hat hrow ih =>
    rcases List.mem_cons.1 ht with rfl | ht
    · exact ⟨i, j, hle, hat, hrow.le⟩
    · obtain ⟨i', j', hle', rest⟩ := ih ht
      have hlt := hat.lt
      exact ⟨i', j', by omega, rest⟩

theorem pairwise (h : Row src lo ts hi) : ts.Pairwise fun c d =>
    c.span.start.offset < d.span.start.offset ∧ c.span.stop.offset ≤ d.span.start.offset := by
  induction h with
  | nil => exact .nil
  | @cons lo i j hi u ts hle hat hrow ih =>
    refine .cons (fun d hd => ?_) ih
    obtain ⟨i', j', hle', hat', -⟩ := hrow.exists_at hd
    have hlt := hat.lt
    rw [hat.span, hat'.span]
    simp only [Span.between, Pos.counted]
    omega

end Row

/-- A part of a tree is the tree, or a part of one of its children. -/
theorem Has.cases {root u : Tree} (h : root.Has u) : u = root ∨ ∃ c ∈ root.children, c.Has u := by
  induction h with
  | root => exact Or.inl rfl
  | @child t c _ hc ih =>
    rcases ih with rfl | ⟨d, hd, hhas⟩
    · exact Or.inr ⟨c, hc, .root⟩
    · exact Or.inr ⟨d, hd, hhas.child hc⟩

/-- A child that takes up nothing in the source between `i` and `j`. -/
def Hidden (src : Text) (t c : Tree) (i j : Nat) : Prop :=
  t.LeftOut src c ∧ (∀ u, c.Has u → u.Faithful src) ∧
    ∃ w, i ≤ w ∧ w ≤ j ∧ c.span = Span.between src w w

theorem faithful_of_row (hspan : t.span = Span.between src i j) (hle : i ≤ j)
    (hbound : j ≤ src.length) {sort : NodeSort} (hsort : t.sort? = some sort)
    (hleaf : ∀ text, t.leafText? = some text → t.isImplicit = false → src.slice i j = text)
    (hrow : Row src i (t.children.filter fun c => !c.isImplicit) j)
    (hhidden : ∀ c ∈ t.children, c.isImplicit → t.Hidden src c i j) : t.Faithful src where
  place := ⟨i, j, hle, hbound, hspan⟩
  walk := ⟨sort, fun enter => nodes_eq enter hsort⟩
  nested c hc := by
    rw [hspan]
    cases himplicit : c.isImplicit with
    | true =>
      obtain ⟨-, -, w, hlo, hhi, hw⟩ := hhidden c hc himplicit
      rw [hw]
      simp only [Span.between, Pos.counted]
      omega
    | false =>
      obtain ⟨i', j', hlo, hat, hhi⟩ := hrow.exists_at (List.mem_filter.2 ⟨hc, by simp [himplicit]⟩)
      rw [hat.span]
      simp only [Span.between, Pos.counted]
      omega
  ordered := hrow.pairwise
  leaf text htext himplicit := by
    rw [hspan]
    exact hleaf text htext himplicit
  leftOut c hc himplicit := (hhidden c hc himplicit).1

/-- A node is true to the source with all its parts if its children are. -/
theorem parts_faithful_of_row (hspan : t.span = Span.between src i j) (hle : i ≤ j)
    (hbound : j ≤ src.length) {sort : NodeSort} (hsort : t.sort? = some sort)
    (hleaf : ∀ text, t.leafText? = some text → t.isImplicit = false → src.slice i j = text)
    (hrow : Row src i (t.children.filter fun c => !c.isImplicit) j)
    (hhidden : ∀ c ∈ t.children, c.isImplicit → t.Hidden src c i j) :
    ∀ u, t.Has u → u.Faithful src := by
  intro u hu
  rcases hu.cases with rfl | ⟨c, hc, hhas⟩
  · exact faithful_of_row hspan hle hbound hsort hleaf hrow hhidden
  · cases himplicit : c.isImplicit with
    | true =>
      obtain ⟨-, hfaithful, -⟩ := hhidden c hc himplicit
      exact hfaithful u hhas
    | false =>
      obtain ⟨_, _, -, hat, -⟩ := hrow.exists_at (List.mem_filter.2 ⟨hc, by simp [himplicit]⟩)
      exact hat.faithful u hhas

/-- The same where all children take up something. -/
theorem parts_faithful (hspan : t.span = Span.between src i j) (hle : i ≤ j)
    (hbound : j ≤ src.length) {sort : NodeSort} (hsort : t.sort? = some sort)
    (hleaf : ∀ text, t.leafText? = some text → src.slice i j = text)
    (hrow : Row src i t.children j) : ∀ u, t.Has u → u.Faithful src := by
  have hseen : ∀ c ∈ t.children, c.isImplicit = false := by
    intro c hc
    obtain ⟨_, _, -, hat, -⟩ := hrow.exists_at hc
    exact hat.isImplicit_eq
  refine parts_faithful_of_row hspan hle hbound hsort (fun text h _ => hleaf text h) ?_ ?_
  · rwa [List.filter_eq_self.2 fun c hc => by simp [hseen c hc]]
  · intro c hc himplicit
    rw [hseen c hc] at himplicit
    cases himplicit

theorem At.node {sort : NodeSort} (hspan : t.span = Span.between src i j) (hlt : i < j)
    (hbound : j ≤ src.length) (hsort : t.sort? = some sort)
    (hleaf : ∀ text, t.leafText? = some text → src.slice i j = text)
    (hrow : Row src i t.children j) : t.At src i j :=
  ⟨hspan, hlt, hbound, parts_faithful hspan (Nat.le_of_lt hlt) hbound hsort hleaf hrow⟩

/-- A leaf that was made of a token. -/
theorem At.leaf {tok : Token} {sort : NodeSort} (htok : tok.Lies src i j) (hk : tok.kind ≠ .eof)
    (hspan : t.span = tok.span) (hsort : t.sort? = some sort) (hchildren : t.children = [])
    (hleaf : t.leafText? = some tok.text) : t.At src i j := by
  obtain ⟨hlt, -, -⟩ := htok.lexeme hk
  refine .node (hspan.trans htok.span) hlt htok.bound hsort ?_ ?_
  · intro text htext
    obtain rfl : tok.text = text := Option.some.inj (hleaf.symm.trans htext)
    exact htok.text
  · rw [hchildren]
    exact .nil (Nat.le_of_lt hlt)

theorem implicit_faithful {w : Nat} (hbound : w ≤ src.length) (value : Float) :
    ∀ u, (expr (Parser.implicit (Pos.counted src w) value)).Has u → u.Faithful src := by
  have hsort : (expr (Parser.implicit (Pos.counted src w) value)).sort? = some .number := rfl
  refine parts_faithful_of_row (i := w) (j := w) rfl (Nat.le_refl w) hbound hsort ?_ ?_ ?_
  · intro text _ himplicit
    simp [isImplicit, Parser.implicit, Expr.isImplicit] at himplicit
  · exact .nil (Nat.le_refl w)
  · intro c hc
    simp [children, Parser.implicit, Expr.children] at hc

end Tree

end ThreeAddress
