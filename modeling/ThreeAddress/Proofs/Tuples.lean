import ThreeAddress.Proofs.LeafTexts
import ThreeAddress.Proofs.PrintedWords
import ThreeAddress.Syntax.Tuple

/-! Tagged tuples tell trees apart. The text of nested tuples falls into its words and parentheses
in one way only, and these tell everything about a tree that was read from a source, except for the
positions and for the spelling of the numbers. -/
namespace ThreeAddress

open Text

/-- A word, or tuples between parentheses. -/
inductive Tuple where
  | word (s : Text)
  | group (items : List Tuple)

namespace Tuple

mutual

/-- The text of a tuple in front of `rest`. -/
def textOnto : Tuple → Text → Text
  | .word s, rest => s ++ rest
  | .group items, rest => "(" ++ textOfList items (")" ++ rest)

/-- The texts of tuples with a space between neighbours. -/
def textOfList : List Tuple → Text → Text
  | [], rest => rest
  | x :: more, rest => x.textOnto (textOfRest more rest)

/-- The texts of tuples with a space before each. -/
def textOfRest : List Tuple → Text → Text
  | [], rest => rest
  | x :: more, rest => " " ++ x.textOnto (textOfRest more rest)

end

/-- The bytes of words. -/
def isPlain (b : UInt8) : Bool := b != ascii ' ' && b != ascii '(' && b != ascii ')'

def PlainWord (s : Text) : Prop := s ≠ [] ∧ ∀ b ∈ s, isPlain b

mutual

/-- No word is empty or has a byte that ends it. -/
def Plain : Tuple → Prop
  | .word s => PlainWord s
  | .group items => PlainList items

def PlainList : List Tuple → Prop
  | [] => True
  | x :: more => x.Plain ∧ PlainList more

end

/-- What a word may stand in front of. -/
def Ends (rest : Text) : Prop := ∀ b ∈ rest.head?, isPlain b = false

variable {s s' rest rest' : Text}

theorem word_injective (hs : PlainWord s) (hs' : PlainWord s') (hr : Ends rest) (hr' : Ends rest')
    (h : s ++ rest = s' ++ rest') : s = s' ∧ rest = rest' := by
  have hlen : ∀ {s rest : Text}, PlainWord s → Ends rest →
      ((s ++ rest).takeWhile isPlain).length = s.length := by
    intro s rest hs hr
    rw [length_takeWhile_append hr, List.takeWhile_eq_self_iff.2 hs.2]
  -- both words are the longest run of plain bytes in front
  apply List.append_inj h
  rw [← hlen hs hr, h, hlen hs' hr']

theorem ends_close (rest : Text) : Ends (")" ++ rest) := by
  rintro b ⟨⟩
  decide

theorem ends_textOfRest (xs : List Tuple) (rest : Text) : Ends (textOfRest xs (")" ++ rest)) := by
  cases xs with
  | nil => exact ends_close rest
  | cons x xs =>
    rw [textOfRest]
    rintro b ⟨⟩
    decide

/-- A tuple starts with neither a space nor a closing parenthesis. -/
theorem textOnto_ne_close {x : Tuple} (hx : x.Plain) (rest rest' : Text) :
    x.textOnto rest ≠ ")" ++ rest' := by
  intro h
  cases x with
  | word s =>
    obtain ⟨b, s, rfl⟩ := List.exists_cons_of_ne_nil hx.1
    obtain ⟨rfl, -⟩ := List.cons.inj h
    exact absurd (hx.2 (ascii ')') List.mem_cons_self) (by decide)
  | group items =>
    obtain ⟨hbyte, -⟩ := List.cons.inj h
    exact absurd hbyte (by decide)

theorem word_ne_group (hs : PlainWord s) (rest rest' : Text) : s ++ rest ≠ "(" ++ rest' := by
  intro h
  obtain ⟨b, s, rfl⟩ := List.exists_cons_of_ne_nil hs.1
  obtain ⟨rfl, -⟩ := List.cons.inj h
  exact absurd (hs.2 (ascii '(') List.mem_cons_self) (by decide)

mutual

/-- The text of a tuple tells the tuple and where it ends. -/
theorem textOnto_injective : ∀ (x y : Tuple) (rest rest' : Text), x.Plain → y.Plain → Ends rest →
    Ends rest' → x.textOnto rest = y.textOnto rest' → x = y ∧ rest = rest'
  | .word s, .word s', rest, rest', hx, hy, hr, hr', h => by
    obtain ⟨rfl, rfl⟩ := word_injective hx hy hr hr' h
    exact ⟨rfl, rfl⟩
  | .word _, .group _, _, _, hx, _, _, _, h => absurd h (word_ne_group hx _ _)
  | .group _, .word _, _, _, _, hy, _, _, h => absurd h.symm (word_ne_group hy _ _)
  | .group xs, .group ys, rest, rest', hx, hy, _, _, h => by
    obtain ⟨rfl, rfl⟩ := textOfList_injective xs ys rest rest' hx hy (List.append_cancel_left h)
    exact ⟨rfl, rfl⟩

theorem textOfList_injective : ∀ (xs ys : List Tuple) (rest rest' : Text), PlainList xs →
    PlainList ys → textOfList xs (")" ++ rest) = textOfList ys (")" ++ rest') →
    xs = ys ∧ rest = rest'
  | [], [], _, _, _, _, h => ⟨rfl, List.append_cancel_left h⟩
  | [], y :: ys, _, _, _, hys, h => absurd h.symm (textOnto_ne_close hys.1 _ _)
  | x :: xs, [], _, _, hxs, _, h => absurd h (textOnto_ne_close hxs.1 _ _)
  | x :: xs, y :: ys, rest, rest', hxs, hys, h => by
    obtain ⟨rfl, hrest⟩ := textOnto_injective x y _ _ hxs.1 hys.1 (ends_textOfRest xs rest)
      (ends_textOfRest ys rest') h
    obtain ⟨rfl, rfl⟩ := textOfRest_injective xs ys rest rest' hxs.2 hys.2 hrest
    exact ⟨rfl, rfl⟩

theorem textOfRest_injective : ∀ (xs ys : List Tuple) (rest rest' : Text), PlainList xs →
    PlainList ys → textOfRest xs (")" ++ rest) = textOfRest ys (")" ++ rest') →
    xs = ys ∧ rest = rest'
  | [], [], _, _, _, _, h => ⟨rfl, List.append_cancel_left h⟩
  | [], y :: ys, _, _, _, _, h => absurd (List.cons.inj h).1 (by decide)
  | x :: xs, [], _, _, _, _, h => absurd (List.cons.inj h).1 (by decide)
  | x :: xs, y :: ys, rest, rest', hxs, hys, h => by
    obtain ⟨rfl, hrest⟩ := textOnto_injective x y _ _ hxs.1 hys.1 (ends_textOfRest xs rest)
      (ends_textOfRest ys rest') (List.append_cancel_left h)
    obtain ⟨rfl, rfl⟩ := textOfRest_injective xs ys rest rest' hxs.2 hys.2 hrest
    exact ⟨rfl, rfl⟩

end

end Tuple

/-- An expression without positions and without the spelling of its numbers. -/
def Expr.content : Expr → Expr
  | .missing => .missing
  | .number _ value _ => .number .nowhere value []
  | .boolean _ value => .boolean .nowhere value
  | .name n => .name n.bare
  | .binary _ op l r => .binary .nowhere op l.content r.content
  | .unary _ op e => .unary .nowhere op e.content

def Range.content (r : Range) : Range := ⟨r.start.content, r.stop.content, r.step.content⟩

namespace Stmt

mutual

def content : Stmt → Stmt
  | .missing => .missing
  | .assign _ target op value => .assign .nowhere target.bare op value.content
  | .eval _ e => .eval .nowhere e.content
  | .branch _ branches otherwise =>
    .branch .nowhere (contentOfBranches branches) (contentOfBody otherwise)
  | .whileLoop _ cond body => .whileLoop .nowhere cond.content (contentOfBody body)
  | .forLoop _ var range body => .forLoop .nowhere var.bare range.content (contentOfBody body)
  | .breakLoop _ => .breakLoop .nowhere
  | .continueLoop _ => .continueLoop .nowhere

def contentOfBody : Option (Block Stmt) → Option (Block Stmt)
  | none => none
  | some ⟨_, _, stmts⟩ => some ⟨.unknown, .unknown, contentOfList stmts⟩

def contentOfList : List Stmt → List Stmt
  | [] => []
  | s :: more => s.content :: contentOfList more

def contentOfBranches : List (Branch Stmt) → List (Branch Stmt)
  | [] => []
  | ⟨cond, body⟩ :: more => ⟨cond.content, contentOfBody body⟩ :: contentOfBranches more

end

end Stmt

def Program.content (p : Program) : Program := ⟨.nowhere, Stmt.contentOfList p.stmts⟩

/-- The word of a truth value. -/
def Keyword.ofBool (value : Bool) : Keyword := if value then .trueWord else .falseWord

def Expr.toTuple : Expr → Tuple
  | .missing => .word "nil"
  | .number _ value _ => .word (Decimal.leafText value)
  | .boolean _ value => .word (Keyword.ofBool value).spelling
  | .name n => .word n.text
  | .binary _ op l r => .group [.word op.symbol, l.toTuple, r.toTuple]
  | .unary _ op e => .group [.word (unaryTag op), e.toTuple]

def Range.toTuple (r : Range) : Tuple :=
  .group [.word "range", r.start.toTuple, r.stop.toTuple, r.step.toTuple]

namespace Stmt

mutual

def toTuple : Stmt → Tuple
  | .missing => .word "nil"
  | .assign _ target op value => .group [.word op.symbol, .word target.text, value.toTuple]
  | .eval _ e => .group [.word "expr", e.toTuple]
  | .branch _ branches otherwise =>
    .group (.word "if" :: tuplesOfBranches branches (tuplesOfElse otherwise))
  | .whileLoop _ cond body => .group [.word "while", cond.toTuple, .group (tuplesOfBody body)]
  | .forLoop _ var range body =>
    .group [.word "for", .word var.text, range.toTuple, .group (tuplesOfBody body)]
  | .breakLoop _ => .group [.word "break"]
  | .continueLoop _ => .group [.word "continue"]

def tuplesOfBody : Option (Block Stmt) → List Tuple
  | none => []
  | some ⟨_, _, stmts⟩ => tuplesOfList stmts

def tuplesOfElse : Option (Block Stmt) → List Tuple
  | none => []
  | some ⟨_, _, stmts⟩ => [.group [.word "else", .group (tuplesOfList stmts)]]

def tuplesOfList : List Stmt → List Tuple
  | [] => []
  | s :: more => s.toTuple :: tuplesOfList more

/-- The tuples of conditions and bodies in front of others. -/
def tuplesOfBranches : List (Branch Stmt) → List Tuple → List Tuple
  | [], tail => tail
  | ⟨cond, body⟩ :: more, tail =>
    .group [cond.toTuple, .group (tuplesOfBody body)] :: tuplesOfBranches more tail

end

end Stmt

def Program.toTuple (p : Program) : Tuple :=
  .group (.word "program" :: Stmt.tuplesOfList p.stmts)

theorem Expr.tupleOnto_eq (e : Expr) (rest : Text) :
    e.tupleOnto rest = e.toTuple.textOnto rest := by
  induction e generalizing rest with
  | missing | number | name => rfl
  | boolean span value => cases value <;> rfl
  | binary span op l r ihl ihr =>
    simp only [tupleOnto, toTuple, Tuple.textOnto, Tuple.textOfList, Tuple.textOfRest, ihl, ihr,
      List.append_assoc]
  | unary span op e ih =>
    simp only [tupleOnto, toTuple, Tuple.textOnto, Tuple.textOfList, Tuple.textOfRest, ih,
      List.append_assoc]

namespace Stmt

mutual

theorem tupleOnto_eq : ∀ (s : Stmt) (rest : Text), s.tupleOnto rest = s.toTuple.textOnto rest
  | .missing, _ => rfl
  | .assign _ target op value, rest => by
    simp only [tupleOnto, toTuple, Tuple.textOnto, Tuple.textOfList, Tuple.textOfRest,
      value.tupleOnto_eq, List.append_assoc]
  | .eval _ e, rest => by
    simp only [tupleOnto, toTuple, Tuple.textOnto, Tuple.textOfList, Tuple.textOfRest,
      e.tupleOnto_eq]
    rfl
  | .branch _ branches none, rest => by
    have h := tupleOfBranches_eq branches [] (")" ++ rest)
    exact congrArg (ofString "(if" ++ ·) h
  | .branch _ branches (some ⟨_, _, stmts⟩), rest => by
    have htail : Tuple.textOfRest [.group [.word "else", .group (tuplesOfList stmts)]]
        (")" ++ rest) = " (else (" ++ tupleOfList stmts (")))" ++ rest) := by
      rw [tupleOfList_eq stmts]
      rfl
    have h := tupleOfBranches_eq branches [.group [.word "else", .group (tuplesOfList stmts)]]
      (")" ++ rest)
    rw [htail] at h
    exact congrArg (ofString "(if" ++ ·) h
  | .whileLoop _ cond body, rest => by
    simp only [tupleOnto, toTuple, Tuple.textOnto, Tuple.textOfList, Tuple.textOfRest,
      cond.tupleOnto_eq, tupleOfBody_eq body]
    rfl
  | .forLoop _ var range body, rest => by
    simp only [tupleOnto, toTuple, Range.toTuple, Tuple.textOnto, Tuple.textOfList,
      Tuple.textOfRest, Expr.tupleOnto_eq, tupleOfBody_eq body, List.append_assoc]
    rfl
  | .breakLoop _, _ => rfl
  | .continueLoop _, _ => rfl

theorem tupleOfBody_eq : ∀ (b : Option (Block Stmt)) (rest : Text),
    tupleOfBody b rest = Tuple.textOfList (tuplesOfBody b) rest
  | none, _ => rfl
  | some ⟨_, _, stmts⟩, rest => tupleOfList_eq stmts rest

theorem tupleOfList_eq : ∀ (ss : List Stmt) (rest : Text),
    tupleOfList ss rest = Tuple.textOfList (tuplesOfList ss) rest
  | [], _ => rfl
  | s :: more, rest => by
    rw [tupleOfList, tuplesOfList, Tuple.textOfList, tupleOfRest_eq more, tupleOnto_eq s]

theorem tupleOfRest_eq : ∀ (ss : List Stmt) (rest : Text),
    tupleOfRest ss rest = Tuple.textOfRest (tuplesOfList ss) rest
  | [], _ => rfl
  | s :: more, rest => by
    rw [tupleOfRest, tuplesOfList, Tuple.textOfRest, tupleOfRest_eq more, tupleOnto_eq s]

theorem tupleOfBranches_eq : ∀ (bs : List (Branch Stmt)) (tail : List Tuple) (rest : Text),
    tupleOfBranches bs (Tuple.textOfRest tail rest) =
      Tuple.textOfRest (tuplesOfBranches bs tail) rest
  | [], _, _ => rfl
  | ⟨cond, body⟩ :: more, tail, rest => by
    simp only [tupleOfBranches, tuplesOfBranches, Tuple.textOfRest, Tuple.textOnto,
      Tuple.textOfList, tupleOfBranches_eq more, cond.tupleOnto_eq, tupleOfBody_eq body]
    rfl

end

end Stmt

theorem Program.tuple_eq (p : Program) : p.tuple = p.toTuple.textOnto [] := by
  rw [tuple, Stmt.tupleOfRest_eq]
  rfl

theorem Expr.toTuple_content (e : Expr) : e.content.toTuple = e.toTuple := by
  induction e with
  | missing | number | boolean | name => rfl
  | binary span op l r ihl ihr => rw [content, toTuple, toTuple, ihl, ihr]
  | unary span op e ih => rw [content, toTuple, toTuple, ih]

namespace Stmt

mutual

theorem toTuple_content : ∀ s : Stmt, s.content.toTuple = s.toTuple
  | .missing => rfl
  | .assign _ _ _ value => by rw [content, toTuple, toTuple, value.toTuple_content]; rfl
  | .eval _ e => by rw [content, toTuple, toTuple, e.toTuple_content]
  | .branch _ branches none => by
    rw [content, toTuple, toTuple, tuplesOfBranches_content branches]
    rfl
  | .branch _ branches (some ⟨_, _, stmts⟩) => by
    rw [content, toTuple, toTuple, tuplesOfBranches_content branches, contentOfBody, tuplesOfElse,
      tuplesOfElse, tuplesOfList_content stmts]
  | .whileLoop _ cond body => by
    rw [content, toTuple, toTuple, cond.toTuple_content, tuplesOfBody_content body]
  | .forLoop _ var range body => by
    rw [content, toTuple, toTuple, tuplesOfBody_content body, Range.content, Range.toTuple,
      Range.toTuple, Expr.toTuple_content, Expr.toTuple_content, Expr.toTuple_content]
    rfl
  | .breakLoop _ => rfl
  | .continueLoop _ => rfl

theorem tuplesOfBody_content : ∀ b : Option (Block Stmt),
    tuplesOfBody (contentOfBody b) = tuplesOfBody b
  | none => rfl
  | some ⟨_, _, stmts⟩ => tuplesOfList_content stmts

theorem tuplesOfList_content : ∀ ss : List Stmt, tuplesOfList (contentOfList ss) = tuplesOfList ss
  | [] => rfl
  | s :: more => by
    rw [contentOfList, tuplesOfList, tuplesOfList, toTuple_content s, tuplesOfList_content more]

theorem tuplesOfBranches_content : ∀ (bs : List (Branch Stmt)) (tail : List Tuple),
    tuplesOfBranches (contentOfBranches bs) tail = tuplesOfBranches bs tail
  | [], _ => rfl
  | ⟨cond, body⟩ :: more, tail => by
    rw [contentOfBranches, tuplesOfBranches, tuplesOfBranches, cond.toTuple_content,
      tuplesOfBody_content body, tuplesOfBranches_content more]

end

end Stmt

theorem Program.tuple_content (p : Program) : p.content.tuple = p.tuple := by
  rw [tuple_eq, tuple_eq, toTuple, toTuple, content, Stmt.tuplesOfList_content]

namespace Tuple

theorem isPlain_iff {b : UInt8} :
    isPlain b ↔ b ≠ ascii ' ' ∧ b ≠ ascii '(' ∧ b ≠ ascii ')' := by
  simp [isPlain, and_assoc]

theorem plainWord_of_identifier {s : Text} (h : Lexer.Identifier s) : PlainWord s := by
  have hbyte : ∀ b, isWordByte b → isPlain b := by
    intro b hb
    refine isPlain_iff.2 ⟨?_, ?_, ?_⟩ <;> rintro rfl <;> exact absurd hb (by decide)
  obtain ⟨hletter, hword⟩ := h
  refine ⟨List.cons_ne_nil _ _, List.forall_mem_cons.2 ⟨hbyte _ ?_, ?_⟩⟩
  · simp [isWordByte, hletter]
  · intro c hc
    exact hbyte c (hword c hc)

theorem plainWord_of_number {s : Text} (h : Lexer.Number s) : PlainWord s := by
  refine ⟨?_, fun b hb => ?_⟩
  · obtain ⟨b, rest, rfl, -⟩ := h.first
    exact List.cons_ne_nil b rest
  · rcases h.bytes b hb with hb | hb
    all_goals refine isPlain_iff.2 ⟨?_, ?_, ?_⟩ <;> rintro rfl <;> exact absurd hb (by decide)

end Tuple

namespace Decimal

variable {x : Float}

theorem plainWord_leafText (hx : IsNonNegative x) : Tuple.PlainWord (leafText x) := by
  rcases leafText_nonNegative hx with ⟨-, htext⟩ | ⟨m, e, -, -, htext⟩
  · rw [htext]
    exact ⟨by decide, by decide +kernel⟩
  · exact Tuple.plainWord_of_number htext.number

theorem not_identifier_leafText (hx : IsNonNegative x) : ¬ Lexer.Identifier (leafText x) := by
  rcases leafText_nonNegative hx with ⟨-, htext⟩ | ⟨m, e, -, -, htext⟩
  · rw [htext]
    decide +kernel
  · intro h
    obtain ⟨b, rest, hs, hb⟩ := htext.number.first
    rw [hs] at h
    obtain ⟨hletter, -⟩ := h
    rcases hb with hb | rfl
    · rw [Lexer.isDigit_of_isLetter hletter] at hb
      cases hb
    · exact absurd hletter (by decide)

end Decimal

theorem identifier_of_isName {s : Text} (h : IsName s) : Lexer.Identifier s :=
  Lexer.isIdentifier_iff.1 h.1

theorem plainWord_of_isName {s : Text} (h : IsName s) : Tuple.PlainWord s :=
  Tuple.plainWord_of_identifier (identifier_of_isName h)

theorem Keyword.plainWord_spelling (k : Keyword) : Tuple.PlainWord k.spelling :=
  Tuple.plainWord_of_identifier (Lexer.identifier_keyword k)

theorem leafText_ne_identifier {s raw : Text} {x : Float} (hx : IsNumeral raw x)
    (hs : Lexer.Identifier s) : Decimal.leafText x ≠ s := by
  rintro rfl
  exact Decimal.not_identifier_leafText (Decimal.isNonNegative_of_numeral hx) hs

theorem Keyword.spelling_injective {k k' : Keyword} (h : k.spelling = k'.spelling) : k = k' := by
  have hkind := Lexer.ofWord_spelling k
  rw [h, Lexer.ofWord_spelling] at hkind
  exact (Kind.keyword.inj hkind).symm

theorem IsName.ne_spelling {s : Text} (h : IsName s) (k : Keyword) : s ≠ k.spelling := by
  rintro rfl
  have hname : Kind.ofWord k.spelling = .name := h.2
  rw [Lexer.ofWord_spelling] at hname
  cases hname

theorem Op.symbol_injective {o o' : Op} (h : o.symbol = o'.symbol) : o = o' := by
  have hfind := o.find?_lexemes
  rw [h, o'.find?_lexemes] at hfind
  exact (Prod.mk.inj (Option.some.inj hfind)).2.symm

theorem Op.plainWord_symbol {o : Op} (h : o.isBinary ∨ o.isAssign) :
    Tuple.PlainWord o.symbol := by
  refine ⟨?_, List.all_eq_true.1 ?_⟩
  · obtain ⟨b, s, hs, -⟩ := o.symbol_eq_cons
    rw [hs]
    exact List.cons_ne_nil b s
  · rcases h with h | h <;> cases o <;> first | rfl | cases h

theorem plainWord_unaryTag {o : Op} (h : o.isSign) : Tuple.PlainWord (unaryTag (.op o)) := by
  cases o <;> first | exact ⟨List.cons_ne_nil _ _, List.all_eq_true.1 rfl⟩ | cases h

theorem unaryTag_injective {o o' : Op} (h : o.isSign) (h' : o'.isSign)
    (htag : unaryTag (.op o) = unaryTag (.op o')) : o = o' := by
  cases o <;> cases h <;> cases o' <;> cases h' <;> first | rfl | exact absurd htag (by decide)

namespace Expr

variable {e e' : Expr}

theorem plain_toTuple (he : e.WellFormed) : e.toTuple.Plain := by
  induction e with
  | missing => cases he
  | number span value raw =>
    exact Decimal.plainWord_leafText (Decimal.isNonNegative_of_numeral he)
  | boolean span value => exact Keyword.plainWord_spelling _
  | name n => exact plainWord_of_isName he
  | binary span op l r ihl ihr =>
    obtain ⟨⟨o, rfl, ho⟩, hl, hr⟩ := he
    exact ⟨Op.plainWord_symbol (Or.inl ho), ihl hl, ihr hr, trivial⟩
  | unary span op e ih =>
    obtain ⟨⟨o, rfl, ho⟩, he⟩ := he
    exact ⟨plainWord_unaryTag ho, ih he, trivial⟩

/-- The condition of a branch is never the word in front of the last one. -/
theorem toTuple_ne_else (he : e.WellFormed) : e.toTuple ≠ .word "else" := by
  intro h
  cases e with
  | missing => cases he
  | number span value raw =>
    exact leafText_ne_identifier he (Lexer.identifier_keyword .elseWord) (Tuple.word.inj h)
  | boolean span value =>
    have hword : Keyword.ofBool value = .elseWord :=
      Keyword.spelling_injective (Tuple.word.inj h)
    cases value <;> cases hword
  | name n => exact he.ne_spelling .elseWord (Tuple.word.inj h)
  | binary | unary => cases h

/-- The tuple of an expression tells its content. -/
theorem content_eq_of_toTuple (he : e.WellFormed) (he' : e'.WellFormed)
    (h : e.toTuple = e'.toTuple) : e.content = e'.content := by
  induction e generalizing e' with
  | missing => cases he
  | number span value raw =>
    cases e' with
    | missing => cases he'
    | number span' value' raw' =>
      obtain rfl := Decimal.leafText_injective (Decimal.isNonNegative_of_numeral he)
        (Decimal.isNonNegative_of_numeral he') (Tuple.word.inj h)
      rfl
    | boolean =>
      exact absurd (Tuple.word.inj h) (leafText_ne_identifier he (Lexer.identifier_keyword _))
    | name =>
      exact absurd (Tuple.word.inj h) (leafText_ne_identifier he (identifier_of_isName he'))
    | binary | unary => cases h
  | boolean span value =>
    cases e' with
    | missing => cases he'
    | number =>
      exact absurd (Tuple.word.inj h).symm
        (leafText_ne_identifier he' (Lexer.identifier_keyword _))
    | boolean span' value' =>
      have hword := Keyword.spelling_injective (Tuple.word.inj h)
      cases value <;> cases value' <;> first | rfl | cases hword
    | name => exact absurd (Tuple.word.inj h).symm (he'.ne_spelling _)
    | binary | unary => cases h
  | name n =>
    cases e' with
    | missing => cases he'
    | number =>
      exact absurd (Tuple.word.inj h).symm (leafText_ne_identifier he' (identifier_of_isName he))
    | boolean => exact absurd (Tuple.word.inj h) (he.ne_spelling _)
    | name n' => exact congrArg (fun text => Expr.name ⟨.nowhere, text⟩) (Tuple.word.inj h)
    | binary | unary => cases h
  | binary span op l r ihl ihr =>
    obtain ⟨⟨o, rfl, -⟩, hl, hr⟩ := he
    cases e' with
    | missing => cases he'
    | number | boolean | name => cases h
    | unary => simp [toTuple] at h
    | binary span' op' l' r' =>
      obtain ⟨⟨o', rfl, -⟩, hl', hr'⟩ := he'
      simp only [toTuple, Tuple.group.injEq, Tuple.word.injEq, List.cons.injEq, and_true] at h
      obtain ⟨hop, hleft, hright⟩ := h
      rw [content, content, Op.symbol_injective hop, ihl hl hl' hleft, ihr hr hr' hright]
  | unary span op e ih =>
    obtain ⟨⟨o, rfl, ho⟩, he⟩ := he
    cases e' with
    | missing => cases he'
    | number | boolean | name => cases h
    | binary => simp [toTuple] at h
    | unary span' op' e' =>
      obtain ⟨⟨o', rfl, ho'⟩, he'⟩ := he'
      simp only [toTuple, Tuple.group.injEq, Tuple.word.injEq, List.cons.injEq, and_true] at h
      obtain ⟨htag, hoperand⟩ := h
      rw [content, content, unaryTag_injective ho ho' htag, ih he he' hoperand]

end Expr

namespace Stmt

mutual

theorem plain_toTuple : ∀ s : Stmt, s.WellFormed → s.toTuple.Plain
  | .missing, hs => hs.elim
  | .assign _ _ _ _, ⟨htarget, hop, hvalue⟩ => by
    obtain ⟨o, rfl⟩ := Kind.eq_op_of_isAssign hop
    exact ⟨Op.plainWord_symbol (Or.inr hop), plainWord_of_isName htarget,
      Expr.plain_toTuple hvalue, trivial⟩
  | .eval _ _, he => ⟨Tuple.plainWord_of_identifier (by decide), Expr.plain_toTuple he, trivial⟩
  | .branch _ branches none, ⟨_, hbs, _⟩ =>
    ⟨Keyword.ifWord.plainWord_spelling, plain_tuplesOfBranches branches hbs trivial⟩
  | .branch _ branches (some ⟨_, _, stmts⟩), ⟨_, hbs, ho⟩ =>
    ⟨Keyword.ifWord.plainWord_spelling, plain_tuplesOfBranches branches hbs
      ⟨⟨Keyword.elseWord.plainWord_spelling, plain_tuplesOfList stmts ho, trivial⟩, trivial⟩⟩
  | .whileLoop _ _ body, ⟨hc, _, hb⟩ =>
    ⟨Keyword.whileWord.plainWord_spelling, Expr.plain_toTuple hc, plain_tuplesOfBody body hb,
      trivial⟩
  | .forLoop _ _ _ body, ⟨hvar, ⟨hstart, hstop, hstep⟩, _, hb⟩ =>
    ⟨Keyword.forWord.plainWord_spelling, plainWord_of_isName hvar,
      ⟨Keyword.rangeWord.plainWord_spelling, Expr.plain_toTuple hstart, Expr.plain_toTuple hstop,
        Expr.plain_toTuple hstep, trivial⟩, plain_tuplesOfBody body hb, trivial⟩
  | .breakLoop _, _ => ⟨Keyword.breakWord.plainWord_spelling, trivial⟩
  | .continueLoop _, _ => ⟨Keyword.continueWord.plainWord_spelling, trivial⟩

theorem plain_tuplesOfBody : ∀ b : Option (Block Stmt), WellFormedBody b →
    Tuple.PlainList (tuplesOfBody b)
  | none, _ => trivial
  | some ⟨_, _, stmts⟩, h => plain_tuplesOfList stmts h

theorem plain_tuplesOfList : ∀ ss : List Stmt, WellFormedList ss →
    Tuple.PlainList (tuplesOfList ss)
  | [], _ => trivial
  | s :: more, ⟨hs, hmore⟩ => ⟨plain_toTuple s hs, plain_tuplesOfList more hmore⟩

theorem plain_tuplesOfBranches : ∀ (bs : List (Branch Stmt)) {tail : List Tuple},
    WellFormedBranches bs → Tuple.PlainList tail → Tuple.PlainList (tuplesOfBranches bs tail)
  | [], _, _, htail => htail
  | ⟨_, body⟩ :: more, _, ⟨hc, ⟨_, hb⟩, hmore⟩, htail =>
    ⟨⟨Expr.plain_toTuple hc, plain_tuplesOfBody body hb, trivial⟩,
      plain_tuplesOfBranches more hmore htail⟩

end

/-- The forms of statements. -/
inductive Form where
  | missing | assign | eval | branch | whileLoop | forLoop | breakLoop | continueLoop

def form : Stmt → Form
  | .missing => .missing
  | .assign .. => .assign
  | .eval .. => .eval
  | .branch .. => .branch
  | .whileLoop .. => .whileLoop
  | .forLoop .. => .forLoop
  | .breakLoop _ => .breakLoop
  | .continueLoop _ => .continueLoop

/-- The form of a statement by the word in front of its tuple. -/
def Form.ofTuple : Tuple → Form
  | .group (.word tag :: _) =>
    if tag = "expr" then .eval
    else if tag = "if" then .branch
    else if tag = "while" then .whileLoop
    else if tag = "for" then .forLoop
    else if tag = "break" then .breakLoop
    else if tag = "continue" then .continueLoop
    else .assign
  | _ => .missing

theorem ofTuple_toTuple {s : Stmt} (hs : s.WellFormed) : Form.ofTuple s.toTuple = s.form := by
  cases s with
  | assign span target op value =>
    obtain ⟨o, rfl⟩ := Kind.eq_op_of_isAssign hs.2.1
    cases o <;> rfl
  | missing | eval | branch | whileLoop | forLoop | breakLoop | continueLoop => rfl

theorem form_eq_of_toTuple {s s' : Stmt} (hs : s.WellFormed) (hs' : s'.WellFormed)
    (h : s.toTuple = s'.toTuple) : s.form = s'.form := by
  rw [← ofTuple_toTuple hs, ← ofTuple_toTuple hs', h]

/-- What stands after the conditions of a chain. -/
def IsTail (tail : List Tuple) : Prop :=
  ∀ x ∈ tail.head?, ∃ items, x = .group (.word "else" :: items)

theorem isTail_tuplesOfElse (b : Option (Block Stmt)) : IsTail (tuplesOfElse b) := by
  rcases b with _ | ⟨opens, closes, stmts⟩
  · rintro x ⟨⟩
  · rintro x ⟨⟩
    exact ⟨_, rfl⟩

theorem branch_not_isTail {cond : Expr} (hc : cond.WellFormed) (items tuples : List Tuple) :
    ¬ IsTail (.group (cond.toTuple :: items) :: tuples) := by
  intro h
  obtain ⟨items', hitems⟩ := h _ rfl
  simp only [Tuple.group.injEq, List.cons.injEq] at hitems
  exact Expr.toTuple_ne_else hc hitems.1

mutual

/-- The tuple of a statement tells its content. -/
theorem content_eq_of_toTuple : ∀ s s' : Stmt, s.WellFormed → s'.WellFormed →
    s.toTuple = s'.toTuple → s.content = s'.content
  | .missing, _, hs, _, _ => hs.elim
  | .assign span target op value, s', hs, hs', h => by
    -- the word in front leaves one form for the other statement, here and below
    have hform := form_eq_of_toTuple hs hs' h
    cases s' with
    | assign span' target' op' value' =>
      obtain ⟨-, hop, hvalue⟩ := hs
      obtain ⟨-, hop', hvalue'⟩ := hs'
      obtain ⟨o, rfl⟩ := Kind.eq_op_of_isAssign hop
      obtain ⟨o', rfl⟩ := Kind.eq_op_of_isAssign hop'
      simp only [toTuple, Tuple.group.injEq, Tuple.word.injEq, List.cons.injEq, and_true] at h
      obtain ⟨hsymbol, htarget, htuple⟩ := h
      rw [content, content, Op.symbol_injective hsymbol, Name.bare_eq_of_text htarget,
        Expr.content_eq_of_toTuple hvalue hvalue' htuple]
    | _ => cases hform
  | .eval span e, s', hs, hs', h => by
    have hform := form_eq_of_toTuple hs hs' h
    cases s' with
    | eval span' e' =>
      simp only [toTuple, Tuple.group.injEq, List.cons.injEq, true_and, and_true] at h
      rw [content, content, Expr.content_eq_of_toTuple hs hs' h]
    | _ => cases hform
  | .branch span branches otherwise, s', hs, hs', h => by
    have hform := form_eq_of_toTuple hs hs' h
    cases s' with
    | branch span' branches' otherwise' =>
      obtain ⟨-, hbs, ho⟩ := hs
      obtain ⟨-, hbs', ho'⟩ := hs'
      simp only [toTuple, Tuple.group.injEq, List.cons.injEq, true_and] at h
      obtain ⟨hcontent, htail⟩ := content_eq_of_tuplesOfBranches branches branches' hbs hbs'
        (isTail_tuplesOfElse otherwise) (isTail_tuplesOfElse otherwise') h
      rw [content, content, hcontent, content_eq_of_tuplesOfElse otherwise otherwise' ho ho' htail]
    | _ => cases hform
  | .whileLoop span cond body, s', hs, hs', h => by
    have hform := form_eq_of_toTuple hs hs' h
    cases s' with
    | whileLoop span' cond' body' =>
      obtain ⟨hc, hsome, hb⟩ := hs
      obtain ⟨hc', hsome', hb'⟩ := hs'
      simp only [toTuple, Tuple.group.injEq, List.cons.injEq, true_and, and_true] at h
      obtain ⟨hcond, hbody⟩ := h
      rw [content, content, Expr.content_eq_of_toTuple hc hc' hcond,
        content_eq_of_tuplesOfBody body body' hsome hsome' hb hb' hbody]
    | _ => cases hform
  | .forLoop span var range body, s', hs, hs', h => by
    have hform := form_eq_of_toTuple hs hs' h
    cases s' with
    | forLoop span' var' range' body' =>
      obtain ⟨-, ⟨hstart, hstop, hstep⟩, hsome, hb⟩ := hs
      obtain ⟨-, ⟨hstart', hstop', hstep'⟩, hsome', hb'⟩ := hs'
      simp only [toTuple, Range.toTuple, Tuple.group.injEq, Tuple.word.injEq, List.cons.injEq,
        true_and, and_true] at h
      obtain ⟨hvar, ⟨htstart, htstop, htstep⟩, hbody⟩ := h
      rw [content, content, Name.bare_eq_of_text hvar, Range.content, Range.content,
        Expr.content_eq_of_toTuple hstart hstart' htstart,
        Expr.content_eq_of_toTuple hstop hstop' htstop,
        Expr.content_eq_of_toTuple hstep hstep' htstep,
        content_eq_of_tuplesOfBody body body' hsome hsome' hb hb' hbody]
    | _ => cases hform
  | .breakLoop _, s', hs, hs', h => by
    have hform := form_eq_of_toTuple hs hs' h
    cases s' with
    | breakLoop => rfl
    | _ => cases hform
  | .continueLoop _, s', hs, hs', h => by
    have hform := form_eq_of_toTuple hs hs' h
    cases s' with
    | continueLoop => rfl
    | _ => cases hform

theorem content_eq_of_tuplesOfBody : ∀ b b' : Option (Block Stmt), b.isSome → b'.isSome →
    WellFormedBody b → WellFormedBody b' → tuplesOfBody b = tuplesOfBody b' →
    contentOfBody b = contentOfBody b'
  | none, _, hsome, _, _, _, _ => nomatch hsome
  | _, none, _, hsome, _, _, _ => nomatch hsome
  | some ⟨_, _, stmts⟩, some ⟨_, _, stmts'⟩, _, _, hb, hb', h => by
    rw [contentOfBody, contentOfBody, content_eq_of_tuplesOfList stmts stmts' hb hb' h]

theorem content_eq_of_tuplesOfElse : ∀ b b' : Option (Block Stmt), WellFormedBody b →
    WellFormedBody b' → tuplesOfElse b = tuplesOfElse b' → contentOfBody b = contentOfBody b'
  | none, none, _, _, _ => rfl
  | none, some _, _, _, h => nomatch h
  | some _, none, _, _, h => nomatch h
  | some ⟨_, _, stmts⟩, some ⟨_, _, stmts'⟩, hb, hb', h => by
    simp only [tuplesOfElse, Tuple.group.injEq, List.cons.injEq, true_and, and_true] at h
    rw [contentOfBody, contentOfBody, content_eq_of_tuplesOfList stmts stmts' hb hb' h]

theorem content_eq_of_tuplesOfList : ∀ ss ss' : List Stmt, WellFormedList ss →
    WellFormedList ss' → tuplesOfList ss = tuplesOfList ss' → contentOfList ss = contentOfList ss'
  | [], [], _, _, _ => rfl
  | [], _ :: _, _, _, h => nomatch h
  | _ :: _, [], _, _, h => nomatch h
  | s :: more, s' :: more', ⟨hs, hmore⟩, ⟨hs', hmore'⟩, h => by
    obtain ⟨hstmt, hrest⟩ := List.cons.inj h
    rw [contentOfList, contentOfList, content_eq_of_toTuple s s' hs hs' hstmt,
      content_eq_of_tuplesOfList more more' hmore hmore' hrest]

theorem content_eq_of_tuplesOfBranches : ∀ (bs bs' : List (Branch Stmt)) {tail tail' : List Tuple},
    WellFormedBranches bs → WellFormedBranches bs' → IsTail tail → IsTail tail' →
    tuplesOfBranches bs tail = tuplesOfBranches bs' tail' →
    contentOfBranches bs = contentOfBranches bs' ∧ tail = tail'
  | [], [], _, _, _, _, _, _, h => ⟨rfl, h⟩
  | [], ⟨cond, body⟩ :: more, _, _, _, ⟨hc, _⟩, htail, _, h => by
    -- a condition is not the word `else`, so both chains end at the same place
    obtain rfl := h
    exact absurd htail (branch_not_isTail hc _ _)
  | ⟨cond, body⟩ :: more, [], _, _, ⟨hc, _⟩, _, _, htail', h => by
    obtain rfl := h
    exact absurd htail' (branch_not_isTail hc _ _)
  | ⟨cond, body⟩ :: more, ⟨cond', body'⟩ :: more', _, _, ⟨hc, ⟨hsome, hb⟩, hmore⟩,
      ⟨hc', ⟨hsome', hb'⟩, hmore'⟩, htail, htail', h => by
    simp only [tuplesOfBranches, Tuple.group.injEq, List.cons.injEq, and_true] at h
    obtain ⟨⟨hcond, hbody⟩, hrest⟩ := h
    obtain ⟨hcontent, htails⟩ :=
      content_eq_of_tuplesOfBranches more more' hmore hmore' htail htail' hrest
    refine ⟨?_, htails⟩
    rw [contentOfBranches, contentOfBranches, Expr.content_eq_of_toTuple hc hc' hcond,
      content_eq_of_tuplesOfBody body body' hsome hsome' hb hb' hbody, hcontent]

end

end Stmt

namespace Program

variable {p q : Program}

theorem plain_toTuple (hp : p.WellFormed) : p.toTuple.Plain :=
  ⟨Tuple.plainWord_of_identifier (by decide), Stmt.plain_tuplesOfList p.stmts hp⟩

theorem toTuple_eq_of_tuple (hp : p.WellFormed) (hq : q.WellFormed) (h : p.tuple = q.tuple) :
    p.toTuple = q.toTuple := by
  rw [tuple_eq, tuple_eq] at h
  have hend : Tuple.Ends [] := by rintro b ⟨⟩
  exact (Tuple.textOnto_injective _ _ _ _ (plain_toTuple hp) (plain_toTuple hq) hend hend h).1

/-- The tagged tuples of two programs that were read from sources are the same text exactly if the
programs are the same up to positions and the spelling of numbers: the same statements with the same
operators, names, truth values and values of numbers, and an `else` in one where it is in the other.
-/
theorem tuples_tell_programs_apart {a b : Text} (hp : Program.parse a = .ok p)
    (hq : Program.parse b = .ok q) : p.tuple = q.tuple ↔ p.content = q.content := by
  constructor
  · intro h
    have hwp := wellFormed_of_parse hp
    have hwq := wellFormed_of_parse hq
    have htuple := toTuple_eq_of_tuple hwp hwq h
    simp only [toTuple, Tuple.group.injEq, List.cons.injEq, true_and] at htuple
    rw [content, content, Stmt.content_eq_of_tuplesOfList p.stmts q.stmts hwp hwq htuple]
  · intro h
    rw [← p.tuple_content, h, q.tuple_content]

/-- A number in two spellings is the same, an empty `else` and none are not. -/
theorem empty_else_is_told_apart : ∃ p q r,
    Program.parse "if x: { y = 1.50 } else: {}" = .ok p ∧
    Program.parse "if x:{y=15e-1}\nelse:{}" = .ok q ∧
    Program.parse "if x: { y = 1.5 }" = .ok r ∧
      p.tuple = "(program (if (x ((= y 1.5))) (else ())))" ∧ p.content = q.content ∧
      r.tuple = "(program (if (x ((= y 1.5)))))" ∧ p.content ≠ r.content := by
  have hread : ∀ a t : Text, (Program.parse a).toOption.map Program.tuple = some t →
      ∃ p, Program.parse a = .ok p ∧ p.tuple = t := by
    intro a t h
    cases hp : Program.parse a with
    | error e =>
      rw [hp] at h
      cases h
    | ok p =>
      rw [hp] at h
      exact ⟨p, rfl, Option.some.inj h⟩
  obtain ⟨p, hp, hptuple⟩ := hread "if x: { y = 1.50 } else: {}"
    "(program (if (x ((= y 1.5))) (else ())))" (by decide +kernel)
  obtain ⟨q, hq, hqtuple⟩ := hread "if x:{y=15e-1}\nelse:{}"
    "(program (if (x ((= y 1.5))) (else ())))" (by decide +kernel)
  obtain ⟨r, hr, hrtuple⟩ := hread "if x: { y = 1.5 }"
    "(program (if (x ((= y 1.5)))))" (by decide +kernel)
  refine ⟨p, q, r, hp, hq, hr, hptuple, ?_, hrtuple, ?_⟩
  · exact (tuples_tell_programs_apart hp hq).1 (hptuple.trans hqtuple.symm)
  · intro h
    have htuple := (tuples_tell_programs_apart hp hr).2 h
    rw [hptuple, hrtuple] at htuple
    exact absurd htuple (by decide)

end Program

end ThreeAddress
