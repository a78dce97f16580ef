import ThreeAddress.Proofs.Lexemes
import ThreeAddress.Proofs.Parsing

/-! What is known of every tree that was read from a source: no part is missing, every operator
fits its place, and names and numbers are lexemes. -/
namespace ThreeAddress

open Grammar

/-- A text that the lexer takes for a name. -/
def IsName (s : Text) : Prop := Word.Lexed ⟨.name, s⟩

/-- A text that the lexer takes for a number, with the value that the parser gives it. -/
def IsNumeral (s : Text) (value : Float) : Prop :=
  Word.Lexed ⟨.number, s⟩ ∧ IsNumber ⟨.number, s⟩ value

/-- The operators that join two operands. -/
def Op.isBinary (o : Op) : Bool := o.isRelational || o.isAdditive || o.isMultiplicative

def Expr.WellFormed : Expr → Prop
  | .missing => False
  | .number _ value raw => IsNumeral raw value
  | .boolean .. => True
  | .name n => IsName n.text
  | .binary _ op l r => (∃ o, op = .op o ∧ o.isBinary) ∧ l.WellFormed ∧ r.WellFormed
  | .unary _ op e => (∃ o, op = .op o ∧ o.isSign) ∧ e.WellFormed

def Range.WellFormed (r : Range) : Prop :=
  r.start.WellFormed ∧ r.stop.WellFormed ∧ r.step.WellFormed

namespace Stmt

mutual

def WellFormed : Stmt → Prop
  | .missing => False
  | .assign _ target op value => IsName target.text ∧ op.isAssign ∧ value.WellFormed
  | .eval _ e => e.WellFormed
  | .branch _ branches otherwise =>
    branches ≠ [] ∧ WellFormedBranches branches ∧ WellFormedBody otherwise
  | .whileLoop _ cond body => cond.WellFormed ∧ body.isSome ∧ WellFormedBody body
  | .forLoop _ var range body =>
    IsName var.text ∧ range.WellFormed ∧ body.isSome ∧ WellFormedBody body
  | .breakLoop _ => True
  | .continueLoop _ => True

def WellFormedBody : Option (Block Stmt) → Prop
  | none => True
  | some ⟨_, _, stmts⟩ => WellFormedList stmts

def WellFormedList : List Stmt → Prop
  | [] => True
  | s :: rest => s.WellFormed ∧ WellFormedList rest

def WellFormedBranches : List (Branch Stmt) → Prop
  | [] => True
  | ⟨cond, body⟩ :: rest =>
    cond.WellFormed ∧ (body.isSome ∧ WellFormedBody body) ∧ WellFormedBranches rest

end

theorem wellFormedList_append {ss rs : List Stmt} (hs : WellFormedList ss)
    (hr : WellFormedList rs) : WellFormedList (ss ++ rs) := by
  induction ss with
  | nil => exact hr
  | cons s rest ih => exact ⟨hs.1, ih hs.2⟩

theorem wellFormedBranches_append {bs cs : List (Branch Stmt)} (hb : WellFormedBranches bs)
    (hc : WellFormedBranches cs) : WellFormedBranches (bs ++ cs) := by
  induction bs with
  | nil => exact hc
  | cons b rest ih => exact ⟨hb.1, hb.2.1, ih hb.2.2⟩

end Stmt

variable {f : Pos → Pos}

@[simp] theorem Expr.wellFormed_relocate (e : Expr) : (e.relocate f).WellFormed ↔ e.WellFormed := by
  induction e <;> simp_all [relocate, WellFormed, Name.relocate]

theorem Range.wellFormed_relocate (r : Range) : (r.relocate f).WellFormed ↔ r.WellFormed := by
  simp [WellFormed, relocate]

namespace Stmt

theorem isSome_relocateBody (b : Option (Block Stmt)) : (relocateBody f b).isSome = b.isSome := by
  cases b <;> rfl

mutual

/-- Positions do not matter. -/
theorem wellFormed_of_relocate : ∀ s : Stmt, (s.relocate f).WellFormed → s.WellFormed
  | .missing, h => h
  | .assign _ _ _ value, ⟨hn, ho, hv⟩ => ⟨hn, ho, value.wellFormed_relocate.1 hv⟩
  | .eval _ e, h => e.wellFormed_relocate.1 h
  | .branch _ bs otherwise, ⟨hne, hbs, ho⟩ =>
    ⟨fun h => hne (by rw [h]; rfl), wellFormedBranches_of_relocate bs hbs,
      wellFormedBody_of_relocate otherwise ho⟩
  | .whileLoop _ cond body, ⟨hc, hs, hb⟩ =>
    ⟨cond.wellFormed_relocate.1 hc, isSome_relocateBody body ▸ hs,
      wellFormedBody_of_relocate body hb⟩
  | .forLoop _ _ range body, ⟨hn, hr, hs, hb⟩ =>
    ⟨hn, range.wellFormed_relocate.1 hr, isSome_relocateBody body ▸ hs,
      wellFormedBody_of_relocate body hb⟩
  | .breakLoop _, h => h
  | .continueLoop _, h => h

theorem wellFormedBody_of_relocate : ∀ b : Option (Block Stmt),
    WellFormedBody (relocateBody f b) → WellFormedBody b
  | none, h => h
  | some ⟨_, _, stmts⟩, h => wellFormedList_of_relocate stmts h

theorem wellFormedList_of_relocate : ∀ ss : List Stmt,
    WellFormedList (relocateList f ss) → WellFormedList ss
  | [], h => h
  | s :: rest, ⟨hs, hr⟩ => ⟨wellFormed_of_relocate s hs, wellFormedList_of_relocate rest hr⟩

theorem wellFormedBranches_of_relocate : ∀ bs : List (Branch Stmt),
    WellFormedBranches (relocateBranches f bs) → WellFormedBranches bs
  | [], h => h
  | ⟨cond, body⟩ :: rest, ⟨hc, ⟨hs, hb⟩, hr⟩ =>
    ⟨cond.wellFormed_relocate.1 hc,
      ⟨isSome_relocateBody body ▸ hs, wellFormedBody_of_relocate body hb⟩,
      wellFormedBranches_of_relocate rest hr⟩

end

end Stmt

namespace Grammar

variable {level : Level} {ws : List Word} {e : Expr}

theorem isName_of_lexed {w : Word} (hk : w.kind = .name) (hw : w.Lexed) : IsName w.text := by
  obtain ⟨kind, text⟩ := w
  obtain rfl : kind = .name := hk
  exact hw

theorem Expression.wellFormed (h : Expression level ws e) (hw : ∀ w ∈ ws, w.Lexed) :
    e.WellFormed := by
  induction h with
  | @compare ws vs w o l r _ hk ho _ ihl ihr =>
    exact ⟨⟨o, hk, by simp [Op.isBinary, ho]⟩, ihl (fun v hv => hw v (by simp [hv])),
      ihr (fun v hv => hw v (by simp [hv]))⟩
  | @add ws vs w o l r _ hk ho _ ihl ihr =>
    exact ⟨⟨o, hk, by simp [Op.isBinary, ho]⟩, ihl (fun v hv => hw v (by simp [hv])),
      ihr (fun v hv => hw v (by simp [hv]))⟩
  | @multiply ws vs w o l r _ hk ho _ ihl ihr =>
    exact ⟨⟨o, hk, by simp [Op.isBinary, ho]⟩, ihl (fun v hv => hw v (by simp [hv])),
      ihr (fun v hv => hw v (by simp [hv]))⟩
  | ofSum _ ih | ofProduct _ ih | ofSigned _ ih | ofOperand _ ih => exact ih hw
  | @sign ws w o e hk ho _ ih => exact ⟨⟨o, hk, ho⟩, ih (fun v hv => hw v (by simp [hv]))⟩
  | @number w value hn =>
    obtain ⟨kind, text⟩ := w
    obtain rfl : kind = .number := hn.1
    exact ⟨hw _ (by simp), hn⟩
  | name hk => exact isName_of_lexed hk (hw _ (by simp))
  | true | false => trivial
  | parens _ _ _ ih => exact ih (fun v hv => hw v (by simp [hv]))

theorem Target.isName {x : Text} (h : Target ws x) (hw : ∀ w ∈ ws, w.Lexed) : IsName x := by
  induction h with
  | name hk => exact isName_of_lexed hk (hw _ (by simp))
  | parens _ _ _ ih => exact ih (fun v hv => hw v (by simp [hv]))

theorem implicit_zero_wellFormed : (implicit 0).WellFormed :=
  ⟨⟨by decide, by decide⟩, rfl, by decide, _, rfl, rfl⟩

theorem implicit_one_wellFormed : (implicit 1).WellFormed :=
  ⟨⟨by decide, by decide⟩, rfl, by decide, _, rfl, rfl⟩

theorem Arguments.wellFormed {range : Range} (h : Arguments ws range) (hw : ∀ w ∈ ws, w.Lexed) :
    range.WellFormed := by
  cases h with
  | one h => exact ⟨implicit_zero_wellFormed, h.wellFormed hw, implicit_one_wellFormed⟩
  | two h₁ _ h₂ =>
    exact ⟨h₁.wellFormed (fun v hv => hw v (by simp [hv])),
      h₂.wellFormed (fun v hv => hw v (by simp [hv])), implicit_one_wellFormed⟩
  | three h₁ _ h₂ _ h₃ =>
    exact ⟨h₁.wellFormed (fun v hv => hw v (by simp [hv])),
      h₂.wellFormed (fun v hv => hw v (by simp [hv])),
      h₃.wellFormed (fun v hv => hw v (by simp [hv]))⟩

def Phrase.WellFormed : Phrase → Prop
  | .stmt s => s.WellFormed
  | .stmts _ ss => Stmt.WellFormedList ss
  | .block b => Stmt.WellFormedList b.stmts
  | .chain bs => bs ≠ [] ∧ Stmt.WellFormedBranches bs

theorem Derives.wellFormed {a : Phrase} (h : Derives ws a) (hw : ∀ w ∈ ws, w.Lexed) :
    a.WellFormed := by
  induction h with
  | none => trivial
  | semicolon _ _ ih => exact ih (fun v hv => hw v (by simp [hv]))
  | snoc _ _ _ ih ihx =>
    exact Stmt.wellFormedList_append (ih (fun v hv => hw v (by simp [hv])))
      ⟨ihx (fun v hv => hw v (by simp [hv])), trivial⟩
  | block _ _ _ ih => exact ih (fun v hv => hw v (by simp [hv]))
  | first _ he _ _ ih =>
    exact ⟨by simp, he.wellFormed (fun v hv => hw v (by simp [hv])),
      ⟨rfl, ih (fun v hv => hw v (by simp [hv]))⟩, trivial⟩
  | next _ _ he _ _ ihc ih =>
    have hc := ihc (fun v hv => hw v (by simp [hv]))
    exact ⟨by simp, Stmt.wellFormedBranches_append hc.2
      ⟨he.wellFormed (fun v hv => hw v (by simp [hv])),
        ⟨rfl, ih (fun v hv => hw v (by simp [hv]))⟩, trivial⟩⟩
  | branch _ ih =>
    have hc := ih hw
    exact ⟨hc.1, hc.2, trivial⟩
  | branchElse _ _ _ _ ihc ih =>
    have hc := ihc (fun v hv => hw v (by simp [hv]))
    exact ⟨hc.1, hc.2, ih (fun v hv => hw v (by simp [hv]))⟩
  | whileLoop _ he _ _ ih =>
    exact ⟨he.wellFormed (fun v hv => hw v (by simp [hv])), rfl,
      ih (fun v hv => hw v (by simp [hv]))⟩
  | @forLoop ws vs f v i r o p c range b _ hv _ _ _ ha _ _ _ ih =>
    have hname := (Target.name hv).isName (fun u hu => hw u (by simp_all))
    exact ⟨hname, ha.wellFormed (fun v hv => hw v (by simp [hv])), rfl,
      ih (fun v hv => hw v (by simp [hv]))⟩
  | breakLoop | continueLoop => trivial
  | assign ht ho he =>
    exact ⟨ht.isName (fun v hv => hw v (by simp [hv])), ho,
      he.wellFormed (fun v hv => hw v (by simp [hv]))⟩
  | eval he => exact he.wellFormed hw

end Grammar

def Program.WellFormed (p : Program) : Prop := Stmt.WellFormedList p.stmts

/-- A program that was read from a source is well formed. -/
theorem Program.wellFormed_of_parse {source : Text} {p : Program}
    (h : Program.parse source = .ok p) : p.WellFormed := by
  have hl : ∀ w ∈ (Token.tokenize source).map Token.word, w.Lexed := by
    intro w hw
    obtain ⟨t, ht, rfl⟩ := List.mem_map.1 hw
    exact Token.tokenize_lexed source t ht
  have ht : ∀ t ∈ Token.tokenize source, t.kind ≠ .eof :=
    fun t ht => (Token.tokenize_lexed source t ht).kind_ne_eof
  obtain ⟨-, simple, hd⟩ := Parser.spells_of_parseTokens ht h
  apply Stmt.wellFormedList_of_relocate
  rw [Stmt.relocateList_eq]
  exact hd.wellFormed hl

end ThreeAddress
