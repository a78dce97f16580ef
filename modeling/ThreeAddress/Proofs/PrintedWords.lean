import ThreeAddress.Proofs.Relexing
import ThreeAddress.Syntax.Printer

/-! The words that a printed tree is lexed into. -/
namespace ThreeAddress

open Lexer Text

namespace Expr

/-- The words of an operand, from those of the expression. -/
def enclose (e : Expr) (ws : List Word) : List Word :=
  if e.isCompound then Op.lparen.word :: ws ++ [Op.rparen.word] else ws

def words : Expr → List Word
  | .missing => []
  | .number _ _ raw => [⟨.number, raw⟩]
  | .boolean _ value => [(if value then Keyword.trueWord else .falseWord).word]
  | .name n => [⟨.name, n.text⟩]
  | .binary _ op l r => l.enclose l.words ++ ⟨op, op.symbol⟩ :: r.enclose r.words
  | .unary _ op e => ⟨op, op.symbol⟩ :: e.enclose e.words

end Expr

namespace Stmt

mutual

def words : Stmt → List Word
  | .missing => []
  | .assign _ target op value => ⟨.name, target.text⟩ :: ⟨op, op.symbol⟩ :: value.words
  | .eval _ e => e.words
  | .branch _ branches otherwise =>
    wordsOfBranches .ifWord branches ++
      (if otherwise.isSome then Keyword.elseWord.word :: Op.colon.word :: wordsOfBody otherwise
        else [])
  | .whileLoop _ cond body =>
    Keyword.whileWord.word :: cond.words ++ Op.colon.word :: wordsOfBody body
  | .forLoop _ var range body =>
    Keyword.forWord.word :: ⟨.name, var.text⟩ :: Keyword.inWord.word :: Keyword.rangeWord.word ::
      Op.lparen.word :: (range.start.words ++ Op.comma.word :: range.stop.words ++
        Op.comma.word :: range.step.words) ++ Op.rparen.word :: Op.colon.word :: wordsOfBody body
  | .breakLoop _ => [Keyword.breakWord.word]
  | .continueLoop _ => [Keyword.continueWord.word]

def wordsOfBody : Option (Block Stmt) → List Word
  | none => [Op.lbrace.word, Op.rbrace.word]
  | some ⟨_, _, stmts⟩ => Op.lbrace.word :: wordsOfList stmts ++ [Op.rbrace.word]

def wordsOfList : List Stmt → List Word
  | [] => []
  | s :: rest => s.words ++ wordsOfList rest

/-- The words of a chain; `word` introduces the first branch. -/
def wordsOfBranches (word : Keyword) : List (Branch Stmt) → List Word
  | [] => []
  | ⟨cond, body⟩ :: rest =>
    word.word :: cond.words ++ Op.colon.word :: wordsOfBody body ++ wordsOfBranches .elifWord rest

end

end Stmt

theorem Lexer.wordsIn_indentation (depth : Nat) (rest : Text) :
    wordsIn (indentation depth ++ rest) = wordsIn rest := by
  refine wordsIn_gaps ?_ rest
  induction depth with
  | zero => rfl
  | succ depth ih =>
    rw [indentation, List.replicate_succ, List.flatten_cons, List.all_append, Bool.and_eq_true]
    exact ⟨by decide, ih⟩

theorem Text.apart_append {s : Text} (h : s.head?.any fun b => !isWordByte b && b != ascii '.')
    (rest : Text) : Apart (s ++ rest) := by
  cases s with
  | nil => simp at h
  | cons b s =>
    intro c hc
    obtain rfl : b = c := by simpa using hc
    simpa using h

theorem Op.not_followed {s : Text} (o : Op)
    (h : s.head?.any fun b => b != ascii '=' && b != ascii '/') (rest : Text) :
    ∀ b ∈ (s ++ rest).head?, b ∉ o.followers := by
  cases s with
  | nil => simp at h
  | cons b s =>
    intro c hc hf
    obtain rfl : b = c := by simpa using hc
    obtain rfl | rfl := mem_followers hf <;> simp at h

/-- A delimiter is no beginning of a longer operator. -/
def Op.isDelimiter : Op → Bool
  | .lparen | .rparen | .lbrace | .rbrace | .comma | .semicolon | .colon => true
  | _ => false

/-- What the fixed texts of the printer are made of. -/
inductive Piece where
  | gap (b : UInt8)
  | delimiter (o : Op)
  | keyword (k : Keyword)

namespace Piece

def text : Piece → Text
  | .gap b => [b]
  | .delimiter o => o.symbol
  | .keyword k => k.spelling

def words : Piece → List Word
  | .gap _ => []
  | .delimiter o => [o.word]
  | .keyword k => [k.word]

def isKeyword : Piece → Bool
  | .keyword _ => true
  | _ => false

/-- Gaps and delimiters are what they seem, and one of them comes after every keyword. -/
def Closed : List Piece → Bool
  | [] => true
  | .gap b :: ps => isGap b && Closed ps
  | .delimiter o :: ps => o.isDelimiter && Closed ps
  | .keyword _ :: ps => ps.head?.any (fun p => !p.isKeyword) && Closed ps

theorem apart_text {p : Piece} {ps : List Piece} (hk : p.isKeyword = false) (h : Closed (p :: ps))
    (rest : Text) : Apart (p.text ++ rest) := by
  cases p with
  | gap b =>
    simp only [Closed, isGap, Bool.and_eq_true, Bool.or_eq_true, beq_iff_eq] at h
    obtain ⟨((rfl | rfl) | rfl) | rfl, -⟩ := h <;> exact apart_append (by decide) rest
  | delimiter o =>
    refine apart_append ?_ rest
    cases o <;> decide
  | keyword k => simp [isKeyword] at hk

theorem wordsIn_flatMap (ps : List Piece) (h : Closed ps) (rest : Text) :
    wordsIn (ps.flatMap text ++ rest) = ps.flatMap words ++ wordsIn rest := by
  induction ps with
  | nil => rfl
  | cons p ps ih =>
    rw [List.flatMap_cons, List.append_assoc, List.flatMap_cons, List.append_assoc]
    cases p with
    | gap b =>
      rw [Closed, Bool.and_eq_true] at h
      rw [← ih h.2]
      exact wordsIn_gap h.1 _
    | delimiter o =>
      rw [Closed, Bool.and_eq_true] at h
      have hf : o.followers = [] := by
        cases o <;> first | rfl | exact absurd h.1 (by decide)
      rw [← ih h.2]
      exact wordsIn_symbol o (by simp [hf])
    | keyword k =>
      rw [Closed, Bool.and_eq_true] at h
      rw [← ih h.2]
      cases ps with
      | nil => simp at h
      | cons q ps =>
        have hq : q.isKeyword = false := by simpa using h.1
        refine wordsIn_keyword k ?_
        rw [List.flatMap_cons, List.append_assoc]
        exact apart_text hq h.2 _

/-- The words of a fixed text, whatever follows it. -/
theorem wordsIn_fixed (s : Text) (ps : List Piece) (hs : s = ps.flatMap text) (h : Closed ps)
    (rest : Text) : wordsIn (s ++ rest) = ps.flatMap words ++ wordsIn rest :=
  hs ▸ wordsIn_flatMap ps h rest

/-- A space. -/
def space : Piece := .gap (ascii ' ')

end Piece

open Piece (wordsIn_fixed space)

namespace Expr

variable {e : Expr} {rest : Text}

/-- What an operand starts with makes no longer operator of a sign in front of it. -/
theorem not_followed_opening (h : e.WellFormed) (o : Op) (rest : Text) :
    ∀ b ∈ (e.opening ++ e.printOnto rest).head?, b ∉ o.followers := by
  cases e with
  | missing => exact h.elim
  | number span value raw =>
    cases raw with
    | nil => exact absurd rfl h.1.1
    | cons b raw =>
      refine o.not_followed (s := b :: raw) ?_ rest
      obtain hb | rfl := starts_number h.1
      · have hne : b ≠ ascii '=' ∧ b ≠ ascii '/' := by
          constructor <;> rintro rfl <;> exact absurd hb (by decide)
        simpa using hne
      · rfl
  | boolean span value => cases value <;> exact o.not_followed (by decide) rest
  | name n =>
    obtain ⟨span, text⟩ := n
    cases text with
    | nil => exact absurd h.1 (by simp [isIdentifier])
    | cons b text =>
      refine o.not_followed (s := b :: text) ?_ rest
      have hb := isLetter_of_isIdentifier h.1
      have hne : b ≠ ascii '=' ∧ b ≠ ascii '/' := by
        constructor <;> rintro rfl <;> exact absurd hb (by decide)
      simpa using hne
  | binary span op l r => exact o.not_followed (s := "(") (by decide) _
  | unary span op e => exact o.not_followed (s := "(") (by decide) _

theorem wordsIn_enclosed (hr : Apart rest)
    (h : ∀ rest, Apart rest → wordsIn (e.printOnto rest) = e.words ++ wordsIn rest) :
    wordsIn (e.opening ++ e.printOnto (e.closing ++ rest)) = e.enclose e.words ++ wordsIn rest := by
  by_cases hc : e.isCompound
  · simp only [opening, closing, enclose, hc, if_true]
    rw [wordsIn_fixed "(" [.delimiter .lparen] rfl rfl, h _ (apart_append (by decide) rest),
      wordsIn_fixed ")" [.delimiter .rparen] rfl rfl]
    simp [Piece.words]
  · simp only [opening, closing, enclose, hc, if_false, Bool.false_eq_true]
    exact h rest hr

/-- The words of an expression that is followed by nothing that could continue it. -/
theorem wordsIn_printOnto (h : e.WellFormed) (hr : Apart rest) :
    wordsIn (e.printOnto rest) = e.words ++ wordsIn rest := by
  induction e generalizing rest with
  | missing => exact h.elim
  | number span value raw =>
    have hraw : numberText value raw = raw := by
      have hne := h.1.1
      simp_all [numberText]
    rw [printOnto, hraw, wordsIn_number h.1 hr]
    rfl
  | boolean span value =>
    cases value with
    | true => exact wordsIn_keyword .trueWord hr
    | false => exact wordsIn_keyword .falseWord hr
  | name n => exact wordsIn_name h hr
  | binary span op l r ihl ihr =>
    obtain ⟨⟨o, rfl, -⟩, hl, hr'⟩ := h
    simp only [printOnto, List.append_assoc]
    rw [wordsIn_enclosed (apart_append (by decide) _) (fun _ => ihl hl), wordsIn_gaps (by decide),
      Kind.symbol, wordsIn_symbol o (o.not_followed (by decide) _), wordsIn_gaps (by decide),
      wordsIn_enclosed hr (fun _ => ihr hr')]
    simp [words, Op.word, Kind.symbol]
  | unary span op e ih =>
    obtain ⟨⟨o, rfl, -⟩, he⟩ := h
    simp only [printOnto, List.append_assoc]
    rw [Kind.symbol, wordsIn_symbol o (not_followed_opening he o _),
      wordsIn_enclosed hr (fun _ => ih he)]
    simp [words, Op.word, Kind.symbol]

end Expr

theorem Kind.eq_op_of_isAssign {k : Kind} (h : k.isAssign) : ∃ o, k = .op o := by
  cases k with
  | op o => exact ⟨o, rfl⟩
  | _ => simp [Kind.isAssign] at h

namespace Stmt

mutual

/-- The words of a statement; its line feed keeps it apart from what follows. -/
theorem wordsIn_printOnto (depth : Nat) : ∀ (s : Stmt) (rest : Text), s.WellFormed →
    wordsIn (s.printOnto depth rest) = s.words ++ wordsIn rest
  | .missing, _, h => h.elim
  | .assign _ target op value, rest, ⟨hn, ho, hv⟩ => by
    obtain ⟨o, rfl⟩ := Kind.eq_op_of_isAssign ho
    simp only [printOnto, List.append_assoc]
    rw [wordsIn_indentation, wordsIn_name hn (apart_append (by decide) _),
      wordsIn_gaps (by decide), Kind.symbol, wordsIn_symbol o (o.not_followed (by decide) _),
      wordsIn_gaps (by decide), Expr.wordsIn_printOnto hv (apart_append (by decide) _),
      wordsIn_gaps (by decide)]
    simp [words, Op.word, Kind.symbol]
  | .eval _ e, rest, h => by
    rw [printOnto, wordsIn_indentation, Expr.wordsIn_printOnto h (apart_append (by decide) _),
      wordsIn_gaps (by decide)]
    rfl
  | .branch _ bs none, rest, ⟨_, hb, _⟩ => by
    rw [printOnto, wordsIn_indentation, wordsIn_printBranches depth _ bs "if " .ifWord _ hb
      (wordsIn_fixed "if " [.keyword .ifWord, space] rfl rfl), wordsIn_gaps (by decide)]
    simp [words]
  | .branch _ bs (some ⟨_, _, stmts⟩), rest, ⟨_, hb, ho⟩ => by
    simp only [printOnto, List.append_assoc]
    rw [wordsIn_indentation, wordsIn_printBranches depth _ bs "if " .ifWord _ hb
      (wordsIn_fixed "if " [.keyword .ifWord, space] rfl rfl), wordsIn_indentation,
      wordsIn_fixed "else: " [.keyword .elseWord, .delimiter .colon, space] rfl rfl,
      wordsIn_printBlock depth stmts _ ho, wordsIn_gaps (by decide)]
    simp [words, wordsOfBody, Piece.words, space]
  | .whileLoop _ cond body, rest, ⟨hc, _, hb⟩ => by
    simp only [printOnto, List.append_assoc]
    rw [wordsIn_indentation, wordsIn_fixed "while " [.keyword .whileWord, space] rfl rfl,
      Expr.wordsIn_printOnto hc (apart_append (by decide) _),
      wordsIn_fixed ": " [.delimiter .colon, space] rfl rfl, wordsIn_printBody depth body _ hb,
      wordsIn_gaps (by decide)]
    simp [words, Piece.words, space]
  | .forLoop _ var range body, rest, ⟨hn, ⟨h₁, h₂, h₃⟩, _, hb⟩ => by
    simp only [printOnto, List.append_assoc]
    rw [wordsIn_indentation, wordsIn_fixed "for " [.keyword .forWord, space] rfl rfl,
      wordsIn_name hn (apart_append (by decide) _),
      wordsIn_fixed " in range("
        [space, .keyword .inWord, space, .keyword .rangeWord, .delimiter .lparen] rfl rfl,
      Expr.wordsIn_printOnto h₁ (apart_append (by decide) _),
      wordsIn_fixed ", " [.delimiter .comma, space] rfl rfl,
      Expr.wordsIn_printOnto h₂ (apart_append (by decide) _),
      wordsIn_fixed ", " [.delimiter .comma, space] rfl rfl,
      Expr.wordsIn_printOnto h₃ (apart_append (by decide) _),
      wordsIn_fixed "): " [.delimiter .rparen, .delimiter .colon, space] rfl rfl,
      wordsIn_printBody depth body _ hb, wordsIn_gaps (by decide)]
    simp [words, Piece.words, space]
  | .breakLoop _, rest, _ => by
    rw [printOnto, List.append_assoc, wordsIn_indentation,
      wordsIn_fixed "break\n" [.keyword .breakWord, .gap lineFeed] rfl rfl]
    rfl
  | .continueLoop _, rest, _ => by
    rw [printOnto, List.append_assoc, wordsIn_indentation,
      wordsIn_fixed "continue\n" [.keyword .continueWord, .gap lineFeed] rfl rfl]
    rfl

theorem wordsIn_printBody (depth : Nat) : ∀ (b : Option (Block Stmt)) (rest : Text),
    WellFormedBody b → wordsIn (printBody depth b rest) = wordsOfBody b ++ wordsIn rest
  | none, rest, _ =>
    wordsIn_fixed "\x7b \x7d" [.delimiter .lbrace, space, .delimiter .rbrace] rfl rfl rest
  | some ⟨_, _, stmts⟩, rest, h => wordsIn_printBlock depth stmts rest h

theorem wordsIn_printBlock (depth : Nat) : ∀ (ss : List Stmt) (rest : Text), WellFormedList ss →
    wordsIn (printBlock depth ss rest) =
      Op.lbrace.word :: wordsOfList ss ++ [Op.rbrace.word] ++ wordsIn rest
  | [], rest, _ =>
    wordsIn_fixed "\x7b \x7d" [.delimiter .lbrace, space, .delimiter .rbrace] rfl rfl rest
  | s :: more, rest, ⟨hs, hm⟩ => by
    rw [printBlock, wordsIn_fixed "\x7b\n" [.delimiter .lbrace, .gap lineFeed] rfl rfl,
      wordsIn_printOnto (depth + 1) s _ hs, wordsIn_printList (depth + 1) more _ hm,
      List.append_assoc, wordsIn_indentation, wordsIn_fixed "\x7d" [.delimiter .rbrace] rfl rfl]
    simp [wordsOfList, Piece.words]

theorem wordsIn_printList (depth : Nat) : ∀ (ss : List Stmt) (rest : Text), WellFormedList ss →
    wordsIn (printList depth ss rest) = wordsOfList ss ++ wordsIn rest
  | [], _, _ => rfl
  | s :: more, rest, ⟨hs, hm⟩ => by
    rw [printList, wordsIn_printOnto depth s _ hs, wordsIn_printList depth more rest hm,
      wordsOfList, List.append_assoc]

theorem wordsIn_printBranches (depth : Nat) (more : Bool) : ∀ (bs : List (Branch Stmt))
    (lead : Text) (k : Keyword) (rest : Text), WellFormedBranches bs →
    (∀ rest, wordsIn (lead ++ rest) = k.word :: wordsIn rest) →
    wordsIn (printBranches depth lead more bs rest) = wordsOfBranches k bs ++ wordsIn rest
  | [], _, _, _, _, _ => rfl
  | ⟨cond, body⟩ :: others, lead, k, rest, ⟨hc, ⟨_, hb⟩, ho⟩, hlead => by
    have helif : ∀ rest, wordsIn ((indentation depth ++ "elif ") ++ rest) =
        Keyword.elifWord.word :: wordsIn rest := by
      intro rest
      rw [List.append_assoc, wordsIn_indentation]
      exact wordsIn_fixed "elif " [.keyword .elifWord, space] rfl rfl rest
    rw [printBranches, hlead, Expr.wordsIn_printOnto hc (apart_append (by decide) _),
      wordsIn_fixed ": " [.delimiter .colon, space] rfl rfl, wordsIn_printBody depth body _ hb,
      wordsIn_gaps (by split <;> decide),
      wordsIn_printBranches depth more others _ .elifWord rest ho helif]
    simp [wordsOfBranches, Piece.words, space]

end

end Stmt

theorem Tree.wordsIn_print {p : Program} (h : p.WellFormed) :
    wordsIn (Tree.print (.program p)) = Stmt.wordsOfList p.stmts := by
  simpa [Tree.print] using Stmt.wordsIn_printList 0 p.stmts [] h

end ThreeAddress
