import ThreeAddress.Proofs.Bare
import ThreeAddress.Syntax.Parser

/-! The grammar of the language: which bare trees a sequence of words spells. Nothing here looks at
how words are read; levels of precedence are levels of the grammar. -/
namespace ThreeAddress.Grammar

/-- The levels of an expression, from the loosest to the tightest. -/
inductive Level where
  | expr | sum | product | signed | operand
deriving DecidableEq

/-- A number word and its value. Digits that start with 0 are a number only if all are 0; a
magnitude that is too large counts as infinite. -/
def IsNumber (w : Word) (value : Float) : Prop :=
  w.kind = .number ∧
    ¬ (w.text.all Text.isDigit ∧ w.text.head? = some (Text.ascii '0') ∧
      w.text.any (· != Text.ascii '0')) ∧
    ∃ reading, Decimal.readFloat w.text = some reading ∧ reading.value = value

/-- `Expression level ws e`: the words `ws` spell the expression `e` at the given level. -/
inductive Expression : Level → List Word → Expr → Prop
  | compare {ws vs : List Word} {w : Word} {o : Op} {l r : Expr} :
      Expression .sum ws l → w.kind = .op o → o.isRelational → Expression .sum vs r →
      Expression .expr (ws ++ w :: vs) (.binary .nowhere w.kind l r)
  | ofSum {ws : List Word} {e : Expr} : Expression .sum ws e → Expression .expr ws e
  | add {ws vs : List Word} {w : Word} {o : Op} {l r : Expr} :
      Expression .sum ws l → w.kind = .op o → o.isAdditive → Expression .product vs r →
      Expression .sum (ws ++ w :: vs) (.binary .nowhere w.kind l r)
  | ofProduct {ws : List Word} {e : Expr} : Expression .product ws e → Expression .sum ws e
  | multiply {ws vs : List Word} {w : Word} {o : Op} {l r : Expr} :
      Expression .product ws l → w.kind = .op o → o.isMultiplicative → Expression .signed vs r →
      Expression .product (ws ++ w :: vs) (.binary .nowhere w.kind l r)
  | ofSigned {ws : List Word} {e : Expr} : Expression .signed ws e → Expression .product ws e
  | sign {ws : List Word} {w : Word} {o : Op} {e : Expr} :
      w.kind = .op o → o.isSign → Expression .signed ws e →
      Expression .signed (w :: ws) (.unary .nowhere w.kind e)
  | ofOperand {ws : List Word} {e : Expr} : Expression .operand ws e → Expression .signed ws e
  | number {w : Word} {value : Float} : IsNumber w value →
      Expression .operand [w] (.number .nowhere value w.text)
  | name {w : Word} : w.kind = .name → Expression .operand [w] (.name ⟨.nowhere, w.text⟩)
  | true {w : Word} : w.kind = .keyword .trueWord →
      Expression .operand [w] (.boolean .nowhere true)
  | false {w : Word} : w.kind = .keyword .falseWord →
      Expression .operand [w] (.boolean .nowhere false)
  | parens {ws : List Word} {v w : Word} {e : Expr} :
      v.kind = .op .lparen → Expression .expr ws e → w.kind = .op .rparen →
      Expression .operand (v :: ws ++ [w]) e

/-- The target of an assignment: a name, in any number of parentheses. -/
inductive Target : List Word → Text → Prop
  | name {w : Word} : w.kind = .name → Target [w] w.text
  | parens {ws : List Word} {v w : Word} {x : Text} :
      v.kind = .op .lparen → Target ws x → w.kind = .op .rparen → Target (v :: ws ++ [w]) x

/-- The argument that a short call of `range` leaves out. -/
def implicit (value : Float) : Expr := (Parser.implicit .unknown value).bare

@[simp] theorem bare_implicit (word : Pos) (value : Float) :
    (Parser.implicit word value).bare = implicit value := rfl

/-- The arguments of `range`; a start that is left out is 0, and a step 1. -/
inductive Arguments : List Word → Range → Prop
  | one {ws : List Word} {stop : Expr} : Expression .expr ws stop →
      Arguments ws ⟨implicit 0, stop, implicit 1⟩
  | two {ws vs : List Word} {w : Word} {start stop : Expr} :
      Expression .expr ws start → w.kind = .op .comma → Expression .expr vs stop →
      Arguments (ws ++ w :: vs) ⟨start, stop, implicit 1⟩
  | three {ws vs us : List Word} {w v : Word} {start stop step : Expr} :
      Expression .expr ws start → w.kind = .op .comma → Expression .expr vs stop →
      v.kind = .op .comma → Expression .expr us step →
      Arguments (ws ++ w :: vs ++ v :: us) ⟨start, stop, step⟩

/-- An assignment or an expression, which a sign after it would continue. -/
def isSimple : Stmt → Bool
  | .assign .. | .eval .. => true
  | _ => false

/-- `+` or `-`. -/
def isSumSign (w : Word) : Bool :=
  match w.kind with
  | .op o => o.isAdditive
  | _ => false

/-- The words start with `+` or `-`. -/
def startsSigned (ws : List Word) : Bool := ws.head?.any isSumSign

@[simp] theorem startsSigned_cons (w : Word) (ws : List Word) :
    startsSigned (w :: ws) = isSumSign w := rfl

/-- What the words of a program spell, besides expressions. -/
inductive Phrase where
  | stmt (s : Stmt)
  /-- Statements one after the other; `simple` tells that an assignment or an expression comes last,
  with no semicolon after it. -/
  | stmts (simple : Bool) (ss : List Stmt)
  /-- Statements between braces. -/
  | block (b : Block Stmt)
  /-- An `if` with the `elif`s that follow it. -/
  | chain (branches : List (Branch Stmt))

/-- `Derives ws a`: the words `ws` spell the phrase `a`. -/
inductive Derives : List Word → Phrase → Prop
  | none : Derives [] (.stmts false [])
  | semicolon {ws : List Word} {w : Word} {simple : Bool} {ss : List Stmt} :
      Derives ws (.stmts simple ss) → w.kind = .op .semicolon →
      Derives (ws ++ [w]) (.stmts false ss)
  | snoc {ws vs : List Word} {simple : Bool} {ss : List Stmt} {s : Stmt} :
      Derives ws (.stmts simple ss) → Derives vs (.stmt s) →
      ¬ (simple ∧ startsSigned vs) →
      Derives (ws ++ vs) (.stmts (isSimple s) (ss ++ [s]))
  | block {ws : List Word} {v w : Word} {simple : Bool} {ss : List Stmt} :
      v.kind = .op .lbrace → Derives ws (.stmts simple ss) → w.kind = .op .rbrace →
      Derives (v :: ws ++ [w]) (.block ⟨.unknown, .unknown, ss⟩)
  | first {ws vs : List Word} {w v : Word} {cond : Expr} {b : Block Stmt} :
      w.kind = .keyword .ifWord → Expression .expr ws cond → v.kind = .op .colon →
      Derives vs (.block b) →
      Derives (w :: ws ++ v :: vs) (.chain [⟨cond, some b⟩])
  | next {us ws vs : List Word} {w v : Word} {cond : Expr} {b : Block Stmt}
      {bs : List (Branch Stmt)} :
      Derives us (.chain bs) → w.kind = .keyword .elifWord → Expression .expr ws cond →
      v.kind = .op .colon → Derives vs (.block b) →
      Derives (us ++ w :: ws ++ v :: vs) (.chain (bs ++ [⟨cond, some b⟩]))
  | branch {ws : List Word} {bs : List (Branch Stmt)} :
      Derives ws (.chain bs) → Derives ws (.stmt (.branch .nowhere bs none))
  | branchElse {us vs : List Word} {w v : Word} {bs : List (Branch Stmt)} {b : Block Stmt} :
      Derives us (.chain bs) → w.kind = .keyword .elseWord → v.kind = .op .colon →
      Derives vs (.block b) →
      Derives (us ++ w :: v :: vs) (.stmt (.branch .nowhere bs (some b)))
  | whileLoop {ws vs : List Word} {w v : Word} {cond : Expr} {b : Block Stmt} :
      w.kind = .keyword .whileWord → Expression .expr ws cond → v.kind = .op .colon →
      Derives vs (.block b) →
      Derives (w :: ws ++ v :: vs) (.stmt (.whileLoop .nowhere cond (some b)))
  | forLoop {ws vs : List Word} {word var inWord rangeWord opens closes colon : Word}
      {range : Range} {b : Block Stmt} :
      word.kind = .keyword .forWord → var.kind = .name → inWord.kind = .keyword .inWord →
      rangeWord.kind = .keyword .rangeWord → opens.kind = .op .lparen → Arguments ws range →
      closes.kind = .op .rparen → colon.kind = .op .colon → Derives vs (.block b) →
      Derives (word :: var :: inWord :: rangeWord :: opens :: ws ++ closes :: colon :: vs)
        (.stmt (.forLoop .nowhere ⟨.nowhere, var.text⟩ range (some b)))
  | breakLoop {w : Word} : w.kind = .keyword .breakWord →
      Derives [w] (.stmt (.breakLoop .nowhere))
  | continueLoop {w : Word} : w.kind = .keyword .continueWord →
      Derives [w] (.stmt (.continueLoop .nowhere))
  | assign {ws vs : List Word} {w : Word} {x : Text} {value : Expr} :
      Target ws x → w.kind.isAssign → Expression .expr vs value →
      Derives (ws ++ w :: vs) (.stmt (.assign .nowhere ⟨.nowhere, x⟩ w.kind value))
  | eval {ws : List Word} {e : Expr} : Expression .expr ws e →
      Derives ws (.stmt (.eval .nowhere e))

/-- The words spell the bare program `p`. -/
def Spells (ws : List Word) (p : Program) : Prop :=
  p.span = .nowhere ∧ ∃ simple, Derives ws (.stmts simple p.stmts)

end ThreeAddress.Grammar
