import ThreeAddress.Syntax
import ThreeAddress.Decimal.Printer

/-! Source text of a tree: one statement per line, four spaces a level, and every compound operand
in parentheses, so that no precedence is needed to read it. A text is built from its end, each part
in front of what follows it. -/
namespace ThreeAddress

/-- One level of indentation. -/
def indentUnit : Text := "    "

/-- The indentation of a line at the given depth. -/
def indentation (depth : Nat) : Text := (List.replicate depth indentUnit).flatten

/-- The text of a number: as it was written, or else the fewest digits that read back. -/
def numberText (value : Float) (raw : Text) : Text :=
  if raw.isEmpty then Decimal.leafText value else raw

namespace Expr

/-- What stands before an expression as an operand. -/
def opening (e : Expr) : Text := if e.isCompound then "(" else ""

/-- What stands after an expression as an operand. -/
def closing (e : Expr) : Text := if e.isCompound then ")" else ""

/-- The text of an expression in front of `rest`. -/
def printOnto : Expr → Text → Text
  | .missing, rest => "<nil>" ++ rest
  | .number _ value raw, rest => numberText value raw ++ rest
  | .boolean _ value, rest => (if value then "True" else "False") ++ rest
  | .name n, rest => n.text ++ rest
  | .binary _ op l r, rest =>
    l.opening ++ l.printOnto (l.closing ++ " " ++ op.symbol ++ " " ++ r.opening ++
      r.printOnto (r.closing ++ rest))
  | .unary _ op e, rest => op.symbol ++ e.opening ++ e.printOnto (e.closing ++ rest)

def print (e : Expr) : Text := e.printOnto []

end Expr

namespace Stmt

mutual

/-- A statement with its indentation and the line feed after it, in front of `rest`. -/
def printOnto (depth : Nat) : Stmt → Text → Text
  | .missing, rest => indentation depth ++ "<<nil>>\n" ++ rest
  | .assign _ target op value, rest =>
    indentation depth ++ target.text ++ " " ++ op.symbol ++ " " ++ value.printOnto ("\n" ++ rest)
  | .eval _ e, rest => indentation depth ++ e.printOnto ("\n" ++ rest)
  | .branch _ branches otherwise, rest =>
    indentation depth ++ printBranches depth "if " otherwise.isSome branches
      (match otherwise with
        | none => "\n" ++ rest
        | some ⟨_, _, stmts⟩ => indentation depth ++ "else: " ++ printBlock depth stmts ("\n" ++ rest))
  | .whileLoop _ cond body, rest =>
    indentation depth ++ "while " ++ cond.printOnto (": " ++ printBody depth body ("\n" ++ rest))
  | .forLoop _ var range body, rest =>
    indentation depth ++ "for " ++ var.text ++ " in range(" ++
      range.start.printOnto (", " ++ range.stop.printOnto (", " ++ range.step.printOnto ("): " ++
        printBody depth body ("\n" ++ rest))))
  | .breakLoop _, rest => indentation depth ++ "break\n" ++ rest
  | .continueLoop _, rest => indentation depth ++ "continue\n" ++ rest

def printBody (depth : Nat) : Option (Block Stmt) → Text → Text
  | none, rest => "\x7b \x7d" ++ rest
  | some ⟨_, _, stmts⟩, rest => printBlock depth stmts rest

/-- Statements between braces, in a line of the given depth. -/
def printBlock (depth : Nat) : List Stmt → Text → Text
  | [], rest => "\x7b \x7d" ++ rest
  | s :: more, rest =>
    "\x7b\n" ++ s.printOnto (depth + 1)
      (printList (depth + 1) more (indentation depth ++ "\x7d" ++ rest))

def printList (depth : Nat) : List Stmt → Text → Text
  | [], rest => rest
  | s :: more, rest => s.printOnto depth (printList depth more rest)

/-- The branches of a chain, each but the last on a line of its own. `word` introduces the first;
`more` tells that another clause follows the last. -/
def printBranches (depth : Nat) (word : Text) (more : Bool) : List (Branch Stmt) → Text → Text
  | [], rest => rest
  | ⟨cond, body⟩ :: others, rest =>
    word ++ cond.printOnto (": " ++ printBody depth body
      ((if more || !others.isEmpty then "\n" else "") ++
        printBranches depth (indentation depth ++ "elif ") more others rest))

end

end Stmt

namespace Tree

/-- The source text of a tree. -/
def print : Tree → Text
  | .absent => "<nil>"
  | .expr e => e.print
  | .stmt s => s.printOnto 0 []
  | .block b => Stmt.printBlock 0 b.stmts []
  | .program p => Stmt.printList 0 p.stmts []

end Tree

end ThreeAddress
