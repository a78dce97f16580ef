import ThreeAddress.Syntax
import ThreeAddress.Decimal.Printer

/-! Trees as nested tagged tuples, such as `(= a (+ (neg b) 10))`. A tuple names the variant of its
node and leaves out positions and the spelling of numbers. -/
namespace ThreeAddress

/-- The tag of a unary operator, apart from the binary operator of the same spelling. -/
def unaryTag (op : Kind) : Text :=
  if op = .op .minus then "neg"
  else if op = .op .plus then "pos"
  else op.describe

namespace Expr

/-- The tuple of an expression in front of `rest`. -/
def tupleOnto : Expr → Text → Text
  | .missing, rest => "nil" ++ rest
  | .number _ value _, rest => Decimal.leafText value ++ rest
  | .boolean _ value, rest => (if value then "True" else "False") ++ rest
  | .name n, rest => n.text ++ rest
  | .binary _ op l r, rest =>
    "(" ++ op.symbol ++ " " ++ l.tupleOnto (" " ++ r.tupleOnto (")" ++ rest))
  | .unary _ op e, rest => "(" ++ unaryTag op ++ " " ++ e.tupleOnto (")" ++ rest)

def tuple (e : Expr) : Text := e.tupleOnto []

end Expr

namespace Stmt

mutual

/-- The tuple of a statement in front of `rest`. -/
def tupleOnto : Stmt → Text → Text
  | .missing, rest => "nil" ++ rest
  | .assign _ target op value, rest =>
    "(" ++ op.symbol ++ " " ++ target.text ++ " " ++ value.tupleOnto (")" ++ rest)
  | .eval _ e, rest => "(expr " ++ e.tupleOnto (")" ++ rest)
  | .branch _ branches otherwise, rest =>
    "(if" ++ tupleOfBranches branches
      (match otherwise with
        | none => ")" ++ rest
        | some ⟨_, _, stmts⟩ => " (else (" ++ tupleOfList stmts (")))" ++ rest))
  | .whileLoop _ cond body, rest =>
    "(while " ++ cond.tupleOnto (" (" ++ tupleOfBody body ("))" ++ rest))
  | .forLoop _ var range body, rest =>
    "(for " ++ var.text ++ " (range " ++ range.start.tupleOnto (" " ++ range.stop.tupleOnto (" " ++
      range.step.tupleOnto (") (" ++ tupleOfBody body ("))" ++ rest))))
  | .breakLoop _, rest => "(break)" ++ rest
  | .continueLoop _, rest => "(continue)" ++ rest

def tupleOfBody : Option (Block Stmt) → Text → Text
  | none, rest => rest
  | some ⟨_, _, stmts⟩, rest => tupleOfList stmts rest

/-- The tuples of statements with a space between neighbours. -/
def tupleOfList : List Stmt → Text → Text
  | [], rest => rest
  | s :: more, rest => s.tupleOnto (tupleOfRest more rest)

/-- The tuples of statements with a space before each. -/
def tupleOfRest : List Stmt → Text → Text
  | [], rest => rest
  | s :: more, rest => " " ++ s.tupleOnto (tupleOfRest more rest)

def tupleOfBranches : List (Branch Stmt) → Text → Text
  | [], rest => rest
  | ⟨cond, body⟩ :: more, rest =>
    " (" ++ cond.tupleOnto (" (" ++ tupleOfBody body ("))" ++ tupleOfBranches more rest))

end

end Stmt

def Program.tuple (p : Program) : Text := "(program" ++ Stmt.tupleOfRest p.stmts ")"

/-- The tuple of a tree. -/
def Tree.tuple : Tree → Text
  | .absent => "nil"
  | .expr e => e.tuple
  | .stmt s => s.tupleOnto []
  | .block b => "(" ++ Stmt.tupleOfList b.stmts ")"
  | .program p => p.tuple

end ThreeAddress
