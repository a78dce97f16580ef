import ThreeAddress.Token

/-! Syntax trees. Every node keeps the span of source it was read from. A tree built by hand may
have gaps: an operand, a statement or a body that is missing. -/
namespace ThreeAddress

/-- An identifier at a place. -/
structure Name where
  span : Span
  text : Text

/-- Expressions. An operator is kept as the token kind it was written with. -/
inductive Expr where
  /-- An operand that is not there. -/
  | missing
  /-- A number: its value, and its text as written, which is empty if it was never written. -/
  | number (span : Span) (value : Float) (raw : Text)
  | boolean (span : Span) (value : Bool)
  | name (n : Name)
  | binary (span : Span) (op : Kind) (left right : Expr)
  | unary (span : Span) (op : Kind) (operand : Expr)

namespace Expr

def span : Expr → Span
  | .missing => ⟨.unknown, .unknown⟩
  | .number s .. => s
  | .boolean s _ => s
  | .name n => n.span
  | .binary s .. => s
  | .unary s .. => s

def start (e : Expr) : Pos := e.span.start

def stop (e : Expr) : Pos := e.span.stop

/-- An operation, which needs parentheses as an operand. -/
def isCompound : Expr → Bool
  | .binary .. | .unary .. => true
  | _ => false

def name? : Expr → Option Name
  | .name n => some n
  | _ => none

/-- The value of a number under any count of signs `+` and `-`. -/
def const? : Expr → Option Float
  | .number _ v _ => some v
  | .unary _ op e =>
    match e.const? with
    | none => none
    | some v =>
      if op = .op .plus then some v
      else if op = .op .minus then some (-v)
      else none
  | _ => none

/-- The names that an expression reads, from left to right. -/
def names : Expr → List Name
  | .name n => [n]
  | .binary _ _ l r => l.names ++ r.names
  | .unary _ _ e => e.names
  | _ => []

end Expr

/-- The arguments of `range`, with those that were left out filled in. -/
structure Range where
  start : Expr
  stop : Expr
  step : Expr

/-- Statements between braces; the positions are those of the two braces. -/
structure Block (σ : Type) where
  opens : Pos
  closes : Pos
  stmts : List σ

/-- A condition and what it guards. -/
structure Branch (σ : Type) where
  cond : Expr
  body : Option (Block σ)

/-- Statements. A body that is missing counts as an empty one. -/
inductive Stmt where
  /-- A statement that is not there. -/
  | missing
  | assign (span : Span) (target : Name) (op : Kind) (value : Expr)
  | eval (span : Span) (expr : Expr)
  | branch (span : Span) (branches : List (Branch Stmt)) (otherwise : Option (Block Stmt))
  | whileLoop (span : Span) (cond : Expr) (body : Option (Block Stmt))
  | forLoop (span : Span) (var : Name) (range : Range) (body : Option (Block Stmt))
  | breakLoop (span : Span)
  | continueLoop (span : Span)

namespace Stmt

def span : Stmt → Span
  | .missing => ⟨.unknown, .unknown⟩
  | .assign s .. => s
  | .eval s _ => s
  | .branch s .. => s
  | .whileLoop s .. => s
  | .forLoop s .. => s
  | .breakLoop s => s
  | .continueLoop s => s

def start (s : Stmt) : Pos := s.span.start

mutual

/-- Every name in a statement, read or written, in the order of the text. -/
def names : Stmt → List Name
  | .missing | .breakLoop _ | .continueLoop _ => []
  | .assign _ target _ value => target :: value.names
  | .eval _ e => e.names
  | .branch _ branches otherwise => namesOfBranches branches ++ namesOfBody otherwise
  | .whileLoop _ cond body => cond.names ++ namesOfBody body
  | .forLoop _ var range body =>
    var :: range.start.names ++ range.stop.names ++ range.step.names ++ namesOfBody body

def namesOfBody : Option (Block Stmt) → List Name
  | none => []
  | some ⟨_, _, stmts⟩ => namesOfList stmts

def namesOfList : List Stmt → List Name
  | [] => []
  | s :: rest => s.names ++ namesOfList rest

def namesOfBranches : List (Branch Stmt) → List Name
  | [] => []
  | ⟨cond, body⟩ :: rest => cond.names ++ namesOfBody body ++ namesOfBranches rest

end

end Stmt

/-- A whole program; the span runs from its first token to the end of the source. -/
structure Program where
  span : Span
  stmts : List Stmt

namespace Program

/-- Every name in a program, in the order of the text. -/
def names (p : Program) : List Name := Stmt.namesOfList p.stmts

end Program

/-- Any part of a program, as the root of a tree of its own. -/
inductive Tree where
  | absent
  | expr (e : Expr)
  | stmt (s : Stmt)
  | block (b : Block Stmt)
  | program (p : Program)

end ThreeAddress
