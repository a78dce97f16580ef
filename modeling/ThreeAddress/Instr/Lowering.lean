import ThreeAddress.Instr
import ThreeAddress.Symbol
import ThreeAddress.Syntax.Printer

/-! Lowering a program to three-address instructions. Every operation gets a temporary of its own,
and all control flow becomes labels and jumps. -/
namespace ThreeAddress

namespace LoweringError

/-- Why a tree cannot be lowered. -/
inductive Cause where
  | breakOutsideLoop
  | continueOutsideLoop
  /-- A chain of conditions without any. -/
  | noBranch
  | missingStmt
  | missingExpr
deriving DecidableEq, Repr

end LoweringError

structure LoweringError where
  pos : Pos
  cause : LoweringError.Cause
deriving DecidableEq, Repr

namespace LoweringError

def message (e : LoweringError) : Text :=
  match e.cause with
  | .breakOutsideLoop => "break outside loop"
  | .continueOutsideLoop => "continue outside loop"
  | .noBranch => "if statement without a branch"
  | .missingStmt => "invalid line: unexpected statement type <nil>"
  | .missingExpr => "invalid expression: unexpected type <nil>"

/-- The message with the position in front, if it is known. -/
def render (file : Text) (e : LoweringError) : Text := e.pos.locate file e.message

end LoweringError

/-- How generated names and declarations look: the type of every variable, and what the numbered
names of temporaries and labels start with. -/
structure Scheme where
  type : Text
  tempStem : Text
  labelStem : Text
deriving DecidableEq, Repr

namespace Scheme

def default : Scheme := ⟨"float", "t", "l"⟩

/-- Empty parts take their default. -/
def filled (s : Scheme) : Scheme :=
  let pick (given other : Text) := if given.isEmpty then other else given
  ⟨pick s.type default.type, pick s.tempStem default.tempStem, pick s.labelStem default.labelStem⟩

end Scheme

/-- The names handed out in the course of lowering a program. -/
structure Names where
  symbols : SymbolTable
  /-- The number of the last temporary. -/
  lastTemp : Nat
  /-- The count of temporaries, which is less where numbers were passed over. -/
  temps : Nat
  labels : Nat

def Names.initial : Names := ⟨.empty, 0, 0, 0⟩

/-- The jump targets of a loop. -/
structure Loop where
  breakTo : Text
  continueTo : Text

/-- A generator of instructions, as its last run left it. -/
structure Generator where
  scheme : Scheme
  /-- The names that the last run handed out. -/
  names : Names
  /-- The loops around what is being lowered, innermost first. -/
  loops : List Loop
  /-- The names that temporaries avoid. -/
  reserved : List Text

/-- Lowering hands out names and may fail; a failure leaves the generator as it is at that point. -/
abbrev Lower (α : Type) := EStateM LoweringError Generator α

namespace Lower

/-- The first number from `n` on whose name is free, trying at most `fuel` numbers before it. One of
any `reserved.length + 1` numbers is free. -/
def freeNumber (stem : Text) (reserved : List Text) : Nat → Nat → Nat
  | 0, n => n
  | fuel + 1, n =>
    if reserved.contains (stem ++ Text.ofNat n) then freeNumber stem reserved fuel (n + 1) else n

/-- A temporary with a name that the source does not use. -/
def newTemp : Lower Text := do
  let g ← get
  let n := freeNumber g.scheme.tempStem g.reserved g.reserved.length (g.names.lastTemp + 1)
  set { g with names := { g.names with lastTemp := n, temps := g.names.temps + 1 } }
  return g.scheme.tempStem ++ Text.ofNat n

def newLabel : Lower Text := do
  let g ← get
  set { g with names := { g.names with labels := g.names.labels + 1 } }
  return g.scheme.labelStem ++ Text.ofNat (g.names.labels + 1)

/-- Declares a variable, and tells whether it is new. -/
def declare (n : Name) : Lower Bool := do
  let g ← get
  let (isNew, symbols) := g.names.symbols.declareIfAbsent n.text n.span.start
  set { g with names := { g.names with symbols := symbols } }
  return isNew

/-- The type of every variable. -/
def type : Lower Text := return (← get).scheme.type

/-- The innermost loop; outside of all loops lowering fails for the given reason. -/
def innermost (pos : Pos) (cause : LoweringError.Cause) : Lower Loop := do
  match (← get).loops with
  | [] => throw ⟨pos, cause⟩
  | loop :: _ => return loop

/-- Lowers what stands inside a loop. A failure does not leave the loop. -/
def inside {α : Type} (loop : Loop) (inner : Lower α) : Lower α := do
  modify fun g => { g with loops := loop :: g.loops }
  let a ← inner
  modify fun g => { g with loops := g.loops.tail }
  return a

/-- The instructions that compute an expression, and the operand that then holds its value. Both
sides of an operation are computed, the left one first. -/
def expr : Expr → Lower (List Instr × Text)
  | .missing => throw ⟨.unknown, .missingExpr⟩
  | .number _ value raw => return ([], numberText value raw)
  | .boolean _ value => return ([], if value then "1" else "0")
  | .name n => return ([], n.text)
  | .binary span op l r => do
    let (codeL, x) ← expr l
    let (codeR, y) ← expr r
    let t ← newTemp
    return (codeL ++ codeR ++ [⟨.compute (← type) t (.ofParts op.symbol x y), span.start⟩], t)
  | .unary span op e => do
    let (code, x) ← expr e
    let t ← newTemp
    return (code ++ [⟨.compute (← type) t (.ofParts op.symbol x []), span.start⟩], t)

/-- Copies a plain variable to a temporary, so that a bound of a loop keeps its value when the body
assigns to the variable. Numbers and temporaries never change. -/
def snapshot (e : Expr) (x : Text) : Lower (List Instr × Text) :=
  match e.name? with
  | none => return ([], x)
  | some n => do
    let t ← newTemp
    return ([⟨.compute (← type) t (.copy x), n.span.start⟩], t)

/-- A bound of a loop, computed once and kept. -/
def bound (e : Expr) : Lower (List Instr × Text) := do
  let (code, x) ← expr e
  let (copy, x) ← snapshot e x
  return (code ++ copy, x)

/-- The conditions of a chain, all computed in order. -/
def conditions : List (Branch Stmt) → Lower (List Instr × List Text)
  | [] => return ([], [])
  | b :: rest => do
    let (code, x) ← expr b.cond
    let (codes, xs) ← conditions rest
    return (code ++ codes, x :: xs)

/-- The comparison that ends a loop. Only a literal step that is zero or negative counts down. -/
def exitTest (step : Expr) : Text :=
  match step.const? with
  | some v => if v <= 0 then "<=" else ">="
  | none => ">="

mutual

/-- The instructions of a statement. -/
def stmt : Stmt → Lower (List Instr)
  | .missing => throw ⟨.unknown, .missingStmt⟩
  | .assign span target op value => do
    let (code, x) ← expr value
    let isNew ← declare target
    let type ← type
    if isNew && op = .op .assign then
      return code ++ [⟨.store (some type) target.text op.symbol x, span.start⟩]
    else if isNew then
      return code ++ [⟨.declare type target.text, span.start⟩,
        ⟨.store none target.text op.symbol x, span.start⟩]
    else return code ++ [⟨.store none target.text op.symbol x, span.start⟩]
  | .eval _ e => do
    let (code, _) ← expr e
    return code
  | .branch span branches otherwise =>
    if branches.isEmpty then throw ⟨span.start, .noBranch⟩
    else do
      let (code, conds) ← conditions branches
      let stop ← newLabel
      let clauses ← chain stop conds branches
      let last ← body otherwise
      return code ++ clauses ++ last ++ [⟨.label stop, span.start⟩]
  | .whileLoop span cond block => do
    let start ← newLabel
    let stop ← newLabel
    let (code, x) ← expr cond
    let inner ← inside ⟨stop, start⟩ (body block)
    return [⟨.label start, span.start⟩] ++ code ++ [⟨.jumpUnless x stop, cond.start⟩] ++ inner ++
      [⟨.jump start, span.start⟩, ⟨.label stop, span.start⟩]
  | .forLoop span var range block => do
    let (codeStart, first) ← expr range.start
    let (codeStop, last) ← bound range.stop
    let (codeStep, step) ← bound range.step
    let isNew ← declare var
    let type ← type
    let again ← newLabel
    let next ← newLabel
    let stop ← newLabel
    let inner ← inside ⟨stop, next⟩ (body block)
    let pos := span.start
    return codeStart ++ codeStop ++ codeStep ++
      [⟨.store (if isNew then some type else none) var.text "=" first, pos⟩, ⟨.label again, pos⟩,
        ⟨.jumpIf var.text (exitTest range.step) last stop, pos⟩] ++ inner ++
      [⟨.label next, pos⟩, ⟨.store none var.text "+=" step, pos⟩, ⟨.jump again, pos⟩,
        ⟨.label stop, pos⟩]
  | .breakLoop span => do
    let loop ← innermost span.start .breakOutsideLoop
    return [⟨.jump loop.breakTo, span.start⟩]
  | .continueLoop span => do
    let loop ← innermost span.start .continueOutsideLoop
    return [⟨.jump loop.continueTo, span.start⟩]

def body : Option (Block Stmt) → Lower (List Instr)
  | none => return []
  | some ⟨_, _, stmts⟩ => list stmts

def list : List Stmt → Lower (List Instr)
  | [] => return []
  | s :: rest => do
    let code ← stmt s
    let codes ← list rest
    return code ++ codes

/-- The clauses of a chain that ends at the label `stop`; `conds` holds the operands of their
conditions. -/
def chain (stop : Text) : List Text → List (Branch Stmt) → Lower (List Instr)
  | x :: xs, ⟨cond, block⟩ :: rest => do
    let next ← newLabel
    let inner ← body block
    let clauses ← chain stop xs rest
    let pos := cond.start
    return [⟨.jumpUnless x next, pos⟩] ++ inner ++ [⟨.jump stop, pos⟩, ⟨.label next, pos⟩] ++ clauses
  | _, _ => return []

end

end Lower

namespace Generator

def new (scheme : Scheme) : Generator := ⟨scheme.filled, .initial, [], []⟩

/-- Forgets the last run. -/
def reset (g : Generator) : Generator := { g with names := .initial, loops := [], reserved := [] }

/-- Makes temporaries avoid every name of a program. Only those that start like a temporary can be in
their way. -/
def reserve (g : Generator) (p : Program) : Generator :=
  { g with reserved := (p.names.map (·.text)).filter (g.scheme.tempStem.isPrefixOf ·) }

/-- Lowers a program with fresh names. -/
def generate (g : Generator) (p : Program) : Except LoweringError (List Instr) × Generator :=
  match (Lower.list p.stmts).run (g.reset.reserve p) with
  | .ok code g => (.ok code, g)
  | .error e g => (.error e, g)

end Generator

end ThreeAddress
