import ThreeAddress.Store
import ThreeAddress.Syntax.Printer

/-! What a program means, read off its tree: an interpreter that knows nothing of instructions,
labels or temporaries. -/
namespace ThreeAddress

/-- The values of the names of a program. -/
abbrev Env := Text → Option Value

def Env.set (σ : Env) (x : Text) (v : Value) : Env := fun y => if y = x then some v else σ y

namespace Expr

/-- The value of an expression over variables of the class `k`. Both operands of an operation are
evaluated, and its result is converted; a name without a value has none, and neither has an
operation that fails. -/
def eval (k : NumKind) (σ : Env) : Expr → Option Value
  | .missing => none
  | .number _ value raw => (Value.ofLiteral (numberText value raw)).toOption
  | .boolean _ value => some (.ofBool value)
  | .name n => σ n.text
  | .binary _ op l r => do
    let x ← l.eval k σ
    let y ← r.eval k σ
    let v ← (Value.applyBinary op.symbol x y).toOption
    return v.convert k
  | .unary _ op e => do
    let x ← e.eval k σ
    let v ← (Value.applyUnary op.symbol x).toOption
    return v.convert k

/-- A bound of a loop as it is kept while the loop runs: a variable is copied, and an operation
carried out once. A number is read where it is used, so that only then it can turn out bad. -/
def held (k : NumKind) (σ : Env) : Expr → Option (Option Value)
  | .number _ value raw => some (Value.ofLiteral (numberText value raw)).toOption
  | .name n => (σ n.text).map fun v => some (v.convert k)
  | e => (e.eval k σ).map some

/-- A leaf has nothing to compute; it is read where its value is used. -/
def computable (k : NumKind) (σ : Env) (e : Expr) : Bool := !e.isCompound || (e.eval k σ).isSome

/-- Only a literal step that is zero or negative counts down. -/
def countsDown (step : Expr) : Bool :=
  match step.const? with
  | some v => v <= 0
  | none => false

end Expr

/-- The operation that a compound assignment carries out. -/
def Op.updates? : Op → Option BinaryOp
  | .plusAssign => some .add
  | .minusAssign => some .sub
  | .timesAssign => some .mul
  | .overAssign => some .div
  | _ => none

/-- How a statement ends when it ends well. -/
inductive Signal where
  | next | breaks | continues
deriving DecidableEq, Repr

/-- What comes of running a statement. -/
inductive Outcome where
  | done (signal : Signal) (σ : Env)
  | failed
  /-- A loop was still running when the rounds it was given were used up. -/
  | unfinished

/-- What is still to do is done only after a statement that ends in the plain way. -/
def Outcome.andThen (rest : Env → Outcome) : Outcome → Outcome
  | .done .next σ => rest σ
  | other => other

/-- What comes of one round of a loop. -/
inductive Round where
  | again (σ : Env)
  | leave (σ : Env)
  | failed
  | unfinished

namespace Round

/-- Another round, unless what leads to it failed. -/
def next : Option Env → Round
  | some σ => .again σ
  | none => .failed

/-- The round with the given body, and `advance` to do before the next one. -/
def ofBody (advance : Env → Option Env) : Outcome → Round
  | .done .breaks σ => .leave σ
  | .done _ σ => next (advance σ)
  | .failed => .failed
  | .unfinished => .unfinished

/-- At most `n` rounds. -/
def iterate (round : Env → Round) : Nat → Env → Outcome
  | 0, _ => .unfinished
  | n + 1, σ =>
    match round σ with
    | .again σ => iterate round n σ
    | .leave σ => .done .next σ
    | .failed => .failed
    | .unfinished => .unfinished

end Round

namespace Stmt

variable (k : NumKind)

/-- The value that an assignment stores. -/
def assigned (σ : Env) (target : Text) (op : Kind) (value : Expr) : Option Value := do
  let v ← value.eval k σ
  match op with
  | .op .assign => return v.convert k
  | .op o => do
    let update ← o.updates?
    let current ← σ target
    let w ← (Value.binary update current v).toOption
    return w.convert k
  | _ => none

/-- A round of a loop that tests its condition. -/
def whileRound (cond : Expr) (body : Env → Outcome) (σ : Env) : Round :=
  match cond.eval k σ with
  | none => .failed
  | some v => if v.isTrue then .ofBody some (body σ) else .leave σ

/-- The next value of a counter. -/
def advance (var : Text) (step : Option Value) (σ : Env) : Option Env := do
  let d ← step
  let i ← σ var
  let v ← (Value.binary .add i d).toOption
  return σ.set var (v.convert k)

/-- A round of a loop that counts. -/
def forRound (var : Text) (down : Bool) (stop step : Option Value) (body : Env → Outcome)
    (σ : Env) : Round :=
  match σ var, stop with
  | some i, some last =>
    if (Value.compare i last).satisfies (if down then .lessEqual else .greaterEqual) then .leave σ
    else .ofBody (advance k var step) (body σ)
  | _, _ => .failed

variable (fuel : Nat)

mutual

/-- Runs a statement, every loop in it for at most `fuel` rounds. -/
def exec : Stmt → Env → Outcome
  | .missing, _ => .failed
  | .assign _ target op value, σ =>
    match assigned k σ target.text op value with
    | some v => .done .next (σ.set target.text v)
    | none => .failed
  | .eval _ e, σ => if e.computable k σ then .done .next σ else .failed
  | .branch _ branches otherwise, σ =>
    if branches.all (·.cond.computable k σ) then execChain branches (execBody otherwise) σ
    else .failed
  | .whileLoop _ cond body, σ => Round.iterate (whileRound k cond (execBody body)) fuel σ
  | .forLoop _ var range body, σ =>
    match range.start.eval k σ, range.stop.held k σ, range.step.held k σ with
    | some first, some stop, some step =>
      Round.iterate (forRound k var.text range.step.countsDown stop step (execBody body)) fuel
        (σ.set var.text (first.convert k))
    | _, _, _ => .failed
  | .breakLoop _, σ => .done .breaks σ
  | .continueLoop _, σ => .done .continues σ

def execBody : Option (Block Stmt) → Env → Outcome
  | none, σ => .done .next σ
  | some ⟨_, _, stmts⟩, σ => execList stmts σ

def execList : List Stmt → Env → Outcome
  | [], σ => .done .next σ
  | s :: rest, σ => (s.exec σ).andThen (execList rest)

/-- The first branch whose condition holds, or else `otherwise`. -/
def execChain : List (Branch Stmt) → (Env → Outcome) → Env → Outcome
  | [], otherwise, σ => otherwise σ
  | ⟨cond, body⟩ :: rest, otherwise, σ =>
    match cond.eval k σ with
    | none => .failed
    | some v => if v.isTrue then execBody body σ else execChain rest otherwise σ

end

end Stmt

/-- The values that the inputs of a program give its names; of two values for one name the later
counts. -/
def Env.ofInputs (k : NumKind) (inputs : List (Text × Float)) : Env :=
  inputs.foldl (fun σ (name, x) => σ.set name (Value.convert k (.float x))) fun _ => none

/-- Runs a program, every loop in it for at most `fuel` rounds. -/
def Program.interpret (k : NumKind) (inputs : List (Text × Float)) (fuel : Nat) (p : Program) :
    Outcome :=
  Stmt.execList k fuel p.stmts (.ofInputs k inputs)

end ThreeAddress
