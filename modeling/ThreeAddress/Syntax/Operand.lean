import ThreeAddress.Syntax
import ThreeAddress.Syntax.Error
import ThreeAddress.Decimal.Reader

/-! Reading an expression token by token. Signs bind tightest, then products, sums, and at last one
level of comparisons and connectives that does not chain. What is read so far is kept as the left
operands that wait for their right one, one row of them for every open parenthesis. -/
namespace ThreeAddress

/-- The left operands and signs in front of the operand that is being read, up to the nearest open
parenthesis. -/
structure Pending where
  comparison : Option (Expr × Kind)
  sum : Option (Expr × Kind)
  product : Option (Expr × Kind)
  /-- Signs in front of the operand, the last one first. -/
  signs : List Token

namespace Pending

def none : Pending := ⟨.none, .none, .none, []⟩

/-- A waiting left operand joined with its right one. -/
def join : Option (Expr × Kind) → Expr → Expr
  | .none, right => right
  | some (left, op), right => .binary ⟨left.start, right.stop⟩ op left right

/-- The operand under its signs. -/
def signed (p : Pending) (e : Expr) : Expr :=
  p.signs.foldl (fun e sign => .unary ⟨sign.pos, e.stop⟩ sign.kind e) e

/-- The product that ends with the operand. -/
def factor (p : Pending) (e : Expr) : Expr := join p.product (p.signed e)

/-- The sum that ends with the operand. -/
def term (p : Pending) (e : Expr) : Expr := join p.sum (p.factor e)

/-- The whole expression that ends with the operand. -/
def whole (p : Pending) (e : Expr) : Expr := join p.comparison (p.term e)

end Pending

/-- An expression in the course of being read. -/
structure Reading where
  /-- What waits outside each open parenthesis, innermost first. -/
  outer : List Pending
  inner : Pending
  /-- The operand just read; if there is none, one has to come next. -/
  operand : Option Expr

/-- A token either belongs to the expression or shows that it is complete. -/
inductive Progress where
  | more (r : Reading)
  | whole (e : Expr)

/-- The kinds that can start an expression, as messages list them. -/
def operandStarts : List Text := ["number", "name", "True", "False", "(", "+", "-", "!"]

/-- The kinds that can start an expression. -/
def Kind.startsOperand : Kind → Bool
  | .number | .name => true
  | .keyword k => k == .trueWord || k == .falseWord
  | .op o => o == .lparen || o.isSign
  | _ => false

/-- An integer such as 010 that starts with 0 and is not all zeros. Generated code would read it as
octal. -/
def hasLeadingZeros (s : Text) : Bool :=
  2 ≤ s.length && s.head? == some (Text.ascii '0') && s.all Text.isDigit &&
    s.any (· != Text.ascii '0')

/-- The leaf of a number token. A number that is too large is infinite. -/
def numberLeaf (t : Token) : Except SyntaxError Expr :=
  if hasLeadingZeros t.text then .error ⟨t.pos, t.text, .leadingZeros t.text⟩
  else match Decimal.readFloat t.text with
    | none => .error ⟨t.pos, t.text, .badNumber t.text⟩
    | some reading => .ok (.number t.span reading.value t.text)

namespace Reading

/-- Nothing is read yet. -/
def start : Reading := ⟨[], .none, none⟩

/-- A token where an operand has to come. -/
def takeOperand (r : Reading) (t : Token) : Except SyntaxError Reading :=
  match t.kind with
  | .number => (numberLeaf t).map fun e => { r with operand := some e }
  | .name => .ok { r with operand := some (.name ⟨t.span, t.text⟩) }
  | .keyword .trueWord => .ok { r with operand := some (.boolean t.span true) }
  | .keyword .falseWord => .ok { r with operand := some (.boolean t.span false) }
  | .op .lparen => .ok ⟨r.inner :: r.outer, .none, none⟩
  | .op o =>
    if o.isSign then .ok { r with inner := { r.inner with signs := t :: r.inner.signs } }
    else .error (.expected t operandStarts)
  | _ => .error (.expected t operandStarts)

/-- A token that does not continue the expression within the present parentheses: it closes them, or
it is the first one after the whole expression. -/
def leave (r : Reading) (e : Expr) (t : Token) : Except SyntaxError Progress :=
  match r.outer with
  | [] => .ok (.whole (r.inner.whole e))
  | p :: outer =>
    if t.kind = .op .rparen then .ok (.more ⟨outer, p, some (r.inner.whole e)⟩)
    else .error (.expected t [Op.rparen.symbol])

/-- A token after the operand `e`. -/
def takeOperator (r : Reading) (e : Expr) (t : Token) : Except SyntaxError Progress :=
  match t.kind with
  | .op o =>
    if o.isMultiplicative then
      let inner := { r.inner with product := some (r.inner.factor e, t.kind), signs := [] }
      .ok (.more ⟨r.outer, inner, none⟩)
    else if o.isAdditive then
      let inner := ⟨r.inner.comparison, some (r.inner.term e, t.kind), none, []⟩
      .ok (.more ⟨r.outer, inner, none⟩)
    else if o.isRelational then
      match r.inner.comparison with
      | some (_, op) => .error ⟨t.pos, t.describe, .chained t.describe op⟩
      | none => .ok (.more ⟨r.outer, ⟨some (r.inner.term e, t.kind), none, none, []⟩, none⟩)
    else r.leave e t
  | _ => r.leave e t

/-- Takes in one token. -/
def step (r : Reading) (t : Token) : Except SyntaxError Progress :=
  match r.operand with
  | none => (r.takeOperand t).map .more
  | some e => r.takeOperator e t

end Reading

end ThreeAddress
