import ThreeAddress.Decimal.Printer
import ThreeAddress.Decimal.Reader
import ThreeAddress.Text.Blank
import ThreeAddress.Text.Quoted

/-! Numbers with the arithmetic of C: 64-bit integers that wrap around, and double-precision
floating-point numbers. -/
namespace ThreeAddress

/-- The arithmetic class of a C type. -/
inductive NumKind where
  | int
  | float
deriving DecidableEq, Repr

namespace NumKind

def describe : NumKind → Text
  | .int => "int"
  | .float => "float"

def floatWords : List Text := ["float", "double"]

def intWords : List Text :=
  List.map Text.ofString
  ["int", "long", "short", "char", "signed", "unsigned", "int8_t", "int16_t", "int32_t", "int64_t",
   "uint8_t", "uint16_t", "uint32_t", "uint64_t", "size_t"]

/-- The class of a type by its words; `none` if it is no arithmetic type. One floating word makes
the whole type floating. -/
def ofType? (type : Text) : Option NumKind :=
  let words := type.words
  if words.isEmpty || !words.all (fun w => floatWords.contains w || intWords.contains w) then none
  else if words.any floatWords.contains then some .float
  else some .int

end NumKind

/-- Why arithmetic has no result. -/
inductive ArithError where
  | divisionByZero
  /-- A remainder with a floating-point operand. -/
  | floatRemainder
  | unknownOperator (op : Text)
  | badLiteral (text : Text)
deriving DecidableEq, Repr

namespace ArithError

def message : ArithError → Text
  | .divisionByZero => "integer division by zero"
  | .floatRemainder => "invalid operands to %: floating point"
  | .unknownOperator op => "unknown operator " ++ op.quote
  | .badLiteral [] => "invalid numeric literal"
  | .badLiteral text => "invalid numeric literal: " ++ text

end ArithError

/-- Binary operators on values. -/
inductive BinaryOp where
  | add | sub | mul | div | rem
  | and | or
  | less | lessEqual | greater | greaterEqual | equal | notEqual
deriving DecidableEq, Repr

namespace BinaryOp

def symbol : BinaryOp → Text
  | .add => "+"
  | .sub => "-"
  | .mul => "*"
  | .div => "/"
  | .rem => "%"
  | .and => "&&"
  | .or => "||"
  | .less => "<"
  | .lessEqual => "<="
  | .greater => ">"
  | .greaterEqual => ">="
  | .equal => "=="
  | .notEqual => "!="

def all : List BinaryOp :=
  [.add, .sub, .mul, .div, .rem, .and, .or, .less, .lessEqual, .greater, .greaterEqual, .equal,
   .notEqual]

/-- The operator with the given symbol. -/
def read (s : Text) : Except ArithError BinaryOp :=
  match all.find? (·.symbol == s) with
  | some op => .ok op
  | none => .error (.unknownOperator s)

@[simp] theorem read_symbol (op : BinaryOp) : read op.symbol = .ok op := by
  cases op <;> rfl

theorem symbol_inj (op op' : BinaryOp) : op.symbol = op'.symbol ↔ op = op' := by
  refine ⟨fun h => ?_, congrArg symbol⟩
  have hread := congrArg read h
  rw [read_symbol, read_symbol] at hread
  exact Except.ok.inj hread

/-- A text is the symbol of one operator, or unknown. -/
theorem read_cases (s : Text) : (∃ op : BinaryOp, s = op.symbol) ∨
    (read s = .error (.unknownOperator s) ∧ ∀ op : BinaryOp, s ≠ op.symbol) := by
  cases h : all.find? (·.symbol == s) with
  | some op =>
    have hsymbol := List.find?_some h
    exact Or.inl ⟨op, (eq_of_beq hsymbol).symm⟩
  | none =>
    have hread : read s = .error (.unknownOperator s) := by rw [read, h]
    refine Or.inr ⟨hread, ?_⟩
    rintro op rfl
    rw [read_symbol] at hread
    cases hread

end BinaryOp

/-- Unary operators on values. -/
inductive UnaryOp where
  | plus | minus | not
deriving DecidableEq, Repr

namespace UnaryOp

def symbol : UnaryOp → Text
  | .plus => "+"
  | .minus => "-"
  | .not => "!"

def all : List UnaryOp := [.plus, .minus, .not]

/-- The operator with the given symbol. -/
def read (s : Text) : Except ArithError UnaryOp :=
  match all.find? (·.symbol == s) with
  | some op => .ok op
  | none => .error (.unknownOperator s)

end UnaryOp

/-- How two numbers compare; a NaN is unordered with everything. -/
inductive Comparison where
  | less | equal | greater | unordered
deriving DecidableEq, Repr

/-- The floating-point number nearest to an integer. -/
def nearestFloat (n : Int64) : Float :=
  if n < 0 then -(-n).toUInt64.toFloat else n.toUInt64.toFloat

/-- The integer part; what 64 bits cannot hold becomes the nearest bound, and a NaN zero. -/
def integerPart (x : Float) : Int64 :=
  -- a magnitude that 63 bits cannot hold turns out negative
  if x < 0 then
    let n := (-x).toUInt64.toInt64
    if n < 0 then .minValue else -n
  else
    let n := x.toUInt64.toInt64
    if n < 0 then .maxValue else n

/-- A number of either class. -/
inductive Value where
  | int (n : Int64)
  | float (x : Float)

namespace Value

/-- A truth value, as comparisons in C yield it. -/
def ofBool (b : Bool) : Value := .int (if b then 1 else 0)

def kind : Value → NumKind
  | .int _ => .int
  | .float _ => .float

def toFloat : Value → Float
  | .int n => nearestFloat n
  | .float x => x

def toInt : Value → Int64
  | .int n => n
  | .float x => integerPart x

/-- A number other than zero. -/
def isTrue : Value → Bool
  | .int n => n != 0
  | .float x => x != 0

/-- The value after a store into a variable of the class `k`. -/
def convert (k : NumKind) : Value → Value
  | .int n => match k with
    | .int => .int n
    | .float => .float (nearestFloat n)
  | .float x => match k with
    | .int => .int (integerPart x)
    | .float => .float x

@[simp] theorem kind_convert (k : NumKind) (v : Value) : (v.convert k).kind = k := by
  cases k <;> cases v <;> rfl

/-- The number as text. -/
def format : Value → Text
  | .int n => Text.ofInt n.toInt
  | .float x => Decimal.resultText x

/-- The number with its class. -/
def describe (v : Value) : Text :=
  let word : Text := match v.kind with
    | .int => "Int("
    | .float => "Float("
  word ++ v.format ++ ")"

/-- Compares two values, as floating-point numbers if either is one. -/
def compare : Value → Value → Comparison
  | .int a, .int b => if a < b then .less else if b < a then .greater else .equal
  | x, y =>
    let a := x.toFloat
    let b := y.toFloat
    if a < b then .less else if b < a then .greater else if a == b then .equal else .unordered

end Value

namespace Comparison

/-- Whether a comparison operator holds; of unordered numbers only `!=` does. -/
def satisfies (c : Comparison) : BinaryOp → Bool
  | .less => c == .less
  | .lessEqual => c == .less || c == .equal
  | .greater => c == .greater
  | .greaterEqual => c == .greater || c == .equal
  | .equal => c == .equal
  | _ => c != .equal

end Comparison

namespace Value

/-- Arithmetic on two integers. -/
def intArith (op : BinaryOp) (a b : Int64) : Except ArithError Value :=
  match op with
  | .add => .ok (.int (a + b))
  | .sub => .ok (.int (a - b))
  | .mul => .ok (.int (a * b))
  | .div => if b == 0 then .error .divisionByZero else .ok (.int (a / b))
  | .rem => if b == 0 then .error .divisionByZero else .ok (.int (a % b))
  | _ => .error (.unknownOperator op.symbol)

/-- Arithmetic on two floating-point numbers. -/
def floatArith (op : BinaryOp) (a b : Float) : Except ArithError Value :=
  match op with
  | .add => .ok (.float (a + b))
  | .sub => .ok (.float (a - b))
  | .mul => .ok (.float (a * b))
  | .div => .ok (.float (a / b))
  | .rem => .error .floatRemainder
  | _ => .error (.unknownOperator op.symbol)

/-- A binary operation. The operands are floating-point numbers if either of them is. -/
def binary (op : BinaryOp) (x y : Value) : Except ArithError Value :=
  match op with
  | .and => .ok (ofBool (x.isTrue && y.isTrue))
  | .or => .ok (ofBool (x.isTrue || y.isTrue))
  | .less | .lessEqual | .greater | .greaterEqual | .equal | .notEqual =>
    .ok (ofBool ((compare x y).satisfies op))
  | _ =>
    match x, y with
    | .int a, .int b => intArith op a b
    | _, _ => floatArith op x.toFloat y.toFloat

theorem intArith_eq_error_iff {op : BinaryOp} (h : op = .div ∨ op = .rem) {a b : Int64}
    {e : ArithError} : intArith op a b = .error e ↔ e = .divisionByZero ∧ b = 0 := by
  rcases h with rfl | rfl <;> by_cases hb : b = 0 <;> simp [intArith, hb, @eq_comm _ e]

/-- The two ways in which an operation fails. -/
theorem binary_eq_error_iff {op : BinaryOp} {x y : Value} {e : ArithError} :
    binary op x y = .error e ↔
      (e = .divisionByZero ∧ (op = .div ∨ op = .rem) ∧ (∃ a, x = .int a) ∧ y = .int 0) ∨
      (e = .floatRemainder ∧ op = .rem ∧ (x.kind = .float ∨ y.kind = .float)) := by
  cases op with
  | div | rem =>
    cases x with
    | int a =>
      cases y with
      | int b => simp [binary, kind, intArith_eq_error_iff]
      | float y => simp [binary, kind, floatArith, @eq_comm _ e]
    | float x => simp [binary, kind, floatArith, @eq_comm _ e]
  | _ => cases x <;> cases y <;> simp [binary, intArith, floatArith]

def unary (op : UnaryOp) (x : Value) : Value :=
  match op with
  | .plus => x
  | .minus => match x with
    | .int n => .int (-n)
    | .float f => .float (-f)
  | .not => ofBool (!x.isTrue)

/-- A binary operation by the text of its operator. -/
def applyBinary (op : Text) (x y : Value) : Except ArithError Value :=
  match BinaryOp.read op with
  | .ok o => binary o x y
  | .error e => .error e

@[simp] theorem applyBinary_symbol (op : BinaryOp) (x y : Value) :
    applyBinary op.symbol x y = binary op x y := by
  rw [applyBinary, BinaryOp.read_symbol]

/-- A unary operation by the text of its operator. -/
def applyUnary (op : Text) (x : Value) : Except ArithError Value :=
  match UnaryOp.read op with
  | .ok o => .ok (unary o x)
  | .error e => .error e

/-- A literal with a point or an exponent is floating. -/
def isFloatLiteral (s : Text) : Bool :=
  s.any fun b => b == Text.ascii '.' || b == Text.ascii 'e' || b == Text.ascii 'E'

/-- The value of a numeric literal as C reads it: without a point or exponent it is an integer,
octal if it starts with 0. -/
def ofLiteral (s : Text) : Except ArithError Value :=
  if isFloatLiteral s then
    match Decimal.readFloat s with
    | some reading => .ok (.float reading.value)
    | none => .error (.badLiteral s)
  else
    let number := match s with
      | z :: d :: rest =>
        if z == Text.ascii '0' then Decimal.readInt 8 (d :: rest) else Decimal.readInt 10 s
      | _ => Decimal.readInt 10 s
    match number with
    | some n => .ok (.int n)
    | none => .error (.badLiteral s)

end Value

end ThreeAddress
