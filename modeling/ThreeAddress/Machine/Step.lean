import ThreeAddress.Instr
import ThreeAddress.Store

/-! Instructions as a machine executes them: literals are read, operators known and jump targets
resolved to instruction numbers. -/
namespace ThreeAddress

/-- Why an instruction cannot be executed. -/
inductive Fault where
  | missingOperand
  /-- A variable is declared and has no value yet. -/
  | unassigned (name : Text)
  | undeclared (name : Text)
  | arith (e : ArithError)
  | unknownInstruction (code : UInt8)
  | stepLimit (steps : Nat)
deriving DecidableEq, Repr

namespace Fault

def message : Fault → Text
  | .missingOperand => "missing operand"
  | .unassigned name => "variable " ++ name.quote ++ " is read before it is assigned"
  | .undeclared name => "undeclared variable " ++ name.quote
  | .arith e => e.message
  | .unknownInstruction code => "unknown instruction " ++ (Action.unknown code).describe
  | .stepLimit steps => "step limit exceeded after " ++ Text.ofNat steps ++ " instructions"

def isStepLimit : Fault → Bool
  | .stepLimit _ => true
  | _ => false

end Fault

/-- An operand of a loaded instruction. -/
inductive Operand where
  | missing
  | literal (v : Value)
  /-- A text that starts like a number and is none. -/
  | malformed (e : ArithError)
  | name (n : Text)

namespace Operand

/-- An operand that starts like a number is one. -/
def isLiteral : Text → Bool
  | [] => false
  | b :: _ => b == Text.ascii '.' || Text.isDigit b

def ofText (x : Text) : Operand :=
  if x.isEmpty then .missing
  else if isLiteral x then
    match Value.ofLiteral x with
    | .ok v => .literal v
    | .error e => .malformed e
  else .name x

/-- The value of an operand. -/
def value (s : Store) : Operand → Except Fault Value
  | .missing => .error .missingOperand
  | .literal v => .ok v
  | .malformed e => .error (.arith e)
  | .name n =>
    match s.get? n with
    | some (some v) => .ok v
    | some none => .error (.unassigned n)
    | none => .error (.undeclared n)

end Operand

/-- How a loaded instruction finds a value. An operator that does not exist is an error only when it
is applied, after the operands have been read. -/
inductive Calculation where
  | copy (x : Operand)
  | unary (op : Except ArithError UnaryOp) (x : Operand)
  | binary (op : Except ArithError BinaryOp) (x y : Operand)
  /-- The value of a compound assignment, which reads its target after its operand. -/
  | update (op : Except ArithError BinaryOp) (target x : Operand)

namespace Calculation

def ofRhs : Rhs → Calculation
  | .copy x => .copy (.ofText x)
  | .unary op x => .unary (UnaryOp.read op) (.ofText x)
  | .binary x op y => .binary (BinaryOp.read op) (.ofText x) (.ofText y)

/-- What `dest op x` stores. A compound operator ends in `=`. -/
def ofStore (dest op x : Text) : Calculation :=
  if op == "=" then .copy (.ofText x)
  else .update (BinaryOp.read op.dropLast) (.ofText dest) (.ofText x)

/-- The result of applying a binary operator. -/
def apply (op : Except ArithError BinaryOp) (x y : Value) : Except Fault Value :=
  match op with
  | .error e => .error (.arith e)
  | .ok op =>
    match Value.binary op x y with
    | .ok v => .ok v
    | .error e => .error (.arith e)

def value (s : Store) : Calculation → Except Fault Value
  | .copy x => x.value s
  | .unary op x =>
    match x.value s with
    | .error f => .error f
    | .ok x =>
      match op with
      | .error e => .error (.arith e)
      | .ok op => .ok (Value.unary op x)
  | .binary op x y =>
    match x.value s with
    | .error f => .error f
    | .ok x =>
      match y.value s with
      | .error f => .error f
      | .ok y => apply op x y
  | .update op target x =>
    match x.value s with
    | .error f => .error f
    | .ok x =>
      match target.value s with
      | .error f => .error f
      | .ok current => apply op current x

end Calculation

/-- A loaded instruction. Jumps hold the number of the instruction that they go to. -/
inductive Step where
  | declare (name : Text)
  /-- Stores a value, into a variable that is declared before anything is read if `declares`. -/
  | assign (declares : Bool) (dest : Text) (value : Calculation)
  | jumpUnless (x : Operand) (target : Nat)
  | jumpIf (test : Calculation) (target : Nat)
  | jump (target : Nat)
  | label
  | unknown (code : UInt8)

/-- Where control goes after an instruction. -/
inductive Flow where
  | next
  | goto (target : Nat)

namespace Step

/-- An action as loaded, where `place` has the numbers of labels. -/
def ofAction (place : Text → Nat) : Action → Step
  | .declare _ name => .declare name
  | .compute _ dest rhs => .assign false dest (.ofRhs rhs)
  | .store type dest op x => .assign type.isSome dest (.ofStore dest op x)
  | .jumpUnless x target => .jumpUnless (.ofText x) (place target)
  | .jumpIf x op y target => .jumpIf (.ofRhs (.binary x op y)) (place target)
  | .jump target => .jump (place target)
  | .label _ => .label
  | .unknown code => .unknown code

/-- Executes an instruction on variables of the class `k`. -/
def exec (k : NumKind) (s : Store) : Step → Store × Except Fault Flow
  | .declare name => (s.declare name, .ok .next)
  | .assign declares dest calculation =>
    let s := if declares then s.declare dest else s
    match calculation.value s with
    | .ok v => (s.set dest (v.convert k), .ok .next)
    | .error f => (s, .error f)
  | .jumpUnless x target =>
    match x.value s with
    | .ok v => (s, .ok (if v.isTrue then .next else .goto target))
    | .error f => (s, .error f)
  | .jumpIf test target =>
    match test.value s with
    | .ok v => (s, .ok (if v.isTrue then .goto target else .next))
    | .error f => (s, .error f)
  | .jump target => (s, .ok (.goto target))
  | .label => (s, .ok .next)
  | .unknown code => (s, .error (.unknownInstruction code))

end Step

end ThreeAddress
