import ThreeAddress.Pos

/-! Three-address instructions and the line of C that each one stands for. Operands are names or
the text of numbers. -/
namespace ThreeAddress

/-- What a temporary is computed from: an operand, or one operation. -/
inductive Rhs where
  | copy (x : Text)
  | unary (op x : Text)
  | binary (x op y : Text)
deriving DecidableEq, Repr

namespace Rhs

/-- The computation with the given parts, those that are left out being empty. -/
def ofParts (op x y : Text) : Rhs :=
  if !y.isEmpty then .binary x op y
  else if !op.isEmpty then .unary op x
  else .copy x

def render : Rhs → Text
  | .copy x => x
  | .unary op x => op ++ x
  | .binary x op y => x ++ " " ++ op ++ " " ++ y

end Rhs

/-- What an instruction does. -/
inductive Action where
  /-- Declares a variable without a value. -/
  | declare (type name : Text)
  /-- Declares a temporary with the value of an operation. -/
  | compute (type dest : Text) (rhs : Rhs)
  /-- Stores into a variable with `=` or a compound operator; with a type, declares it too. -/
  | store (type : Option Text) (dest op x : Text)
  /-- Jumps when the operand is zero. -/
  | jumpUnless (x target : Text)
  /-- Jumps when the comparison holds. -/
  | jumpIf (x op y target : Text)
  | jump (target : Text)
  /-- Marks the place that jumps to `name` go to. -/
  | label (name : Text)
  /-- An operation that does not exist. -/
  | unknown (code : UInt8)
deriving DecidableEq, Repr

namespace Action

/-- The name of the operation in listings. -/
def describe : Action → Text
  | .declare .. => "Decl"
  | .compute .. => "Temp"
  | .store .. => "Assign"
  | .jumpUnless .. => "IfFalse"
  | .jumpIf .. => "IfCmp"
  | .jump _ => "Goto"
  | .label _ => "Label"
  | .unknown code => "Op(" ++ Text.ofNat code.toNat ++ ")"

/-- One line of C. The empty statement after a label keeps it legal when a declaration follows. -/
def render : Action → Text
  | .declare type name => type ++ " " ++ name ++ ";"
  | .compute type dest rhs => type ++ " " ++ dest ++ " = " ++ rhs.render ++ ";"
  | .store (some type) dest op x => type ++ " " ++ dest ++ " " ++ op ++ " " ++ x ++ ";"
  | .store none dest op x => dest ++ " " ++ op ++ " " ++ x ++ ";"
  | .jumpUnless x target => "if (!" ++ x ++ ") goto " ++ target ++ ";"
  | .jumpIf x op y target => "if (" ++ x ++ " " ++ op ++ " " ++ y ++ ") goto " ++ target ++ ";"
  | .jump target => "goto " ++ target ++ ";"
  | .label name => name ++ ": ;"
  | .unknown code => "/* " ++ describe (.unknown code) ++ " */"

/-- The name that is declared or stored into. -/
def writes? : Action → Option Text
  | .declare _ name => some name
  | .compute _ dest _ => some dest
  | .store _ dest _ _ => some dest
  | _ => none

/-- The label that control may go to. -/
def target? : Action → Option Text
  | .jumpUnless _ target => some target
  | .jumpIf _ _ _ target => some target
  | .jump target => some target
  | _ => none

/-- The label that is defined. -/
def label? : Action → Option Text
  | .label name => some name
  | _ => none

def isJump (a : Action) : Bool := a.target?.isSome

end Action

/-- An instruction, with the position in the source that it comes from. -/
structure Instr where
  action : Action
  pos : Pos
deriving DecidableEq, Repr

end ThreeAddress
