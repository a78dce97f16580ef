import ThreeAddress.Token
import ThreeAddress.Text.Quoted

/-! Syntax errors: where reading stopped, and why. -/
namespace ThreeAddress

namespace SyntaxError

/-- Why a token cannot be accepted where it stands. -/
inductive Cause where
  /-- The text is no token at all. -/
  | illegal (text : Text)
  /-- One of these kinds should have come. -/
  | expected (want : List Text)
  /-- Something other than a variable is assigned to. -/
  | notVariable
  /-- `range` got the wrong number of arguments. -/
  | rangeCount (count : Nat)
  /-- A comparison or connective follows another without parentheses. -/
  | chained (next : Text) (op : Kind)
  /-- An integer other than zero starts with 0. -/
  | leadingZeros (text : Text)
  | badNumber (text : Text)

end SyntaxError

/-- The first token that the grammar cannot accept. -/
structure SyntaxError where
  pos : Pos
  /-- The token as written, or its kind; empty if the error is about more than one token. -/
  got : Text
  cause : SyntaxError.Cause

namespace SyntaxError

/-- The error of a token in whose place one of the kinds `want` should have come. -/
def expected (t : Token) (want : List Text) : SyntaxError := ⟨t.pos, t.describe, .expected want⟩

/-- The kinds that would have been accepted, if they are known. -/
def want (e : SyntaxError) : List Text :=
  match e.cause with
  | .expected kinds => kinds
  | _ => []

def message (e : SyntaxError) : Text :=
  match e.cause with
  | .illegal text => "unexpected character " ++ text.quote
  | .expected [] => "unexpected " ++ e.got
  | .expected [kind] => "expected " ++ kind ++ ", got " ++ e.got
  | .expected kinds => "expected one of " ++ Text.join " " kinds ++ ", got " ++ e.got
  | .notVariable => "left side of assignment must be a variable"
  | .rangeCount count => "range expects 1 to 3 arguments, got " ++ Text.ofNat count
  | .chained next op => next ++ " cannot follow " ++ op.describe ++ " without parentheses"
  | .leadingZeros text =>
    "leading zeros in integer literal " ++ text.quote ++ " are not permitted"
  | .badNumber text => "invalid number " ++ text.quote

/-- The message with the position in front. -/
def render (file : Text) (e : SyntaxError) : Text := e.pos.locate file e.message

end SyntaxError

end ThreeAddress
