import ThreeAddress.Pos

/-! Tokens: their kinds, the spellings of the fixed ones, and the classes the grammar uses. -/
namespace ThreeAddress

/-- Operators and delimiters. -/
inductive Op where
  | plus | plusAssign | minus | minusAssign | times | timesAssign | over | overAssign | percent
  | assign | equal | notEqual | less | lessEqual | greater | greaterEqual
  | and | or | not
  | lparen | rparen | lbrace | rbrace | comma | semicolon | colon
deriving DecidableEq, Repr

namespace Op

/-- The spelling of an operator in generated code. The words `and`, `or` and `not` name the same
operators as `&&`, `||` and `!`. -/
def symbol : Op → Text
  | .plus => "+"
  | .plusAssign => "+="
  | .minus => "-"
  | .minusAssign => "-="
  | .times => "*"
  | .timesAssign => "*="
  | .over => "/"
  | .overAssign => "/="
  | .percent => "%"
  | .assign => "="
  | .equal => "=="
  | .notEqual => "!="
  | .less => "<"
  | .lessEqual => "<="
  | .greater => ">"
  | .greaterEqual => ">="
  | .and => "&&"
  | .or => "||"
  | .not => "!"
  | .lparen => "("
  | .rparen => ")"
  | .lbrace => "\x7b"
  | .rbrace => "\x7d"
  | .comma => ","
  | .semicolon => ";"
  | .colon => ":"

/-- Plain and compound assignment. -/
def isAssign : Op → Bool
  | .assign | .plusAssign | .minusAssign | .timesAssign | .overAssign => true
  | _ => false

/-- Comparisons and the two logical connectives, which share one level that does not chain. -/
def isRelational : Op → Bool
  | .equal | .notEqual | .less | .lessEqual | .greater | .greaterEqual | .and | .or => true
  | _ => false

/-- `+` and `-`. -/
def isAdditive : Op → Bool
  | .plus | .minus => true
  | _ => false

/-- `*`, `/` and `%`. -/
def isMultiplicative : Op → Bool
  | .times | .over | .percent => true
  | _ => false

/-- The operators that may stand in front of an operand. -/
def isSign : Op → Bool
  | .plus | .minus | .not => true
  | _ => false

end Op

/-- Reserved words of the source language. -/
inductive Keyword where
  | ifWord | elifWord | elseWord | whileWord | forWord | inWord | rangeWord
  | breakWord | continueWord | trueWord | falseWord
deriving DecidableEq, Repr

namespace Keyword

def spelling : Keyword → Text
  | .ifWord => "if"
  | .elifWord => "elif"
  | .elseWord => "else"
  | .whileWord => "while"
  | .forWord => "for"
  | .inWord => "in"
  | .rangeWord => "range"
  | .breakWord => "break"
  | .continueWord => "continue"
  | .trueWord => "True"
  | .falseWord => "False"

def all : List Keyword :=
  [.ifWord, .elifWord, .elseWord, .whileWord, .forWord, .inWord, .rangeWord,
   .breakWord, .continueWord, .trueWord, .falseWord]

def ofText? (s : Text) : Option Keyword := all.find? (·.spelling == s)

end Keyword

/-- The kind of a token. A token stream may carry kinds that the language does not name; they keep
their number and fit nowhere in the grammar. -/
inductive Kind where
  | illegal
  | eof
  | op (o : Op)
  | keyword (k : Keyword)
  | name
  | number
  | unnamed (code : UInt8)
deriving DecidableEq, Repr

namespace Kind

/-- The kind as messages call it. -/
def describe : Kind → Text
  | .illegal => "illegal"
  | .eof => "end of file"
  | .op o => o.symbol
  | .keyword k => k.spelling
  | .name => "name"
  | .number => "number"
  | .unnamed code => "token(" ++ Text.ofNat code.toNat ++ ")"

/-- The operator text in generated code; empty for what is no operator. -/
def symbol : Kind → Text
  | .op o => o.symbol
  | _ => []

def isOperator : Kind → Bool
  | .op _ => true
  | _ => false

def isKeyword : Kind → Bool
  | .keyword _ => true
  | _ => false

/-- Names and numbers. -/
def isLiteral : Kind → Bool
  | .name | .number => true
  | _ => false

def isAssign : Kind → Bool
  | .op o => o.isAssign
  | _ => false

/-- An assignment that also reads its target. -/
def isCompound (k : Kind) : Bool := k.isAssign && k != .op .assign

def isRelational : Kind → Bool
  | .op o => o.isRelational
  | _ => false

/-- The kind of an identifier: a keyword, a logical operator spelled as a word, or a name. -/
def ofWord (s : Text) : Kind :=
  match Keyword.ofText? s with
  | some k => .keyword k
  | none =>
    if s == "and" then .op .and
    else if s == "or" then .op .or
    else if s == "not" then .op .not
    else .name

end Kind

/-- A token: its kind, its text as written, and where it starts. -/
structure Token where
  kind : Kind
  text : Text
  pos : Pos
deriving DecidableEq, Repr

namespace Token

/-- The position just past the token. -/
def stop (t : Token) : Pos := t.pos.past t.text

def span (t : Token) : Span := ⟨t.pos, t.stop⟩

/-- The token as messages call it: as written, or by its kind when it has no text. -/
def describe (t : Token) : Text :=
  if t.kind = .eof then Kind.eof.describe
  else if t.text.isEmpty then t.kind.describe
  else t.text

end Token

end ThreeAddress
