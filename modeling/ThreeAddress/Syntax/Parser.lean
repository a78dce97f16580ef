import ThreeAddress.Decimal.Printer
import ThreeAddress.Syntax.Operand
import ThreeAddress.Token.Lexer

/-! Reading a program token by token. The state between two tokens is the list of open blocks, the
statements of the innermost one, and what may come next; a token either leads to the next state or
is the first that no program can have in its place. -/
namespace ThreeAddress

namespace Parser

/-- What an expression is read for. Finished branches are kept in reverse. -/
inductive Purpose where
  /-- The start of an assignment or an expression statement. -/
  | simple
  /-- The right side of an assignment. -/
  | assigned (target : Name) (op : Kind)
  /-- A condition of a chain that starts at `start`. -/
  | guard (start : Pos) (done : List (Branch Stmt))
  | loopGuard (start : Pos)
  /-- An argument of `range`, after the arguments `args` in reverse. -/
  | bound (start : Pos) (var : Name) (word : Pos) (args : List Expr)

/-- The statement that a block belongs to. -/
inductive Owner where
  | branch (start : Pos) (done : List (Branch Stmt)) (cond : Expr)
  | otherwise (start : Pos) (done : List (Branch Stmt))
  | whileBody (start : Pos) (cond : Expr)
  | forBody (start : Pos) (var : Name) (range : Range)

/-- What has to come next. -/
inductive Phase where
  /-- A statement, or the end of the list of statements. -/
  | between
  /-- The rest of an expression. -/
  | expr (purpose : Purpose) (reading : Reading)
  | loopName (start : Pos)
  | loopIn (start : Pos) (var : Name)
  | loopRange (start : Pos) (var : Name)
  | rangeOpen (start : Pos) (var : Name) (word : Pos)
  | firstBound (start : Pos) (var : Name) (word : Pos)
  | loopColon (start : Pos) (var : Name) (range : Range)
  | elseColon (start : Pos) (done : List (Branch Stmt))
  | brace (owner : Owner)
  /-- After a branch that ended at `stop`: another clause, or whatever follows the chain. -/
  | afterBranch (start : Pos) (done : List (Branch Stmt)) (stop : Pos)

/-- A block that is not closed yet, with the statements that stood before it in reverse. -/
structure Open where
  owner : Owner
  opens : Pos
  before : List Stmt

structure State where
  /-- The open blocks, innermost first. -/
  blocks : List Open
  /-- The statements of the innermost block, in reverse. -/
  stmts : List Stmt
  phase : Phase

/-- The argument that a short call of `range` leaves out; it stands nowhere in the source. -/
def implicit (word : Pos) (value : Float) : Expr :=
  .number ⟨word, word⟩ value (Decimal.leafText value)

namespace State

def initial : State := ⟨[], [], .between⟩

/-- Goes on with another phase. -/
def enter (s : State) (phase : Phase) : State := { s with phase }

/-- Goes on with an expression. -/
def read (s : State) (purpose : Purpose) : State := s.enter (.expr purpose .start)

/-- Adds a finished statement to the innermost block. -/
def push (s : State) (stmt : Stmt) : State := ⟨s.blocks, stmt :: s.stmts, .between⟩

/-- Goes on with `phase` after a token of the kind `kind`, and accepts no other. -/
def expect (s : State) (kind : Kind) (t : Token) (phase : Phase) : Except SyntaxError State :=
  if t.kind = kind then .ok (s.enter phase) else .error (.expected t [kind.describe])

/-- Starts an expression with the token `t`. -/
def begin (s : State) (purpose : Purpose) (t : Token) : Except SyntaxError State :=
  (Reading.start.takeOperand t).map fun r => s.enter (.expr purpose r)

/-- Closes the block `b`, which is the innermost one, with the brace `t`. -/
def close (s : State) (b : Open) (blocks : List Open) (t : Token) : State :=
  let block : Block Stmt := ⟨b.opens, t.pos, s.stmts.reverse⟩
  let outer : State := ⟨blocks, b.before, .between⟩
  match b.owner with
  | .branch start done cond => outer.enter (.afterBranch start (⟨cond, block⟩ :: done) t.stop)
  | .otherwise start done => outer.push (.branch ⟨start, t.stop⟩ done.reverse block)
  | .whileBody start cond => outer.push (.whileLoop ⟨start, t.stop⟩ cond block)
  | .forBody start var range => outer.push (.forLoop ⟨start, t.stop⟩ var range block)

/-- A token between two statements. -/
def between (s : State) (t : Token) : Except SyntaxError State :=
  match t.kind with
  | .op .semicolon => .ok (s.enter .between)
  | .keyword .ifWord => .ok (s.read (.guard t.pos []))
  | .keyword .whileWord => .ok (s.read (.loopGuard t.pos))
  | .keyword .forWord => .ok (s.enter (.loopName t.pos))
  | .keyword .breakWord => .ok (s.push (.breakLoop t.span))
  | .keyword .continueWord => .ok (s.push (.continueLoop t.span))
  | kind =>
    match s.blocks with
    | [] =>
      if kind = .eof then .ok (s.enter .between)
      else if kind.startsOperand then s.begin .simple t
      else .error (.expected t ["statement"])
    | b :: blocks =>
      if kind = .op .rbrace then .ok (s.close b blocks t)
      else if kind = .eof then .error (.expected t [Op.rbrace.symbol])
      else if kind.startsOperand then s.begin .simple t
      else .error (.expected t ["statement"])

/-- The token `t` after the last argument of `range`; `args` holds the arguments in reverse. -/
def closeRange (s : State) (start : Pos) (var : Name) (word : Pos) (args : List Expr) (t : Token) :
    Except SyntaxError State :=
  let ready (range : Range) := s.expect (.op .rparen) t (.loopColon start var range)
  match args.reverse with
  | [stop] => ready ⟨implicit word 0, stop, implicit word 1⟩
  | [first, stop] => ready ⟨first, stop, implicit word 1⟩
  | [first, stop, step] => ready ⟨first, stop, step⟩
  | _ :: _ :: _ :: extra :: _ => .error ⟨extra.start, [], .rangeCount args.length⟩
  | [] => .error ⟨t.pos, t.describe, .rangeCount 0⟩

/-- The expression `e` is complete, and `t` is the token after it. -/
def complete (s : State) (purpose : Purpose) (e : Expr) (t : Token) : Except SyntaxError State :=
  match purpose with
  | .simple =>
    if t.kind.isAssign then
      match e.name? with
      | some target => .ok (s.read (.assigned target t.kind))
      | none => .error ⟨t.pos, t.describe, .notVariable⟩
    else (s.push (.eval e.span e)).between t
  | .assigned target op => (s.push (.assign ⟨target.span.start, e.stop⟩ target op e)).between t
  | .guard start done => s.expect (.op .colon) t (.brace (.branch start done e))
  | .loopGuard start => s.expect (.op .colon) t (.brace (.whileBody start e))
  | .bound start var word args =>
    if t.kind = .op .comma then .ok (s.read (.bound start var word (e :: args)))
    else s.closeRange start var word (e :: args) t

/-- Takes in one token. The end of the source is a token too; it leaves the state of a program that
is complete. -/
def step (s : State) (t : Token) : Except SyntaxError State :=
  if t.kind = .illegal then .error ⟨t.pos, t.text, .illegal t.text⟩
  else match s.phase with
    | .between => s.between t
    | .expr purpose reading =>
      match reading.step t with
      | .error e => .error e
      | .ok (.more r) => .ok (s.enter (.expr purpose r))
      | .ok (.whole e) => s.complete purpose e t
    | .loopName start => s.expect .name t (.loopIn start ⟨t.span, t.text⟩)
    | .loopIn start var => s.expect (.keyword .inWord) t (.loopRange start var)
    | .loopRange start var => s.expect (.keyword .rangeWord) t (.rangeOpen start var t.pos)
    | .rangeOpen start var word => s.expect (.op .lparen) t (.firstBound start var word)
    | .firstBound start var word =>
      if t.kind = .op .rparen then .error ⟨t.pos, t.describe, .rangeCount 0⟩
      else s.begin (.bound start var word []) t
    | .loopColon start var range => s.expect (.op .colon) t (.brace (.forBody start var range))
    | .elseColon start done => s.expect (.op .colon) t (.brace (.otherwise start done))
    | .brace owner =>
      if t.kind = .op .lbrace then .ok ⟨⟨owner, t.pos, s.stmts⟩ :: s.blocks, [], .between⟩
      else .error (.expected t [Op.lbrace.symbol])
    | .afterBranch start done stop =>
      if t.kind = .keyword .elifWord then .ok (s.read (.guard start done))
      else if t.kind = .keyword .elseWord then .ok (s.enter (.elseColon start done))
      else (s.push (.branch ⟨start, stop⟩ done.reverse none)).between t

end State

/-- The outcome of reading a token stream, and how many tokens were asked for, the end included. -/
structure Outcome (α : Type) where
  result : Except SyntaxError α
  pulls : Nat

/-- Reads tokens from the state `s`, after `pulls` tokens, up to the first error or end of file.
Yields the top-level statements and the position of the end. -/
def consume (final : Token) : State → Nat → List Token → Outcome (List Stmt × Pos)
  | s, pulls, [] => ⟨(s.step final).map fun s => (s.stmts.reverse, final.pos), pulls + 1⟩
  | s, pulls, t :: rest =>
    match s.step t with
    | .error e => ⟨.error e, pulls + 1⟩
    | .ok s =>
      if t.kind = .eof then ⟨.ok (s.stmts.reverse, t.pos), pulls + 1⟩
      else consume final s (pulls + 1) rest

/-- The end of a token stream. Where its position is unknown it is that after the last token. -/
def finalToken (tokens : List Token) (pos : Pos) : Token :=
  let after := match tokens.getLast? with
    | some t => t.stop
    | none => .unknown
  ⟨.eof, [], if pos.isKnown then pos else after⟩

/-- The program that a token stream spells; `pos` is the position of its end. -/
def parseTokens (tokens : List Token) (pos : Pos) : Outcome Program :=
  let final := finalToken tokens pos
  let start := (tokens.headD final).pos
  let outcome := consume final .initial 0 tokens
  ⟨outcome.result.map fun (stmts, stop) => ⟨⟨start, stop⟩, stmts⟩, outcome.pulls⟩

/-- Reads an expression that has to take up all tokens. -/
def consumeExpr (final : Token) : Reading → List Token → Except SyntaxError Expr
  | r, [] =>
    match r.step final with
    | .error e => .error e
    | .ok (.whole e) => .ok e
    | .ok (.more _) => .error (.expected final operandStarts)
  | r, t :: rest =>
    if t.kind = .illegal then .error ⟨t.pos, t.text, .illegal t.text⟩
    else match r.step t with
      | .error e => .error e
      | .ok (.more r) => consumeExpr final r rest
      | .ok (.whole _) => .error (.expected t [Kind.eof.describe])

end Parser

/-- Reads a source text. -/
def Program.parse (source : Text) : Except SyntaxError Program :=
  (Parser.parseTokens (Token.tokenize source) (Token.endOf source).pos).result

/-- Reads a source text that is one expression. -/
def Expr.parse (source : Text) : Except SyntaxError Expr :=
  Parser.consumeExpr (Token.endOf source) .start (Token.tokenize source)

end ThreeAddress
