import ThreeAddress.Layout
import ThreeAddress.Log
import ThreeAddress.Machine
import ThreeAddress.Syntax.Parser
import ThreeAddress.Syntax.Tuple
import ThreeAddress.Warning

/-! Compiling a source text to a C program, and running the result. -/
namespace ThreeAddress

/-- The version of the library. -/
def version : Text := "0.1.0"

/-- How a source is compiled. -/
structure Settings where
  scheme : Scheme
  /-- Whether the C text is laid out. -/
  layout : Bool
  /-- The name of the source in messages. -/
  file : Text

namespace Settings

def default : Settings := ⟨.default, true, []⟩

/-- A type name is one or more identifiers with single spaces between them. -/
def isTypeName (s : Text) : Bool := (s.split (Text.ascii ' ')).all Text.isIdentifier

end Settings

/-- A setting that would make the C text malformed. -/
inductive ConfigError where
  | type (value : Text)
  | tempStem (value : Text)
  | labelStem (value : Text)

namespace ConfigError

/-- The name of the setting. -/
def field : ConfigError → Text
  | .type _ => "NumericType"
  | .tempStem _ => "TempPrefix"
  | .labelStem _ => "LabelPrefix"

def value : ConfigError → Text
  | .type v => v
  | .tempStem v => v
  | .labelStem v => v

def message (e : ConfigError) : Text := "invalid config: " ++ e.field ++ " " ++ e.value.quote

end ConfigError

/-- The scheme itself, if generated names and declarations would be well formed. -/
def Scheme.validate (s : Scheme) : Except ConfigError Scheme :=
  if !Settings.isTypeName s.type then .error (.type s.type)
  else if !s.tempStem.isIdentifier then .error (.tempStem s.tempStem)
  else if !s.labelStem.isIdentifier then .error (.labelStem s.labelStem)
  else .ok s

/-- A line of a file, for messages about a whole line. -/
def lineText (file : Text) (line : Int) : Text :=
  if file.isEmpty then "line " ++ Text.ofInt line else file ++ ":" ++ Text.ofInt line

/-- A message about a line, or about none if its number is 0. -/
def aboutLine (what file : Text) (line : Int) (message : Text) : Text :=
  if line == 0 then what ++ ": " ++ message
  else what ++ " at " ++ lineText file line ++ ": " ++ message

/-- Why a source cannot be compiled. -/
inductive CompileError where
  | config (e : ConfigError)
  | parsing (e : SyntaxError)
  | lowering (e : LoweringError)

namespace CompileError

def message (file : Text) : CompileError → Text
  | .config e => e.message
  | .parsing e => "syntax error at " ++ e.pos.render file ++ ": " ++ e.message
  | .lowering e => aboutLine "lowering error" file e.pos.line e.message

end CompileError

/-- A compiled program. -/
structure Compilation where
  file : Text
  source : Text
  program : Program
  warnings : List Warning
  listing : Listing
  /-- The C program. -/
  code : Text

namespace Compilation

/-- The parse tree as a tuple. -/
def tuple (t : Compilation) : Text := t.program.tuple

def disassemble (t : Compilation) : Text := t.listing.disassemble t.file

/-- The declared variables in order of declaration. -/
def varNames (t : Compilation) : List Text := t.listing.symbols.map (·.name)

end Compilation

/-- The outcome of a computation together with the records it logged on the way. -/
structure Logged (α : Type) where
  records : List Log.Record
  outcome : α

/-- Compiles a source. Nothing of a compilation is returned with an error. -/
def compile (settings : Settings) (source : Text) :
    Logged (Except CompileError Compilation) :=
  let file := settings.file
  match settings.scheme.filled.validate with
  | .error e => ⟨[], .error (.config e)⟩
  | .ok scheme =>
    match Program.parse source with
    | .error e => ⟨[], .error (.parsing e)⟩
    | .ok program =>
      let warnings := program.warnings
      let records :=
        [.lexing file (Token.tokenize source).length, .parsing file program.stmts.length] ++
          warnings.map fun w => .warning file w.pos.line w.message
      match program.lower scheme with
      | .error e => ⟨records, .error (.lowering e)⟩
      | .ok listing =>
        let code := if settings.layout then Layout.format listing.text else listing.text
        ⟨records ++
            [.lowering file listing.code.length listing.temps listing.labels listing.symbols.length],
          .ok ⟨file, source, program, warnings, listing, code⟩⟩

/-- What a run leaves behind: the variables that hold a value, in order of declaration, and the
number of instructions executed. -/
structure RunResult where
  vars : List (Text × Float)
  steps : Nat

namespace RunResult

def lookup (r : RunResult) (name : Text) : Option Float := r.vars.lookup name

/-- One line for each variable. -/
def text (r : RunResult) : Text :=
  r.vars.flatMap fun (name, x) => name ++ " = " ++ Decimal.resultText x ++ [Text.lineFeed]

end RunResult

/-- Why a compiled program cannot be run to its end. -/
inductive RunError where
  | load (e : LoadError)
  | canceled
  | failed (pos : Pos) (fault : Fault)

namespace RunError

def message (file : Text) : RunError → Text
  | .load e => aboutLine "runtime error" [] 0 e.message
  | .canceled => "context canceled"
  | .failed pos fault => aboutLine "runtime error" file pos.line fault.message

end RunError

/-- Runs a compiled program with the arithmetic of its numeric type. -/
def Compilation.run (t : Compilation) (ctx : Context) (limit : Option Nat)
    (inputs : List (Text × Float)) : Logged (Except RunError RunResult) :=
  match Machine.load t.listing limit inputs with
  | .error e => ⟨[], .error (.load e)⟩
  | .ok machine =>
    match machine.run ctx machine.reset with
    | (_, .canceled) => ⟨[], .error .canceled⟩
    | (_, .failed pos fault) => ⟨[], .error (.failed pos fault)⟩
    | (memory, .finished) =>
      let vars := (machine.vars memory).map fun (name, v) => (name, v.toFloat)
      ⟨[.run t.file memory.steps vars.length], .ok ⟨vars, memory.steps⟩⟩

end ThreeAddress
