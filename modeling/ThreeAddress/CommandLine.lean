import ThreeAddress.FileTree
import ThreeAddress.Compilation

/-! The command line: what its arguments ask for, and what it answers. -/
namespace ThreeAddress.CommandLine

def shortUsage : Text :=
  "usage: p2c [-v] [-q] [-d] [-da] [-type T] [-no-format] input output\n" ++
  "       p2c -run [-type T] [-set name=value ...] input"

def longUsage : Text :=
"Arguments:
  input             source file ('-' reads standard input)
  output            C file to write ('-' writes standard output)

Running:
  -run              execute the translation and print the final variables
  -set name=value   give a variable a value before running (multiple allowed)

Translation options:
  -type T           C type of every variable (default \"float\")
  -no-format        keep one instruction per line without indentation

Logging:
  -v                log each translation phase to stderr
  -q                do not report warnings

Debugging arguments:
  -d                print the parse tree to stderr and exit
  -da               print the instruction listing to stderr and exit

Other:
  -h, --help        show this help message
  -version          show p2c version and exit
"

/-- The help page. -/
def helpText : Text :=
  "p2c dev - Python-like to C translator\n\n" ++ shortUsage ++ "\n\n" ++ longUsage

/-- The version of the program and where it was built. -/
def versionText : Text := "p2c version dev\n  commit: none\n  built:  unknown\n"

/-- What a run of the program writes, and its exit status. -/
structure Reply where
  exit : Nat
  stdout : Text
  stderr : Text

namespace Reply

def success (stdout stderr : Text) : Reply := ⟨0, stdout, stderr⟩

/-- A failure with a message, after what the log holds. -/
def failure (log message : Text) : Reply := ⟨1, [], log ++ "p2c: " ++ message ++ "\n"⟩

end Reply

structure Options where
  verbose : Bool
  quiet : Bool
  /-- Print the parse tree and stop. -/
  tree : Bool
  /-- Print the listing and stop. -/
  listing : Bool
  noFormat : Bool
  type : Text
  run : Bool
  /-- The texts `name=value` in order. -/
  sets : List Text

def Options.none : Options := ⟨false, false, false, false, false, [], false, []⟩

/-- What the flags ask for. -/
inductive Request where
  /-- An answer that needs no source. -/
  | answer (r : Reply)
  /-- The options and the arguments after them. -/
  | proceed (o : Options) (rest : List Text)

/-- The failure of a flag that stands last and needs an argument. -/
def needsArgument (flag : Text) : Request :=
  .answer (.failure [] ("flag needs an argument: " ++ flag))

/-- Reads flags up to `--` or the first argument that is none. -/
def readFlags (o : Options) : List Text → Request
  | [] => .proceed o []
  | arg :: rest =>
    if arg == "--" then .proceed o rest
    else if arg == "-" || arg.head? != some (Text.ascii '-') then .proceed o (arg :: rest)
    else if arg == "-v" then readFlags { o with verbose := true } rest
    else if arg == "-q" then readFlags { o with quiet := true } rest
    else if arg == "-d" then readFlags { o with tree := true } rest
    else if arg == "-da" then readFlags { o with listing := true } rest
    else if arg == "-no-format" || arg == "--no-format" then
      readFlags { o with noFormat := true } rest
    else if arg == "-run" || arg == "--run" then readFlags { o with run := true } rest
    else if arg == "-set" || arg == "--set" then
      match rest with
      | [] => needsArgument arg
      | value :: rest => readFlags { o with sets := o.sets ++ [value] } rest
    else if arg == "-type" || arg == "--type" then
      match rest with
      | [] => needsArgument arg
      | value :: rest => readFlags { o with type := value } rest
    else if arg == "-h" || arg == "--help" then .answer (.success helpText [])
    else if arg == "-version" || arg == "--version" then .answer (.success versionText [])
    else match Text.stripFront "-type=" arg with
      | some value => readFlags { o with type := value } rest
      | none => .answer (.failure [] ("flag provided but not defined: " ++ arg))

/-- The name and the number of a text `name=value`, or a message. -/
def readSet (s : Text) : Except Text (Text × Float) :=
  match s.cut (Text.ascii '=') with
  | none | some ([], _) =>
    .error ("invalid variable assignment: " ++ s ++ " (expected name=value)")
  | some (name, value) =>
    match Decimal.readFloat value with
    | some ⟨x, true⟩ => .ok (name, x)
    | _ => .error ("invalid value for " ++ name ++ ": " ++ value)

/-- Something to do with a source. -/
structure Job where
  options : Options
  input : Text
  /-- Where the C program goes; there is none if the program is run. -/
  output : Option Text
  inputs : List (Text × Float)

/-- The path that stands for standard input and output. -/
def standard : Text := "-"

/-- What the arguments ask for: an answer, or a job that needs a source. -/
def readArguments (args : List Text) : Except Reply Job :=
  match readFlags .none args with
  | .answer r => .error r
  | .proceed o rest =>
    let job (input : Text) (output : Option Text) : Except Reply Job :=
      match o.sets.mapM readSet with
      | .error message => .error (.failure [] message)
      | .ok inputs => .ok ⟨o, input, output, inputs⟩
    match o.run, rest with
    | true, [input] => job input none
    | false, [input, output] => job input (some output)
    | _, _ => .error (.failure [] shortUsage)

namespace Job

def settings (j : Job) : Settings :=
  { scheme := { Scheme.default with type := j.options.type }
    layout := !j.options.noFormat
    file := if j.input == standard then [] else j.input }

/-- Where records of the job go: all of them if it is verbose, none if it is quiet, and otherwise
warnings only. -/
def sink (j : Job) : Option Log.Sink :=
  if j.options.verbose then some ⟨.debug, .text⟩
  else if j.options.quiet then none
  else some ⟨.warn, .text⟩

def log (j : Job) (records : List Log.Record) : Text := records.flatMap (Log.write j.sink)

/-- A source that cannot be read. -/
def unreadable (j : Job) (message : Text) : Reply :=
  .failure [] ("cannot read " ++ j.input ++ ": " ++ message)

/-- The result of a job: an answer, or a file to write with the answer if that succeeds. -/
inductive Result where
  | answer (r : Reply)
  | writeFile (path content log : Text)

/-- Does the job on a source. -/
def perform (j : Job) (source : Text) : Result :=
  let ⟨records, outcome⟩ := compile j.settings source
  let log := j.log records
  match outcome with
  | .error e => .answer (.failure log (e.message j.settings.file))
  | .ok t =>
    if j.options.tree then .answer (.success [] (log ++ t.tuple ++ "\n"))
    else if j.options.listing then .answer (.success [] (log ++ t.disassemble))
    else match j.output with
      | none =>
        let ⟨records, outcome⟩ := t.run .background (some Machine.defaultLimit) j.inputs
        let log := log ++ j.log records
        match outcome with
        | .error e => .answer (.failure log (e.message t.file))
        | .ok result => .answer (.success result.text log)
      | some path =>
        if path == standard then .answer (.success t.code log)
        else .writeFile path t.code log

/-- A file that cannot be written. -/
def unwritable (path message log : Text) : Reply :=
  .failure log ("cannot write " ++ path ++ ": " ++ message)

/-- The answer of a job, and the files after it; `drawn` are the numbers that are drawn for the name
of the file that is written before it takes its place. -/
def Result.carryOut (files : FileTree) (drawn : Nat → Nat) : Result → Reply × FileTree
  | .answer reply => (reply, files)
  | .writeFile path content log =>
    match files.write drawn path content with
    | (.ok (), files) => (.success [] log, files)
    | (.error message, files) => (unwritable path message log, files)

end Job

/-- Runs the command line on the given standard input and files. -/
def run (args : List Text) (stdin : Text) (files : FileTree) (drawn : Nat → Nat) :
    Reply × FileTree :=
  match readArguments args with
  | .error reply => (reply, files)
  | .ok job =>
    match if job.input == standard then .ok stdin else files.read job.input with
    | .error message => (job.unreadable message, files)
    | .ok source => (job.perform source).carryOut files drawn

end ThreeAddress.CommandLine
