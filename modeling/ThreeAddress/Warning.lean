import ThreeAddress.Symbol
import ThreeAddress.Syntax
import ThreeAddress.Text.Quoted

/-! Warnings about a program that can be compiled and may still not be meant so. They are found by
going through what a program does to its names, in the order in which it does it. -/
namespace ThreeAddress

/-- Something that a program does to a name, or a loop that cannot end. -/
inductive Event where
  | read (n : Name)
  | declare (n : Name)
  | zeroStep (pos : Pos)

namespace Stmt

mutual

/-- The events of a statement in order. The conditions of a chain are all read before the first of
its bodies, and the bounds of a loop before its variable is declared. -/
def events : Stmt → List Event
  | .missing | .breakLoop _ | .continueLoop _ => []
  | .assign _ target op value =>
    value.names.map .read ++ (if op.isCompound then [.read target] else []) ++ [.declare target]
  | .eval _ e => e.names.map .read
  | .branch _ branches otherwise =>
    (branches.flatMap (·.cond.names)).map .read ++ eventsOfBranches branches ++
      eventsOfBody otherwise
  | .whileLoop _ cond body => cond.names.map .read ++ eventsOfBody body
  | .forLoop _ var range body =>
    (range.start.names ++ range.stop.names ++ range.step.names).map .read ++
      (match range.step.const? with
        | some v => if v == 0 then [.zeroStep range.step.start] else []
        | none => []) ++
      [.declare var] ++ eventsOfBody body

def eventsOfBody : Option (Block Stmt) → List Event
  | none => []
  | some ⟨_, _, stmts⟩ => eventsOfList stmts

def eventsOfList : List Stmt → List Event
  | [] => []
  | s :: rest => s.events ++ eventsOfList rest

/-- The events of the bodies of a chain. -/
def eventsOfBranches : List (Branch Stmt) → List Event
  | [] => []
  | ⟨_, body⟩ :: rest => eventsOfBody body ++ eventsOfBranches rest

end

end Stmt

/-- The events of a program in order. -/
def Program.events (p : Program) : List Event := Stmt.eventsOfList p.stmts

/-- The words that the generated language reserves, and that cannot name a variable there. -/
def reservedWords : List Text :=
  List.map Text.ofString
  ["auto", "break", "case", "char", "const", "continue", "default", "do", "double", "else", "enum",
   "extern", "float", "for", "goto", "if", "inline", "int", "long", "register", "restrict", "return",
   "short", "signed", "sizeof", "static", "struct", "switch", "typedef", "union", "unsigned", "void",
   "volatile", "while", "bool", "true", "false", "_Bool", "_Complex", "_Imaginary", "_Alignas",
   "_Alignof", "_Atomic", "_Generic", "_Noreturn", "_Static_assert", "_Thread_local", "alignas",
   "alignof", "constexpr", "nullptr", "static_assert", "thread_local", "typeof", "typeof_unqual"]

def isReserved (name : Text) : Bool := reservedWords.contains name

namespace Warning

/-- What a warning is about. -/
inductive Cause where
  /-- A name is read before anything is assigned to it. -/
  | unassigned (name : Text)
  /-- A loop whose step is zero. -/
  | zeroStep
  /-- A name that the generated language reserves. -/
  | reserved (name : Text)

end Warning

structure Warning where
  pos : Pos
  cause : Warning.Cause

namespace Warning

def message (w : Warning) : Text :=
  match w.cause with
  | .unassigned name => "variable " ++ name.quote ++ " is used before it is assigned"
  | .zeroStep => "range step is zero; the loop never terminates"
  | .reserved name =>
    "name " ++ name.quote ++ " is reserved in C; the generated code will not compile"

/-- The warning on one line, with its position even if that is unknown. -/
def render (file : Text) (w : Warning) : Text :=
  w.pos.render file ++ ": warning: " ++ w.message

/-- The names met so far: those declared, and those reported because they were read first. -/
structure Known where
  declared : SymbolTable
  reported : List Text

namespace Known

def none : Known := ⟨.empty, []⟩

/-- Neither declared nor reported. -/
def isFresh (k : Known) (name : Text) : Bool :=
  !k.declared.contains name && !k.reported.contains name

/-- What is known after an event. -/
def after (k : Known) : Event → Known
  | .read n => if k.isFresh n.text then { k with reported := n.text :: k.reported } else k
  | .declare n => { k with declared := k.declared.declare n.text n.span.start }
  | .zeroStep _ => k

/-- The warnings that an event gives rise to. -/
def warnings (k : Known) : Event → List Warning
  | .read n =>
    if k.isFresh n.text then
      ⟨n.span.start, .unassigned n.text⟩ ::
        if isReserved n.text then [⟨n.span.start, .reserved n.text⟩] else []
    else []
  | .declare n =>
    if k.isFresh n.text && isReserved n.text then [⟨n.span.start, .reserved n.text⟩] else []
  | .zeroStep pos => [⟨pos, .zeroStep⟩]

end Known

/-- The warnings of a sequence of events. -/
def ofEvents (k : Known) : List Event → List Warning
  | [] => []
  | e :: rest => k.warnings e ++ ofEvents (k.after e) rest

end Warning

/-- The warnings about a program, in the order of its events. -/
def Program.warnings (p : Program) : List Warning := Warning.ofEvents .none p.events

end ThreeAddress
