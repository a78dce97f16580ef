import ThreeAddress.Listing
import ThreeAddress.Machine.Step

/-! A machine that executes three-address instructions. It refuses what would be undefined in C,
such as the use of a variable that has no value, and stops at a limit of steps. -/
namespace ThreeAddress

/-- Why a program cannot be loaded. -/
inductive LoadError where
  | unsupportedType (type : Text)
  | duplicateLabel (name : Text)
  | undefinedLabel (name : Text)
deriving DecidableEq, Repr

def LoadError.message : LoadError → Text
  | .unsupportedType type => "unsupported numeric type " ++ type.quote
  | .duplicateLabel name => "label " ++ name ++ " defined twice"
  | .undefinedLabel name => "jump to undefined label " ++ name

/-- How a run ends. -/
inductive Halt where
  /-- Control fell off the end of the code. -/
  | finished
  | canceled
  /-- The instruction that comes from `pos` could not be executed. -/
  | failed (pos : Pos) (fault : Fault)
deriving DecidableEq, Repr

/-- What a run is told from outside. A run is canceled at some count of executed steps, the earliest
of which is zero, or never. -/
inductive Context where
  | background
  | canceledAt (steps : Nat)

/-- Whether the run is canceled by the time that so many steps have been executed. -/
def Context.canceled : Context → Nat → Bool
  | .background, _ => false
  | .canceledAt n, steps => n ≤ steps

/-- A loaded program. -/
structure Machine where
  /-- The instructions, with the positions in the source that they come from. -/
  code : Array (Step × Pos)
  symbols : List Symbol
  kind : NumKind
  /-- The number of steps that may be executed, if there is a limit. -/
  limit : Option Nat
  inputs : List (Text × Float)

/-- What a machine remembers: its variables, and the steps executed since the last reset. -/
structure Memory where
  store : Store
  steps : Nat

namespace Machine

/-- The limit of steps where none is asked for. -/
def defaultLimit : Nat := 10000000

/-- A run looks for a cancellation whenever this many steps have been executed. -/
def cancelInterval : Nat := 1024

/-- The limit that a number stands for: zero is the default, and a negative number no limit. -/
def limitOf (maxSteps : Int) : Option Nat :=
  if maxSteps == 0 then some defaultLimit
  else if maxSteps < 0 then none
  else some maxSteps.toNat

/-- The places of the labels, where the first instruction has the number `n`. -/
def placeLabels (n : Nat) (placed : Dictionary Nat) :
    List Instr → Except LoadError (Dictionary Nat)
  | [] => .ok placed
  | i :: rest =>
    match i.action.label? with
    | none => placeLabels (n + 1) placed rest
    | some name =>
      if (placed.get? name).isSome then .error (.duplicateLabel name)
      else placeLabels (n + 1) (placed.insert name n) rest

/-- The first label that is jumped to and not defined. -/
def undefinedLabel? (placed : Dictionary Nat) (code : List Instr) : Option Text :=
  (code.filterMap (·.action.target?)).find? fun name => (placed.get? name).isNone

/-- The number of the instruction that defines a label. -/
def placeOf (placed : Dictionary Nat) (name : Text) : Nat := (placed.get? name).getD 0

/-- Loads a program. Its type has to be arithmetic, and each label that is jumped to has to be
defined exactly once. -/
def load (l : Listing) (limit : Option Nat) (inputs : List (Text × Float)) :
    Except LoadError Machine :=
  match NumKind.ofType? l.type with
  | none => .error (.unsupportedType l.type)
  | some kind =>
    match placeLabels 0 .empty l.code with
    | .error e => .error e
    | .ok placed =>
      match undefinedLabel? placed l.code with
      | some name => .error (.undefinedLabel name)
      | none =>
        let code := l.code.map fun i => (Step.ofAction (placeOf placed) i.action, i.pos)
        .ok ⟨code.toArray, l.symbols, kind, limit, inputs⟩

/-- The memory of a machine that has not run: only the inputs have values. -/
def reset (m : Machine) : Memory := ⟨.ofInputs m.kind m.inputs, 0⟩

def atLimit (m : Machine) (mem : Memory) : Bool :=
  match m.limit with
  | none => false
  | some n => n ≤ mem.steps

/-- The number of the instruction that follows number `ip`. -/
def follow (ip : Nat) : Flow → Nat
  | .next => ip + 1
  | .goto target => target

/-- Executes up to `fuel` instructions from number `ip` on. The run has not come to an end if the
answer is `none`. -/
def runFor (m : Machine) (ctx : Context) : Nat → Nat → Memory → Memory × Option Halt
  | 0, _, mem => (mem, none)
  | fuel + 1, ip, mem =>
    match m.code[ip]? with
    | none => (mem, some .finished)
    | some (step, pos) =>
      if m.atLimit mem then (mem, some (.failed pos (.stepLimit mem.steps)))
      else if ctx.canceled mem.steps && mem.steps % cancelInterval == 0 then (mem, some .canceled)
      else
        match step.exec m.kind mem.store with
        | (store, .error f) => (⟨store, mem.steps + 1⟩, some (.failed pos f))
        | (store, .ok flow) => runFor m ctx fuel (follow ip flow) ⟨store, mem.steps + 1⟩

/-- More steps than a run without a limit can take in a lifetime. -/
def patience : Nat := 1 <<< 62

/-- As much fuel as lets a run reach its limit. -/
def fuel (m : Machine) (mem : Memory) : Nat :=
  match m.limit with
  | none => patience
  | some n => n - mem.steps + 1

/-- Runs the program from its first instruction. -/
def run (m : Machine) (ctx : Context) (mem : Memory) : Memory × Halt :=
  match m.runFor ctx (m.fuel mem) 0 mem with
  | (mem, some halt) => (mem, halt)
  | (mem, none) => (mem, .failed .unknown (.stepLimit mem.steps))

/-- The declared variables that hold a value, in order of declaration. -/
def vars (m : Machine) (mem : Memory) : List (Text × Value) :=
  m.symbols.filterMap fun s => (mem.store.value? s.name).map fun v => (s.name, v)

end Machine

end ThreeAddress
