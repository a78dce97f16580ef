import ThreeAddress.Dictionary
import ThreeAddress.Pos

/-! The table of declared variables. There is one flat namespace: a variable comes into being with
its first declaration, and all variables have the same numeric type. -/
namespace ThreeAddress

/-- What is known of the type of a variable. -/
inductive VarType where
  | unknown
  | number
deriving DecidableEq, Repr

def VarType.describe : VarType → Text
  | .unknown => "unknown"
  | .number => "number"

/-- A declared variable: its place in the order of declaration, from 0, and the position of the
identifier that declared it. -/
structure Symbol where
  name : Text
  type : VarType
  index : Nat
  pos : Pos
deriving DecidableEq, Repr

/-- The declared variables, in order of declaration and by name. -/
structure SymbolTable where
  symbols : List Symbol
  byName : Dictionary Symbol
  /-- Under a name stands the first symbol that has it. -/
  agree : ∀ name, byName.get? name = symbols.find? (·.name == name)

namespace SymbolTable

def empty : SymbolTable := ⟨[], .empty, Dictionary.get?_empty⟩

def count (t : SymbolTable) : Nat := t.symbols.length

def lookup (t : SymbolTable) (name : Text) : Option Symbol := t.byName.get? name

def contains (t : SymbolTable) (name : Text) : Bool := (t.lookup name).isSome

/-- A symbol with a new name may come to the end. -/
theorem agree_append (t : SymbolTable) (s : Symbol) (h : ¬ t.contains s.name) (name : Text) :
    (t.byName.insert s.name s).get? name = (t.symbols ++ [s]).find? (·.name == name) := by
  have hnone : t.byName.get? s.name = none := by simpa [contains, lookup] using h
  rw [Dictionary.get?_insert, List.find?_append, ← t.agree]
  by_cases hname : s.name = name
  · rw [if_pos hname, ← hname, hnone]
    simp
  · simp [hname]

/-- Adds a variable at the end, unless it is declared already. -/
def declare (t : SymbolTable) (name : Text) (pos : Pos) : SymbolTable :=
  if h : t.contains name then t
  else
    let s : Symbol := ⟨name, .number, t.count, pos⟩
    ⟨t.symbols ++ [s], t.byName.insert name s, t.agree_append s h⟩

/-- Declares a variable, and tells whether it is new. -/
def declareIfAbsent (t : SymbolTable) (name : Text) (pos : Pos) : Bool × SymbolTable :=
  (!t.contains name, t.declare name pos)

/-- The names in order of declaration. -/
def names (t : SymbolTable) : List Text := t.symbols.map (·.name)

theorem declare_of_contains {t : SymbolTable} {name : Text} (h : t.contains name) (pos : Pos) :
    t.declare name pos = t := dif_pos h

theorem symbols_declare {t : SymbolTable} {name : Text} (h : ¬ t.contains name) (pos : Pos) :
    (t.declare name pos).symbols = t.symbols ++ [⟨name, .number, t.count, pos⟩] := by
  rw [declare, dif_neg h]

end SymbolTable

end ThreeAddress
