import ThreeAddress.Dictionary
import ThreeAddress.Value

/-! The variables of a running program. -/
namespace ThreeAddress

/-- The values of variables, and the names that are declared. -/
structure Store where
  values : Dictionary Value
  declared : Dictionary Unit
  /-- A name has a value only if it is declared. -/
  covered : ∀ name, (values.get? name).isSome → (declared.get? name).isSome

namespace Store

def empty : Store := ⟨.empty, .empty, by simp⟩

def isDeclared (s : Store) (name : Text) : Bool := (s.declared.get? name).isSome

/-- What is known of a declared name: its value, if it has one. -/
def get? (s : Store) (name : Text) : Option (Option Value) :=
  match s.values.get? name with
  | some v => some (some v)
  | none => if s.isDeclared name then some none else none

/-- The value of a name that is declared and has one. -/
def value? (s : Store) (name : Text) : Option Value := (s.get? name).join

/-- Declares a name; one that is declared already keeps its value. -/
def declare (s : Store) (name : Text) : Store :=
  if s.isDeclared name then s
  else
    ⟨s.values, s.declared.insert name (), fun other h => by
      rw [Dictionary.get?_insert]
      split
      · rfl
      · exact s.covered other h⟩

theorem isDeclared_declare (s : Store) (name other : Text) :
    (s.declare name).isDeclared other = (decide (name = other) || s.isDeclared other) := by
  unfold declare
  split
  · rename_i h
    by_cases hname : name = other
    · simp [← hname, h]
    · simp [hname]
  · by_cases hname : name = other <;> simp [isDeclared, Dictionary.get?_insert, hname]

/-- Gives a name a value, and declares it if need be. -/
def set (s : Store) (name : Text) (v : Value) : Store :=
  ⟨s.values.insert name v, (s.declare name).declared, fun other h => by
    have hdeclared := s.isDeclared_declare name other
    rw [Dictionary.get?_insert] at h
    split at h
    · rename_i hname
      simpa [isDeclared, hname] using hdeclared
    · have hcovered := s.covered other h
      simpa [isDeclared, hcovered] using hdeclared⟩

/-- The store in which each of the given names has its value; of two values for one name the later
counts. -/
def ofInputs (k : NumKind) (inputs : List (Text × Float)) : Store :=
  inputs.foldl (fun s (name, x) => s.set name (Value.convert k (.float x))) .empty

@[simp] theorem get?_empty (name : Text) : empty.get? name = none := by
  simp [get?, empty, isDeclared]

variable (s : Store) (x y : Text) (v : Value)

theorem value?_eq : s.value? x = s.values.get? x := by
  unfold value? get?
  split
  · simp_all
  · split <;> simp_all

theorem get?_set : (s.set x v).get? y = if x = y then some (some v) else s.get? y := by
  have hdeclared : (s.set x v).isDeclared y = (decide (x = y) || s.isDeclared y) :=
    s.isDeclared_declare x y
  unfold get?
  rw [hdeclared, set, Dictionary.get?_insert]
  by_cases h : x = y <;> simp [h]

theorem value?_set : (s.set x v).value? y = if x = y then some v else s.value? y := by
  unfold value?
  rw [get?_set]
  split <;> rfl

theorem values_declare : (s.declare x).values = s.values := by
  unfold declare
  split <;> rfl

theorem value?_declare : (s.declare x).value? y = s.value? y := by
  rw [value?_eq, value?_eq, values_declare]

theorem get?_declare : (s.declare x).get? y = if x = y then some (s.value? y) else s.get? y := by
  unfold get?
  rw [values_declare, isDeclared_declare, ← value?_eq]
  by_cases h : x = y
  · cases s.value? y <;> simp [h]
  · simp [h]

end Store

end ThreeAddress
