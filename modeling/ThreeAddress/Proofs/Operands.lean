import ThreeAddress.Proofs.Interpreter
import ThreeAddress.Proofs.Loading
import ThreeAddress.Proofs.WellFormed

/-! Stores and the environments they stand for: reading an operand gives the value of its
expression, or fails in a way that the source accounts for. -/
namespace ThreeAddress

/-- The ways in which a program over the given names may fail. -/
def Fault.Expected (vars : List Text) : Fault → Prop
  | .unassigned x | .undeclared x => x ∈ vars
  | .arith .divisionByZero | .arith .floatRemainder | .arith (.badLiteral _) => True
  | .stepLimit _ => True
  | _ => False

/-- The store gives the names of the program the values of the environment. -/
def Agrees (vars : List Text) (σ : Env) (s : Store) : Prop := ∀ x ∈ vars, s.value? x = σ x

/-- The temporaries up to number `n` are as they were. -/
def Keeps (scheme : Scheme) (vars : List Text) (n : Nat) (s s' : Store) : Prop :=
  ∀ i ≤ n, scheme.temp i ∉ vars → s'.get? (scheme.temp i) = s.get? (scheme.temp i)

/-- Reading the operand gives the value, or fails as expected if there is none. -/
def Reads (vars : List Text) (s : Store) (x : Text) : Option Value → Prop
  | some v => (Operand.ofText x).value s = .ok v
  | none => ∃ f, (Operand.ofText x).value s = .error f ∧ f.Expected vars

section

variable {scheme : Scheme} {vars : List Text} {σ : Env} {s s' s'' : Store} {x : Text} {v : Value}
  {m n : Nat}

theorem Keeps.refl (scheme : Scheme) (vars : List Text) (n : Nat) (s : Store) :
    Keeps scheme vars n s s := fun _ _ _ => rfl

theorem Keeps.trans (h : Keeps scheme vars n s s') (h' : Keeps scheme vars n s' s'') :
    Keeps scheme vars n s s'' :=
  fun i hi hv => (h' i hi hv).trans (h i hi hv)

theorem Keeps.mono (h : Keeps scheme vars n s s') (hle : m ≤ n) : Keeps scheme vars m s s' :=
  fun i hi => h i (Nat.le_trans hi hle)

/-- A newer temporary changes. -/
theorem Keeps.set_temp (h : m < n) : Keeps scheme vars m s (s.set (scheme.temp n) v) := by
  intro i hi _
  rw [Store.get?_set, if_neg]
  intro heq
  have := Scheme.temp_injective heq
  omega

/-- A variable changes. -/
theorem Keeps.set_var (h : x ∈ vars) : Keeps scheme vars n s (s.set x v) := by
  intro i _ hv
  rw [Store.get?_set, if_neg]
  rintro rfl
  exact hv h

theorem Keeps.declare_var (h : x ∈ vars) : Keeps scheme vars n s (s.declare x) := by
  intro i _ hv
  rw [Store.get?_declare, if_neg]
  rintro rfl
  exact hv h

theorem Agrees.set_temp (h : Agrees vars σ s) (hx : x ∉ vars) : Agrees vars σ (s.set x v) := by
  intro y hy
  rw [Store.value?_set, if_neg]
  · exact h y hy
  · rintro rfl
    exact hx hy

theorem Agrees.set_var (h : Agrees vars σ s) : Agrees vars (σ.set x v) (s.set x v) := by
  intro y hy
  rw [Store.value?_set, Env.set, h y hy]
  by_cases hxy : x = y
  · simp [hxy]
  · rw [if_neg hxy, if_neg (Ne.symm hxy)]

theorem Agrees.declare_var (h : Agrees vars σ s) : Agrees vars σ (s.declare x) := by
  intro y hy
  rw [Store.value?_declare]
  exact h y hy

end

namespace Operand

variable {x : Text}

theorem ofText_name (hne : x ≠ []) (hl : isLiteral x = false) : ofText x = .name x := by
  simp [ofText, hne, hl]

theorem isLiteral_of_isIdentifier (h : x.isIdentifier) : x ≠ [] ∧ isLiteral x = false := by
  cases x with
  | nil => exact absurd h (by decide)
  | cons b s =>
    have hb := Lexer.isLetter_of_isIdentifier h
    have hdot : b ≠ Text.ascii '.' := by
      rintro rfl
      exact absurd hb (by decide)
    exact ⟨by simp, by simp [isLiteral, hdot, Lexer.isDigit_of_isLetter hb]⟩

theorem isLiteral_of_isName (h : IsName x) : x ≠ [] ∧ isLiteral x = false :=
  isLiteral_of_isIdentifier h.1

theorem ofText_temp {scheme : Scheme} (hne : scheme.tempStem ≠ [])
    (hl : isLiteral scheme.tempStem = false) (n : Nat) :
    ofText (scheme.temp n) = .name (scheme.temp n) := by
  apply ofText_name
  · simp [Scheme.temp, hne]
  · unfold Scheme.temp
    cases hs : scheme.tempStem with
    | nil => exact absurd hs hne
    | cons b stem =>
      rw [hs] at hl
      exact hl

theorem isLiteral_of_lexed (h : Word.Lexed ⟨.number, x⟩) : x ≠ [] ∧ isLiteral x = true := by
  cases x with
  | nil => exact absurd rfl h.1
  | cons b s =>
    obtain hb | rfl := Lexer.starts_number h
    · exact ⟨by simp, by simp [isLiteral, hb]⟩
    · exact ⟨by simp, rfl⟩

end Operand

theorem Value.ofLiteral_error {s : Text} {e : ArithError} (h : Value.ofLiteral s = .error e) :
    e = .badLiteral s := by
  unfold Value.ofLiteral at h
  split at h
  · split at h
    · cases h
    · exact (Except.error.inj h).symm
  · simp only at h
    split at h
    · cases h
    · exact (Except.error.inj h).symm

section

variable {vars : List Text} {s : Store} {x : Text} {v : Value}

theorem reads_name (hx : IsName x) (hv : x ∈ vars) : Reads vars s x (s.value? x) := by
  obtain ⟨hne, hl⟩ := Operand.isLiteral_of_isName hx
  cases hget : s.get? x with
  | none =>
    simp only [Store.value?, hget, Option.join_none]
    exact ⟨.undeclared x, by simp [Operand.ofText_name hne hl, Operand.value, hget], hv⟩
  | some held =>
    cases held with
    | none =>
      simp only [Store.value?, hget, Option.join_some]
      exact ⟨.unassigned x, by simp [Operand.ofText_name hne hl, Operand.value, hget], hv⟩
    | some v =>
      simp only [Store.value?, hget, Option.join_some]
      simp [Reads, Operand.ofText_name hne hl, Operand.value, hget]

theorem reads_number (h : Word.Lexed ⟨.number, x⟩) :
    Reads vars s x (Value.ofLiteral x).toOption := by
  obtain ⟨hne, hl⟩ := Operand.isLiteral_of_lexed h
  cases hv : Value.ofLiteral x with
  | ok v => simp [Reads, Except.toOption, Operand.ofText, hne, hl, hv, Operand.value]
  | error e =>
    obtain rfl := Value.ofLiteral_error hv
    refine ⟨.arith (.badLiteral x), ?_, trivial⟩
    simp [Operand.ofText, hne, hl, hv, Operand.value]

theorem reads_boolean (b : Bool) :
    Reads vars s (if b then "1" else "0") (some (.ofBool b)) := by
  cases b <;> rfl

theorem reads_temp {scheme : Scheme} {n : Nat} (hne : scheme.tempStem ≠ [])
    (hl : Operand.isLiteral scheme.tempStem = false)
    (h : s.get? (scheme.temp n) = some (some v)) : Reads vars s (scheme.temp n) (some v) := by
  simp [Reads, Operand.ofText_temp hne hl, Operand.value, h]

end

/-- The calculation gives the value, or fails as expected if there is none. -/
def Calculates (vars : List Text) (s : Store) (c : Calculation) : Option Value → Prop
  | some v => c.value s = .ok v
  | none => ∃ f, c.value s = .error f ∧ f.Expected vars

section

variable {vars : List Text} {s : Store} {x y : Text} {a b : Option Value}

theorem calculates_copy (h : Reads vars s x a) : Calculates vars s (.copy (.ofText x)) a := by
  cases a <;> exact h

theorem calculates_unary {op : UnaryOp} (h : Reads vars s x a) :
    Calculates vars s (.unary (.ok op) (.ofText x)) (a.map (Value.unary op)) := by
  cases a with
  | none =>
    obtain ⟨f, hf, he⟩ := h
    exact ⟨f, by simp [Calculation.value, hf], he⟩
  | some v =>
    have h : (Operand.ofText x).value s = .ok v := h
    simp [Calculates, Calculation.value, h]

theorem binary_expected {op : BinaryOp} {u v : Value} {e : ArithError}
    (h : Value.binary op u v = .error e) : (Fault.arith e).Expected vars := by
  obtain ⟨rfl, -⟩ | ⟨rfl, -⟩ := Value.binary_eq_error_iff.1 h <;> trivial

/-- Applying an operator to values fails only as expected. -/
theorem apply_cases (vars : List Text) (op : BinaryOp) (u v : Value) :
    (∃ w, (Value.binary op u v).toOption = some w ∧ Calculation.apply (.ok op) u v = .ok w) ∨
      ((Value.binary op u v).toOption = none ∧
        ∃ f, Calculation.apply (.ok op) u v = .error f ∧ f.Expected vars) := by
  cases h : Value.binary op u v with
  | ok w => exact Or.inl ⟨w, rfl, by simp [Calculation.apply, h]⟩
  | error e => exact Or.inr ⟨rfl, .arith e, by simp [Calculation.apply, h], binary_expected h⟩

/-- A calculation that reads two operands and then combines their values. -/
theorem calculates_combined {c : Calculation} {combine : Value → Value → Except Fault Value}
    {result : Value → Value → Option Value} (hx : Reads vars s x a) (hy : Reads vars s y b)
    (hc : c.value s =
      match (Operand.ofText x).value s with
      | .error f => .error f
      | .ok u =>
        match (Operand.ofText y).value s with
        | .error f => .error f
        | .ok v => combine u v)
    (hcombine : ∀ u v, (∃ w, result u v = some w ∧ combine u v = .ok w) ∨
      (result u v = none ∧ ∃ f, combine u v = .error f ∧ f.Expected vars)) :
    Calculates vars s c (a.bind fun u => b.bind fun v => result u v) := by
  cases a with
  | none =>
    obtain ⟨f, hf, he⟩ := hx
    exact ⟨f, by rw [hc, hf], he⟩
  | some u =>
    have hx : (Operand.ofText x).value s = .ok u := hx
    cases b with
    | none =>
      obtain ⟨f, hf, he⟩ := hy
      exact ⟨f, by rw [hc, hx, hf], he⟩
    | some v =>
      have hy : (Operand.ofText y).value s = .ok v := hy
      have hc : c.value s = combine u v := by rw [hc, hx, hy]
      simp only [Option.bind_some]
      obtain ⟨w, hw, hok⟩ | ⟨hnone, f, herror, he⟩ := hcombine u v
      · rw [hw]
        exact hc.trans hok
      · rw [hnone]
        exact ⟨f, hc.trans herror, he⟩

theorem calculates_binary {op : BinaryOp} (hx : Reads vars s x a) (hy : Reads vars s y b) :
    Calculates vars s (.binary (.ok op) (.ofText x) (.ofText y))
      (a.bind fun u => b.bind fun v => (Value.binary op u v).toOption) :=
  calculates_combined hx hy rfl (apply_cases vars op)

/-- A compound assignment reads its operand first, and then its target. -/
theorem calculates_update {op : BinaryOp} (hx : Reads vars s x a) (hy : Reads vars s y b) :
    Calculates vars s (.update (.ok op) (.ofText y) (.ofText x))
      (a.bind fun v => b.bind fun u => (Value.binary op u v).toOption) :=
  calculates_combined hx hy rfl fun v u => apply_cases vars op u v

end

end ThreeAddress
