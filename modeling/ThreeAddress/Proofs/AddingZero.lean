import ThreeAddress.Proofs.LiteralSteps
import ThreeAddress.Proofs.MaximalMunch

/-! Zeros as the steps of loops: constants of the value zero, written as an integer or as a
floating-point number under any number of signs. A counter that advances by one of them compares as
it did before, unless it is an integer and the zero is a floating-point number. -/
namespace ThreeAddress

open Float.Model Float.Model.UnpackedFloat

theorem eq_zero_of_beq {z : Float} (h : z == 0) : z = 0 ∨ z = -0 := by
  obtain ⟨-, -, h | ⟨h, -⟩ | ⟨h, -⟩⟩ := Float.beq_iff_ne_nan_and_eq.1 h
  · exact Or.inl h
  · exact Or.inl h
  · exact Or.inr h

theorem beq_zero_iff_unpack {x : Float} : x == 0 ↔ ∃ s, x.toModel.unpack = .zero s := by
  constructor
  · intro h
    rcases eq_zero_of_beq h with rfl | rfl
    · exact ⟨_, rfl⟩
    · exact ⟨_, rfl⟩
  · rintro ⟨s, h⟩
    show x.toModel.unpack.beq (0 : Float).toModel.unpack = true
    rw [h]
    rfl

theorem lt_iff_compare {x y : Float} :
    x < y ↔ x.toModel.unpack.compare y.toModel.unpack = some .lt := by
  show decide (x.toModel < y.toModel) = true ↔ _
  rw [decide_eq_true_iff]
  exact beq_iff_eq

theorem beq_iff_compare {x y : Float} :
    x == y ↔ x.toModel.unpack.compare y.toModel.unpack = some .eq := by
  show (x.toModel.unpack.compare y.toModel.unpack == some .eq) = true ↔ _
  exact beq_iff_eq

/-- The sign of a zero does not count. -/
theorem zero_compare (s s' : Sign) (u : UnpackedFloat) :
    (zero s).compare u = (zero s').compare u := by
  rcases u with (_ | _) | _ | _ | ⟨_ | _⟩ <;> rfl

theorem compare_zero (s s' : Sign) (u : UnpackedFloat) :
    u.compare (zero s) = u.compare (zero s') := by
  rcases u with (_ | _) | _ | _ | ⟨_ | _⟩ <;> rfl

theorem pack_unpack_eq (m : Float.Model) : Float.Model.pack m.unpack = m := by
  obtain ⟨bits, valid⟩ := m
  have hbits := UnpackedFloat.pack_unpack_of_valid valid
  unfold Float.Model.pack Float.Model.unpack
  simp only [hbits]

/-- Adding zero changes nothing but the sign of a zero. -/
theorem add_zero_cases (x : Float) {z : Float} (hz : z == 0) :
    x + z = x ∨ (x == 0 ∧ x + z == 0) := by
  obtain ⟨s, hs⟩ := beq_zero_iff_unpack.1 hz
  have hsum : (x + z).toModel = Float.Model.pack (add .binary64 x.toModel.unpack (.zero s)) := by
    rw [← hs]
    rfl
  cases hx : x.toModel.unpack with
  | notANumber | infinity | finite =>
    have hadd : add .binary64 x.toModel.unpack (.zero s) = x.toModel.unpack := by
      rw [hx]
      rfl
    rw [hadd, pack_unpack_eq] at hsum
    exact Or.inl (congrArg Float.ofModel hsum)
  | zero s' =>
    have hunpack : ∃ s, (x + z).toModel.unpack = .zero s := by
      rw [hsum, hx]
      cases s <;> cases s' <;> exact ⟨_, rfl⟩
    exact Or.inr ⟨beq_zero_iff_unpack.2 ⟨s', hx⟩, beq_zero_iff_unpack.2 hunpack⟩

theorem HasSign.ne_zero {s : Sign} {x : Float} (h : HasSign s x) : ¬ x == 0 := by
  obtain ⟨e, m, hem, hx⟩ := h
  obtain ⟨u, hu⟩ := hem.unpacked
  obtain ⟨hunpack, hneg, hle⟩ := hu s
  have hle' := (hu (-s)).2.2
  intro hzero
  obtain ⟨s', hs'⟩ := beq_zero_iff_unpack.1 hzero
  -- with either sign it would be at most zero
  rw [Float.Model.unpack, hx, hunpack] at hs'
  rw [← hneg, hs'] at hle'
  rw [hs'] at hle
  cases s with
  | positive => cases s' <;> cases hle
  | negative => cases s' <;> cases hle'

/-- What is neither zero nor NaN has a sign. -/
theorem sign_cases (x : Float) :
    x == 0 ∨ x.toModel.unpack = .notANumber ∨ ∃ s, HasSign s x := by
  by_cases hzero : x == 0
  · exact Or.inl hzero
  by_cases hnan : x.toModel.unpack = .notANumber
  · exact Or.inr (Or.inl hnan)
  obtain ⟨s, e, m, hbits⟩ : ∃ s e m,
      x.toModel.toBits.toBitVec = packComponents .binary64 s e m :=
    ⟨_, _, _, (@packComponents_unpackSign_unpackExponent_unpackMantissa .binary64 _).symm⟩
  refine Or.inr (Or.inr ⟨s, e, m, ⟨fun he => ?_, fun he hm => ?_⟩, hbits⟩)
  · by_contra hm
    exact hnan (by simp [Float.Model.unpack, UnpackedFloat.unpack, hbits, he, hm])
  · exact hzero (beq_zero_iff_unpack.2 ⟨s, by
      simp [Float.Model.unpack, UnpackedFloat.unpack, hbits, he, hm]⟩)

theorem beq_zero_of_neg {x : Float} (h : -x == 0) : x == 0 := by
  rcases sign_cases x with hzero | hnan | ⟨s, hs⟩
  · exact hzero
  · obtain ⟨s, hs⟩ := beq_zero_iff_unpack.1 h
    have hneg : (-x).toModel = Float.Model.pack x.toModel.unpack.neg := rfl
    rw [hneg, hnan] at hs
    cases hs
  · exact absurd h hs.neg.ne_zero

theorem integerPart_zero {x : Float} (h : x == 0) : integerPart x = 0 := by
  rcases eq_zero_of_beq h with rfl | rfl <;> rfl

theorem integerPart_add_zero (x : Float) {z : Float} (hz : z == 0) :
    integerPart (x + z) = integerPart x := by
  rcases add_zero_cases x hz with heq | ⟨hx, hsum⟩
  · rw [heq]
  · rw [integerPart_zero hx, integerPart_zero hsum]

namespace Value

def IsZero : Value → Prop
  | .int n => n = 0
  | .float x => x == 0

theorem IsZero.toFloat {v : Value} (h : v.IsZero) : v.toFloat == 0 := by
  cases v with
  | int n =>
    obtain rfl : n = 0 := h
    decide
  | float x => exact h

theorem IsZero.convert {v : Value} (h : v.IsZero) (k : NumKind) : (v.convert k).IsZero := by
  cases k with
  | float => cases v <;> exact h.toFloat
  | int =>
    cases v with
    | int n => exact h
    | float x => exact integerPart_zero h

theorem IsZero.minus {v : Value} (h : v.IsZero) : (unary .minus v).IsZero := by
  cases v with
  | int n =>
    obtain rfl : n = 0 := h
    rfl
  | float x => rcases eq_zero_of_beq h with rfl | rfl <;> rfl

theorem compare_float (x : Float) (w : Value) : compare (.float x) w =
    if x < w.toFloat then .less else if w.toFloat < x then .greater
    else if x == w.toFloat then .equal else .unordered := by
  cases w <;> rfl

/-- Both zeros compare alike with every value. -/
theorem compare_float_zero {x y : Float} (hx : x == 0) (hy : y == 0) (w : Value) :
    compare (.float x) w = compare (.float y) w := by
  obtain ⟨s, hs⟩ := beq_zero_iff_unpack.1 hx
  obtain ⟨s', hs'⟩ := beq_zero_iff_unpack.1 hy
  have hw := zero_compare s s' w.toFloat.toModel.unpack
  have hw' := compare_zero s s' w.toFloat.toModel.unpack
  simp only [compare_float, lt_iff_compare, beq_iff_compare, hs, hs', hw, hw']

def sum (u v : Value) : Value :=
  match u, v with
  | .int a, .int b => .int (a + b)
  | _, _ => .float (u.toFloat + v.toFloat)

theorem binary_add (u v : Value) : binary .add u v = .ok (u.sum v) := by
  cases u <;> cases v <;> rfl

/-- The value of a counter of the class `k` that started at `v`, after `n` advances by `d`. -/
def counted (k : NumKind) (v d : Value) : Nat → Value
  | 0 => v
  | n + 1 => ((counted k v d n).sum d).convert k

variable {k : NumKind} {v d : Value}

theorem kind_counted (hv : v.kind = k) (n : Nat) : (counted k v d n).kind = k := by
  cases n with
  | zero => exact hv
  | succ n => exact kind_convert k _

theorem compare_sum_zero (hv : v.kind = k) (hd : d.IsZero) (hk : k = .float ∨ d.kind = .int)
    (w : Value) : compare ((v.sum d).convert k) w = compare v w := by
  subst hv
  cases v with
  | int a =>
    cases d with
    | int b =>
      obtain rfl : b = 0 := hd
      simp [sum, convert, kind]
    | float z => simp [kind] at hk
  | float x =>
    have hsum : ((float x).sum d).convert .float = .float (x + d.toFloat) := by
      cases d <;> rfl
    rw [kind, hsum]
    rcases add_zero_cases x hd.toFloat with heq | ⟨hx, hsum⟩
    · rw [heq]
    · exact compare_float_zero hsum hx w

/-- However often a counter advances by zero, it compares as at the start. -/
theorem compare_counted (hv : v.kind = k) (hd : d.IsZero) (hk : k = .float ∨ d.kind = .int)
    (n : Nat) (w : Value) : compare (counted k v d n) w = compare v w := by
  induction n with
  | zero => rfl
  | succ n ih => rw [counted, compare_sum_zero (kind_counted hv n) hd hk, ih]

end Value

/-- The number that decimal digits spell. -/
def Text.decimal (s : Text) : Nat := s.foldl (fun n b => n * 10 + (b.toNat - 48)) 0

namespace Decimal

open Text

variable {s : Text}

theorem readDigits_decimal (h : ∀ b ∈ s, isDigit b) : readDigits 10 0 s = some s.decimal := by
  unfold decimal
  generalize 0 = k
  induction s generalizing k with
  | nil => rfl
  | cons b s ih =>
    have hb := h b List.mem_cons_self
    have hle := (isDigit_iff b).1 hb
    have hlt : b.toNat - 48 < 10 := by omega
    have hrest := ih (fun c hc => h c (List.mem_cons_of_mem _ hc)) (k * 10 + (b.toNat - 48))
    simpa [readDigits, hb, hlt] using hrest

/-- Only zeros spell zero. -/
theorem zeros_of_readDigits {k : Nat} (h : readDigits 10 k s = some 0) :
    k = 0 ∧ ∀ b ∈ s, b = ascii '0' := by
  induction s generalizing k with
  | nil => simpa [readDigits] using h
  | cons b s ih =>
    have hb := isDigit_of_readDigits h b List.mem_cons_self
    have hle := (isDigit_iff b).1 hb
    have hrest : readDigits 10 (k * 10 + (b.toNat - 48)) s = some 0 := by
      unfold readDigits at h
      split at h
      · exact h
      · cases h
    obtain ⟨hzero, hzeros⟩ := ih hrest
    have hb : b = ascii '0' := UInt8.toNat_inj.1 (show b.toNat = 48 by omega)
    refine ⟨by omega, List.forall_mem_cons.2 ⟨hb, hzeros⟩⟩

theorem readInt_zeros {base : Nat} (hbase : 0 < base) (hs : s ≠ []) (h : ∀ b ∈ s, b = ascii '0') :
    readInt base s = some 0 := by
  have hdigits := readDigits_zeros hbase h
  rcases s with _ | ⟨b, rest⟩
  · exact absurd rfl hs
  obtain rfl := h b List.mem_cons_self
  rw [readInt, readSign_digits (by decide)]
  simp [hdigits]

end Decimal

/-- A number without a point and an exponent has nothing but digits. -/
theorem Lexer.digits_of_lexed {s : Text} (h : Word.Lexed ⟨.number, s⟩)
    (hint : Value.isFloatLiteral s = false) : Lexer.Digits s := by
  have hnot : ∀ b ∈ s, b ≠ Text.ascii '.' ∧ b ≠ Text.ascii 'e' ∧ b ≠ Text.ascii 'E' := by
    simpa [Value.isFloatLiteral, not_or, and_assoc] using hint
  cases Lexer.number_of_lexed h with
  | plain hm =>
    cases hm with
    | whole hds => exact hds
    | point => exact absurd rfl (hnot (Text.ascii '.') (by simp)).1
    | fraction => exact absurd rfl (hnot (Text.ascii '.') (by simp)).1
  | scientific _ he =>
    cases he with
    | @mk e sign ds hletter _ _ =>
      obtain ⟨-, he, hE⟩ := hnot e (by simp)
      rcases hletter with rfl | rfl
      · exact absurd rfl he
      · exact absurd rfl hE

theorem Value.ofLiteral_zeros {s : Text} (hne : s ≠ []) (h : ∀ b ∈ s, b = Text.ascii '0') :
    Value.ofLiteral s = .ok (.int 0) := by
  have hfloat := isFloatLiteral_digits fun b hb => by
    rw [h b hb]
    decide
  unfold ofLiteral
  rw [hfloat]
  -- behind a zero the digits are octal
  rcases s with _ | ⟨z, _ | ⟨b, rest⟩⟩
  · exact absurd rfl hne
  · simp [Decimal.readInt_zeros (show 0 < 10 by decide) hne h]
  · obtain rfl := h z List.mem_cons_self
    have hrest := Decimal.readInt_zeros (show 0 < 8 by decide) (List.cons_ne_nil b rest)
      fun c hc => h c (List.mem_cons_of_mem _ hc)
    simp [hrest]

/-- A literal of the value zero is a zero, of the class that its text says. -/
theorem Value.ofLiteral_zero {s : Text} {x : Float} (h : IsNumeral s x) (hx : x == 0) :
    ∃ d, Value.ofLiteral s = .ok d ∧ d.IsZero ∧ (isFloatLiteral s = false → d.kind = .int) := by
  obtain ⟨hlexed, -, -, reading, hread, rfl⟩ := h
  cases hfloat : isFloatLiteral s with
  | true => exact ⟨.float reading.value, by simp [ofLiteral, hfloat, hread], hx, by simp⟩
  | false =>
    obtain ⟨hne, hdigits⟩ := Lexer.digits_of_lexed hlexed hfloat
    have hdecimal := Decimal.readDigits_decimal hdigits
    have hzero : s.decimal = 0 := by
      by_contra hne₀
      exact (Decimal.readFloat_digits (Nat.pos_of_ne_zero hne₀) hdecimal hread).ne_zero hx
    rw [hzero] at hdecimal
    have hzeros := (Decimal.zeros_of_readDigits hdecimal).2
    exact ⟨.int 0, ofLiteral_zeros hne hzeros, rfl, fun _ => rfl⟩

namespace Expr

variable {e : Expr} {v : Float}

/-- A number with a point or an exponent, not under a sign. -/
def isFloatLiteral : Expr → Bool
  | .number _ _ raw => Value.isFloatLiteral raw
  | _ => false

theorem const?_unary {span : Span} {op : Kind} (h : (Expr.unary span op e).const? = some v) :
    (op = .op .plus ∧ e.const? = some v) ∨ ∃ w, op = .op .minus ∧ e.const? = some w ∧ v = -w := by
  unfold const? at h
  split at h
  · cases h
  · rename_i w hw
    split at h
    · exact Or.inl ⟨‹_›, by rw [hw, h]⟩
    · split at h
      · cases h
        exact Or.inr ⟨w, ‹_›, hw, rfl⟩
      · cases h

/-- A constant of the value zero is a zero, and under a sign one of the class of the program. -/
theorem eval_zero (hwf : e.WellFormed) (hconst : e.const? = some v) (hv : v == 0) (k : NumKind)
    (σ : Env) : ∃ d, e.eval k σ = some d ∧ d.IsZero ∧
      (k = .float ∨ e.isFloatLiteral = false → k = .float ∨ d.kind = .int) := by
  induction e generalizing v with
  | number span value raw =>
    cases hconst
    obtain ⟨d, hd, hzero, hkind⟩ := Value.ofLiteral_zero hwf hv
    have hraw : raw ≠ [] := hwf.1.1
    exact ⟨d, by simp [eval, numberText, hraw, hd, Except.toOption], hzero, Or.imp_right hkind⟩
  | unary span op e ih =>
    rcases const?_unary hconst with ⟨rfl, he⟩ | ⟨w, rfl, he, rfl⟩
    · obtain ⟨d, hd, hzero, -⟩ := ih hwf.2 he hv
      refine ⟨d.convert k, ?_, hzero.convert k, fun _ => ?_⟩
      · rw [eval_unary (u := .plus) rfl, hd]
        rfl
      · cases k <;> simp
    · obtain ⟨d, hd, hzero, -⟩ := ih hwf.2 he (beq_zero_of_neg hv)
      refine ⟨(Value.unary .minus d).convert k, ?_, hzero.minus.convert k, fun _ => ?_⟩
      · rw [eval_unary (u := .minus) rfl, hd]
        rfl
      · cases k <;> simp
  | _ => cases hconst

theorem held_zero (hwf : e.WellFormed) (hconst : e.const? = some v) (hv : v == 0) (k : NumKind)
    (σ : Env) : ∃ d, e.held k σ = some (some d) ∧ d.IsZero ∧
      (k = .float ∨ e.isFloatLiteral = false → k = .float ∨ d.kind = .int) := by
  obtain ⟨d, hd, hzero⟩ := eval_zero hwf hconst hv k σ
  refine ⟨d, ?_, hzero⟩
  cases e with
  | name => cases hconst
  | number => simpa [held, eval] using hd
  | _ => simp [held, hd]

theorem countsDown_zero (hconst : e.const? = some v) (hv : v == 0) : e.countsDown = true := by
  unfold countsDown
  rw [hconst]
  rcases eq_zero_of_beq hv with rfl | rfl <;> rfl

end Expr

end ThreeAddress
