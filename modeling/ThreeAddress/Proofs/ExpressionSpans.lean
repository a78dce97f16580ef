import ThreeAddress.Proofs.ExpressionSoundness
import ThreeAddress.Proofs.Spans

/-! Where the parts of an expression lie while it is read. The left operands that wait, the signs
and the operand just read take up the source one after the other, and so does what is made of
them. -/
namespace ThreeAddress

open ThreeAddress.Tree

variable {src : Text} {lo lo' mid hi hi' i j k a b : Nat} {t : Token} {e : Expr}

/-- An operand under a sign. -/
theorem At.unary (ht : t.Lies src a b) (hle : b ≤ i)
    (he : (Tree.expr e).At src i j) :
    (Tree.expr (.unary ⟨t.pos, e.stop⟩ t.kind e)).At src a j := by
  have hspan : (⟨t.pos, e.stop⟩ : Span) = Span.between src a j := by
    rw [Span.between, ← ht.pos_eq, ← he.stop_eq]
    rfl
  have hlt := he.lt
  have hle' := ht.le
  have hsort : (Tree.expr (.unary ⟨t.pos, e.stop⟩ t.kind e)).sort? = some .unary := rfl
  exact .node hspan (by omega) he.bound hsort (by rintro _ ⟨⟩)
    (.single (by omega) he (Nat.le_refl j))

/-- Two operands and what joins them. -/
theorem At.binary {l r : Expr} {op : Kind} (hl : (Tree.expr l).At src i mid) (hle : mid ≤ a)
    (hr : (Tree.expr r).At src a j) :
    (Tree.expr (.binary ⟨l.start, r.stop⟩ op l r)).At src i j := by
  have hspan : (⟨l.start, r.stop⟩ : Span) = Span.between src i j := by
    rw [Span.between, ← hl.start_eq, ← hr.stop_eq]
    rfl
  have hltl := hl.lt
  have hltr := hr.lt
  have hsort : (Tree.expr (.binary ⟨l.start, r.stop⟩ op l r)).sort? = some .binary := rfl
  exact .node hspan (by omega) hr.bound hsort (by rintro _ ⟨⟩)
    (.cons (Nat.le_refl i) hl (.single hle hr (Nat.le_refl j)))

namespace Pending

/-- The left operand that waits, if there is one. -/
def left (x : Option (Expr × Kind)) : List Tree := x.toList.map fun w => .expr w.1

/-- The signs take up the source one after the other, the first of them behind the rest. -/
inductive SignsLie (src : Text) (lo : Nat) : List Token → Nat → Prop
  | nil {hi : Nat} : lo ≤ hi → SignsLie src lo [] hi
  | cons {hi i j : Nat} {t : Token} {ts : List Token} : SignsLie src lo ts i → t.Lies src i j →
      j ≤ hi → SignsLie src lo (t :: ts) hi

/-- What waits lies between the bytes `lo` and `hi`. -/
def Lies (src : Text) (lo : Nat) (p : Pending) (hi : Nat) : Prop :=
  ∃ a b c, Row src lo (left p.comparison) a ∧ Row src a (left p.sum) b ∧
    Row src b (left p.product) c ∧ SignsLie src c p.signs hi

variable {p : Pending} {signs : List Token}

theorem SignsLie.mono (h : SignsLie src lo signs hi) (hhi : hi ≤ hi') :
    SignsLie src lo signs hi' := by
  cases h with
  | nil hle => exact .nil (by omega)
  | cons h ht hle => exact .cons h ht (by omega)

theorem lies_none (h : lo ≤ hi) : Pending.none.Lies src lo hi :=
  ⟨lo, lo, lo, .nil (Nat.le_refl lo), .nil (Nat.le_refl lo), .nil (Nat.le_refl lo), .nil h⟩

theorem Lies.sign (h : p.Lies src lo hi) (ht : t.Lies src a b) (hle : hi ≤ a) :
    Lies src lo { p with signs := t :: p.signs } b := by
  obtain ⟨c, d, m, hc, hs, hp, hsigns⟩ := h
  exact ⟨c, d, m, hc, hs, hp, .cons (hsigns.mono hle) ht (Nat.le_refl b)⟩

/-- The operand with its signs in front. -/
theorem at_signs (h : SignsLie src lo signs hi) (hle : hi ≤ i) (he : (Tree.expr e).At src i j) :
    ∃ i', lo ≤ i' ∧ (Tree.expr
      (signs.foldl (fun e sign => .unary ⟨sign.pos, e.stop⟩ sign.kind e) e)).At src i' j := by
  induction h generalizing e i with
  | nil hle' => exact ⟨i, by omega, he⟩
  | cons _ ht hle' ih => exact ih (Nat.le_refl _) (At.unary ht (by omega) he)

theorem at_join {x : Option (Expr × Kind)} (h : Row src lo (left x) hi) (hle : hi ≤ i)
    (he : (Tree.expr e).At src i j) : ∃ i', lo ≤ i' ∧ (Tree.expr (join x e)).At src i' j := by
  cases x with
  | none => exact ⟨i, Nat.le_trans h.le hle, he⟩
  | some w =>
    cases h with
    | @cons _ a b _ _ _ hlo hl hrest =>
      have hle' := hrest.le
      exact ⟨a, hlo, At.binary hl (by omega) he⟩

/-- The expressions that end with the operand, the smaller ones behind what still waits. -/
theorem Lies.completed (h : p.Lies src lo hi) (hle : hi ≤ i) (he : (Tree.expr e).At src i j) :
    ∃ a b i₁ i₂ i₃, Row src lo (left p.comparison) a ∧ Row src a (left p.sum) b ∧
      b ≤ i₁ ∧ (Tree.expr (p.factor e)).At src i₁ j ∧ a ≤ i₂ ∧ (Tree.expr (p.term e)).At src i₂ j ∧
      lo ≤ i₃ ∧ (Tree.expr (p.whole e)).At src i₃ j := by
  obtain ⟨a, b, c, hc, hs, hp, hsigns⟩ := h
  obtain ⟨i₀, hle₀, hsigned⟩ := at_signs hsigns hle he
  obtain ⟨i₁, hle₁, hfactor⟩ := at_join hp hle₀ hsigned
  obtain ⟨i₂, hle₂, hterm⟩ := at_join hs hle₁ hfactor
  obtain ⟨i₃, hle₃, hwhole⟩ := at_join hc hle₂ hterm
  exact ⟨a, b, i₁, i₂, i₃, hc, hs, hle₁, hfactor, hle₂, hterm, hle₃, hwhole⟩

end Pending

namespace Reading

/-- What waits outside the open parentheses, innermost first. -/
inductive OuterLies (src : Text) (lo : Nat) : List Pending → Nat → Prop
  | nil {hi : Nat} : lo ≤ hi → OuterLies src lo [] hi
  | cons {mid hi : Nat} {p : Pending} {outer : List Pending} : OuterLies src lo outer mid →
      p.Lies src mid hi → OuterLies src lo (p :: outer) hi

/-- What is read lies between the bytes `lo` and `hi`. -/
def Lies (src : Text) (lo : Nat) (r : Reading) (hi : Nat) : Prop :=
  ∃ a b, OuterLies src lo r.outer a ∧ r.inner.Lies src a b ∧
    Row src b (r.operand.toList.map .expr) hi

/-- What a token that ends at byte `hi` makes of a reading that took up the bytes from `lo` to `k`: a
longer one, or an expression that was complete before it. -/
def Continues (src : Text) (lo k : Nat) : Progress → Nat → Prop
  | .more r, hi => r.Lies src lo hi
  | .whole e, _ => ∃ i j, lo ≤ i ∧ (Tree.expr e).At src i j ∧ j ≤ k

variable {r r' : Reading} {pr : Progress}

theorem lies_start (h : lo ≤ hi) : Reading.start.Lies src lo hi :=
  ⟨lo, lo, .nil (Nat.le_refl lo), Pending.lies_none (Nat.le_refl lo), .nil h⟩

theorem lies_operand {x : Expr} (hn : r.operand = none) (h : r.Lies src lo k) (hle : k ≤ a)
    (hx : (Tree.expr x).At src a b) : Lies src lo { r with operand := some x } b := by
  obtain ⟨m, n, houter, hinner, hrow⟩ := h
  rw [hn] at hrow
  have hle' := hrow.le
  exact ⟨m, n, houter, hinner, .single (by omega) hx (Nat.le_refl b)⟩

theorem takeOperand_lies (hn : r.operand = none) (h : r.Lies src lo k) (ht : t.Lies src a b)
    (hle : k ≤ a) (hs : r.takeOperand t = .ok r') : r'.Lies src lo b := by
  unfold takeOperand at hs
  split at hs
  · rename_i hk
    cases hl : numberLeaf t with
    | error f => simp [hl, Except.map] at hs
    | ok x =>
      obtain ⟨value, -, rfl⟩ := (numberLeaf_eq_ok hk).1 hl
      simp only [hl, Except.map, Except.ok.injEq] at hs
      subst hs
      exact lies_operand hn h hle (.leaf ht (by simp [hk]) rfl rfl rfl rfl)
  · rename_i hk
    obtain rfl := Except.ok.inj hs
    exact lies_operand hn h hle (.leaf ht (by simp [hk]) rfl rfl rfl rfl)
  · rename_i hk
    obtain rfl := Except.ok.inj hs
    have htext := congrArg some (ht.spelling hk)
    exact lies_operand hn h hle (.leaf ht (by simp [hk]) rfl rfl rfl htext)
  · rename_i hk
    obtain rfl := Except.ok.inj hs
    have htext := congrArg some (ht.spelling hk)
    exact lies_operand hn h hle (.leaf ht (by simp [hk]) rfl rfl rfl htext)
  · obtain rfl := Except.ok.inj hs
    obtain ⟨m, n, houter, hinner, hrow⟩ := h
    have hle' := hrow.le
    have hle'' := ht.le
    exact ⟨n, n, .cons houter hinner, Pending.lies_none (Nat.le_refl n), .nil (by omega)⟩
  · split at hs
    · obtain rfl := Except.ok.inj hs
      obtain ⟨m, n, houter, hinner, hrow⟩ := h
      have hle' := hrow.le
      have hsigns := hinner.sign ht (by omega)
      exact ⟨m, b, houter, hsigns, by rw [hn]; exact .nil (Nat.le_refl b)⟩
    · cases hs
  · cases hs

/-- A token that leaves the present parentheses closes them, or it comes after the whole. -/
theorem leave_lies (h : r.Lies src lo k) (ho : r.operand = some e) (ht : t.Lies src a b)
    (hle : k ≤ a) (hs : r.leave e t = .ok pr) : Continues src lo k pr b := by
  obtain ⟨m, n, houter, hinner, hrow⟩ := h
  rw [ho] at hrow
  obtain ⟨i, j, hlo, he, hhi⟩ := hrow.exists_at List.mem_cons_self
  obtain ⟨_, _, _, _, i', -, -, -, -, -, -, hlo', hwhole⟩ := hinner.completed hlo he
  unfold leave at hs
  split at hs
  · rename_i hout
    obtain rfl := Except.ok.inj hs
    rw [hout] at houter
    cases houter with
    | nil hle' => exact ⟨i', j, by omega, hwhole, hhi⟩
  · rename_i p outer hout
    split at hs
    · obtain rfl := Except.ok.inj hs
      rw [hout] at houter
      cases houter with
      | cons houter hp =>
        have hle' := ht.le
        exact ⟨_, m, houter, hp, .single hlo' hwhole (by omega)⟩
    · cases hs

theorem takeOperator_lies (h : r.Lies src lo k) (ho : r.operand = some e) (ht : t.Lies src a b)
    (hle : k ≤ a) (hs : r.takeOperator e t = .ok pr) : Continues src lo k pr b := by
  have hle' := ht.le
  unfold takeOperator at hs
  split at hs
  · -- an operator that goes on makes a left operand of what has been read
    have hparts := h
    obtain ⟨m, n, houter, hinner, hrow⟩ := hparts
    rw [ho] at hrow
    obtain ⟨i, j, hlo, he, hhi⟩ := hrow.exists_at List.mem_cons_self
    obtain ⟨c, d, i₁, i₂, -, hcomparison, hsum, hle₁, hfactor, hle₂, hterm, -⟩ :=
      hinner.completed hlo he
    split at hs
    · obtain rfl := Except.ok.inj hs
      refine ⟨m, b, houter, ?_, .nil (Nat.le_refl b)⟩
      exact ⟨c, d, j, hcomparison, hsum, .single hle₁ hfactor (Nat.le_refl j), .nil (by omega)⟩
    · split at hs
      · obtain rfl := Except.ok.inj hs
        refine ⟨m, b, houter, ?_, .nil (Nat.le_refl b)⟩
        exact ⟨c, j, j, hcomparison, .single hle₂ hterm (Nat.le_refl j), .nil (Nat.le_refl j),
          .nil (by omega)⟩
      · split at hs
        · split at hs
          · cases hs
          · obtain rfl := Except.ok.inj hs
            have hle₃ := hcomparison.le
            refine ⟨m, b, houter, ?_, .nil (Nat.le_refl b)⟩
            exact ⟨j, j, j, .single (by omega) hterm (Nat.le_refl j), .nil (Nat.le_refl j),
              .nil (Nat.le_refl j), .nil (by omega)⟩
        · exact leave_lies h ho ht hle hs
  · exact leave_lies h ho ht hle hs

/-- One token is either taken in, or comes behind the whole expression. -/
theorem step_lies (h : r.Lies src lo k) (ht : t.Lies src a b) (hle : k ≤ a)
    (hs : r.step t = .ok pr) : Continues src lo k pr b := by
  unfold step at hs
  split at hs
  · rename_i hn
    cases htake : r.takeOperand t with
    | error f => simp [htake, Except.map] at hs
    | ok r' =>
      simp only [htake, Except.map, Except.ok.injEq] at hs
      subst hs
      exact takeOperand_lies hn h ht hle htake
  · rename_i ho
    exact takeOperator_lies h ho ht hle hs

end Reading

end ThreeAddress
