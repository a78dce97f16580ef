import ThreeAddress.Proofs.Grammar

/-! The words that an expression in the course of being read has taken in. An operand, and each
left operand that waits, is spelled by its own stretch of them, so that whatever is returned in the
end is spelled by all. -/
namespace ThreeAddress

open Grammar

/-- The words of a left operand that waits for its right one, the operator included. -/
def Waiting (level : Level) (joins : Op → Bool) : Option (Expr × Kind) → List Word → Prop
  | none, ws => ws = []
  | some (left, op), ws => ∃ vs w o, ws = vs ++ [w] ∧ Expression level vs left.bare ∧
      w.kind = op ∧ op = .op o ∧ joins o

theorem Waiting.some {level : Level} {joins : Op → Bool} {vs : List Word} {left : Expr} {t : Token}
    {o : Op} (h : Expression level vs left.bare) (hk : t.kind = .op o) (ho : joins o) :
    Waiting level joins (some (left, t.kind)) (vs ++ [t.word]) :=
  ⟨vs, t.word, o, rfl, h, rfl, hk, ho⟩

namespace Pending

/-- The words `ws` are those of the waiting operands and signs of `p`. -/
def Took (p : Pending) (ws : List Word) : Prop :=
  ∃ cs ss ps, ws = cs ++ (ss ++ (ps ++ p.signs.reverse.map Token.word)) ∧
    Waiting .sum Op.isRelational p.comparison cs ∧ Waiting .sum Op.isAdditive p.sum ss ∧
    Waiting .product Op.isMultiplicative p.product ps ∧
    ∀ t ∈ p.signs, ∃ o, t.kind = .op o ∧ o.isSign

variable {p : Pending} {ws vs : List Word} {e : Expr} {t : Token} {o : Op}

theorem took_none : Pending.none.Took [] := ⟨[], [], [], rfl, rfl, rfl, rfl, by simp [none]⟩

@[simp] theorem join_none (e : Expr) : join .none e = e := rfl

theorem bare_join_some (l r : Expr) (op : Kind) :
    (join (some (l, op)) r).bare = .binary .nowhere op l.bare r.bare := rfl

theorem signed_spelled {signs : List Token} (hs : ∀ t ∈ signs, ∃ o, t.kind = .op o ∧ o.isSign)
    (he : Expression .signed vs e.bare) :
    Expression .signed (signs.reverse.map Token.word ++ vs)
      (signs.foldl (fun e sign => .unary ⟨sign.pos, e.stop⟩ sign.kind e) e).bare := by
  induction signs generalizing e vs with
  | nil => exact he
  | cons t rest ih =>
    obtain ⟨o, hk, ho⟩ := hs t (by simp)
    have hu : Expression .signed (t.word :: vs) (Expr.unary ⟨t.pos, e.stop⟩ t.kind e).bare :=
      .sign hk ho he
    have := ih (fun t ht => hs t (by simp [ht])) hu
    simpa using this

theorem factor_spelled {ps : List Word} (hp : Waiting .product Op.isMultiplicative p.product ps)
    (hs : ∀ t ∈ p.signs, ∃ o, t.kind = .op o ∧ o.isSign) (he : Expression .operand vs e.bare) :
    Expression .product (ps ++ (p.signs.reverse.map Token.word ++ vs)) (p.factor e).bare := by
  have hu : Expression .signed (p.signs.reverse.map Token.word ++ vs) (p.signed e).bare :=
    signed_spelled hs (.ofOperand he)
  unfold factor
  match hw : p.product with
  | .none =>
    rw [hw] at hp
    obtain rfl : ps = [] := hp
    exact .ofSigned hu
  | some (l, op) =>
    rw [hw] at hp
    obtain ⟨us, w, o, rfl, hl, hk, hop, ho⟩ := hp
    rw [bare_join_some, ← hk]
    simpa using Expression.multiply hl (hk.trans hop) ho hu

theorem term_spelled {ss ps : List Word} (ha : Waiting .sum Op.isAdditive p.sum ss)
    (hp : Waiting .product Op.isMultiplicative p.product ps)
    (hs : ∀ t ∈ p.signs, ∃ o, t.kind = .op o ∧ o.isSign) (he : Expression .operand vs e.bare) :
    Expression .sum (ss ++ (ps ++ (p.signs.reverse.map Token.word ++ vs))) (p.term e).bare := by
  have hm := factor_spelled hp hs he
  unfold term
  match hw : p.sum with
  | .none =>
    rw [hw] at ha
    obtain rfl : ss = [] := ha
    exact .ofProduct hm
  | some (l, op) =>
    rw [hw] at ha
    obtain ⟨us, w, o, rfl, hl, hk, hop, ho⟩ := ha
    rw [bare_join_some, ← hk]
    simpa using Expression.add hl (hk.trans hop) ho hm

theorem Took.whole (h : p.Took ws) (he : Expression .operand vs e.bare) :
    Expression .expr (ws ++ vs) (p.whole e).bare := by
  obtain ⟨cs, ss, ps, rfl, hc, ha, hp, hs⟩ := h
  have ht := term_spelled ha hp hs he
  unfold Pending.whole
  match hw : p.comparison with
  | .none =>
    rw [hw] at hc
    obtain rfl : cs = [] := hc
    simpa using Expression.ofSum ht
  | some (l, op) =>
    rw [hw] at hc
    obtain ⟨us, w, o, rfl, hl, hk, hop, ho⟩ := hc
    rw [bare_join_some, ← hk]
    simpa using Expression.compare hl (hk.trans hop) ho ht

theorem Took.sign (h : p.Took ws) (hk : t.kind = .op o) (ho : o.isSign) :
    Took { p with signs := t :: p.signs } (ws ++ [t.word]) := by
  obtain ⟨cs, ss, ps, rfl, hc, ha, hp, hs⟩ := h
  refine ⟨cs, ss, ps, by simp, hc, ha, hp, ?_⟩
  intro u hu
  obtain rfl | hu := List.mem_cons.1 hu
  · exact ⟨o, hk, ho⟩
  · exact hs u hu

theorem Took.multiply (h : p.Took ws) (he : Expression .operand vs e.bare) (hk : t.kind = .op o)
    (ho : o.isMultiplicative) :
    Took { p with product := some (p.factor e, t.kind), signs := [] } (ws ++ vs ++ [t.word]) := by
  obtain ⟨cs, ss, ps, rfl, hc, ha, hp, hs⟩ := h
  have hm := factor_spelled hp hs he
  exact ⟨cs, ss, _, by simp, hc, ha, .some hm hk ho, by simp⟩

theorem Took.add (h : p.Took ws) (he : Expression .operand vs e.bare) (hk : t.kind = .op o)
    (ho : o.isAdditive) :
    Took ⟨p.comparison, some (p.term e, t.kind), .none, []⟩ (ws ++ vs ++ [t.word]) := by
  obtain ⟨cs, ss, ps, rfl, hc, ha, hp, hs⟩ := h
  have ht := term_spelled ha hp hs he
  exact ⟨cs, _, [], by simp, hc, .some ht hk ho, rfl, by simp⟩

theorem Took.compare (h : p.Took ws) (hn : p.comparison = .none)
    (he : Expression .operand vs e.bare) (hk : t.kind = .op o) (ho : o.isRelational) :
    Took ⟨some (p.term e, t.kind), .none, .none, []⟩ (ws ++ vs ++ [t.word]) := by
  obtain ⟨cs, ss, ps, rfl, hc, ha, hp, hs⟩ := h
  rw [hn] at hc
  obtain rfl : cs = [] := hc
  have ht := term_spelled ha hp hs he
  exact ⟨_, [], [], by simp, .some ht hk ho, rfl, rfl, by simp⟩

end Pending

/-- The words of what waits outside the open parentheses, innermost first, with the parentheses. -/
def OuterTook : List Pending → List Word → Prop
  | [], ws => ws = []
  | p :: outer, ws => ∃ os vs w, ws = os ++ (vs ++ [w]) ∧ OuterTook outer os ∧ p.Took vs ∧
      w.kind = .op .lparen

/-- The words of the operand just read, if there is one. -/
def OperandTook : Option Expr → List Word → Prop
  | none, ws => ws = []
  | some e, ws => Expression .operand ws e.bare

namespace Reading

/-- The words `ws` are those that the reading has taken in. -/
def Took (r : Reading) (ws : List Word) : Prop :=
  ∃ os is vs, ws = os ++ (is ++ vs) ∧ OuterTook r.outer os ∧ r.inner.Took is ∧
    OperandTook r.operand vs

variable {r r' : Reading} {ws : List Word} {e : Expr} {t : Token}

theorem took_start : Reading.start.Took [] := ⟨[], [], [], rfl, rfl, Pending.took_none, rfl⟩

theorem hasLeadingZeros_iff (s : Text) : hasLeadingZeros s ↔
    s.all Text.isDigit ∧ s.head? = some (Text.ascii '0') ∧ s.any (· != Text.ascii '0') := by
  rcases s with _ | ⟨a, _ | ⟨b, s⟩⟩
  · simp [hasLeadingZeros]
  · simp [hasLeadingZeros]
  · simp only [hasLeadingZeros, Bool.and_eq_true, beq_iff_eq, decide_eq_true_eq]
    constructor
    · rintro ⟨⟨⟨_, hh⟩, hd⟩, ha⟩
      exact ⟨hd, hh, ha⟩
    · rintro ⟨hd, hh, ha⟩
      exact ⟨⟨⟨by simp, hh⟩, hd⟩, ha⟩

/-- A number leaf is made of exactly the words that the grammar counts as numbers. -/
theorem numberLeaf_eq_ok (hk : t.kind = .number) :
    numberLeaf t = .ok e ↔ ∃ value, IsNumber t.word value ∧ e = .number t.span value t.text := by
  unfold numberLeaf
  by_cases hz : hasLeadingZeros t.text
  · have hn := (hasLeadingZeros_iff t.text).1 hz
    simp [hz, IsNumber, Token.word, hn]
  · have hn := mt (hasLeadingZeros_iff t.text).2 hz
    cases hr : Decimal.readFloat t.text with
    | none => simp [hz, IsNumber, Token.word, hr]
    | some reading =>
      constructor
      · rintro h
        simp only [hz] at h
        cases h
        exact ⟨_, ⟨hk, hn, reading, hr, rfl⟩, rfl⟩
      · rintro ⟨value, ⟨-, -, reading', hr', rfl⟩, rfl⟩
        obtain rfl : reading = reading' := by
          have := hr.symm.trans hr'
          simpa using this
        simp [hz]

theorem took_operand {os is : List Word} (ho : OuterTook r.outer os) (hi : r.inner.Took is)
    (he : Expression .operand [t.word] e.bare) :
    Took { r with operand := some e } (os ++ (is ++ []) ++ [t.word]) :=
  ⟨os, is, [t.word], by simp, ho, hi, he⟩

theorem takeOperand_took (h : r.Took ws) (hn : r.operand = none)
    (hs : r.takeOperand t = .ok r') : r'.Took (ws ++ [t.word]) := by
  obtain ⟨os, is, vs, rfl, ho, hi, hv⟩ := h
  rw [hn] at hv
  obtain rfl : vs = [] := hv
  unfold takeOperand at hs
  split at hs
  · rename_i hk
    cases hl : numberLeaf t with
    | error f => simp [hl, Except.map] at hs
    | ok e =>
      obtain ⟨value, hv, rfl⟩ := (numberLeaf_eq_ok hk).1 hl
      simp only [hl, Except.map, Except.ok.injEq] at hs
      exact hs ▸ took_operand ho hi (.number hv)
  · rename_i hk
    exact Except.ok.inj hs ▸ took_operand ho hi (.name hk)
  · rename_i hk
    exact Except.ok.inj hs ▸ took_operand ho hi (.true hk)
  · rename_i hk
    exact Except.ok.inj hs ▸ took_operand ho hi (.false hk)
  · rename_i hk
    obtain rfl := Except.ok.inj hs
    exact ⟨os ++ (is ++ [t.word]), [], [], by simp, ⟨os, is, t.word, rfl, ho, hi, hk⟩,
      Pending.took_none, rfl⟩
  · rename_i o _ hk
    split at hs
    · rename_i hsign
      obtain rfl := Except.ok.inj hs
      exact ⟨os, is ++ [t.word], [], by simp, ho, hi.sign hk hsign, by simp [hn, OperandTook]⟩
    · cases hs
  · cases hs

/-- A token that leaves the present parentheses closes them, or it comes after the whole. -/
theorem leave_took {vs is os : List Word} (ho : OuterTook r.outer os) (hi : r.inner.Took is)
    (hv : Expression .operand vs e.bare) {pr : Progress} (hs : r.leave e t = .ok pr) :
    (∃ r', pr = .more r' ∧ r'.Took (os ++ (is ++ vs) ++ [t.word])) ∨
      (∃ e', pr = .whole e' ∧ Expression .expr (os ++ (is ++ vs)) e'.bare) := by
  unfold leave at hs
  split at hs
  · rename_i hout
    rw [hout] at ho
    obtain rfl : os = [] := ho
    obtain rfl := Except.ok.inj hs
    exact Or.inr ⟨_, rfl, hi.whole hv⟩
  · rename_i p outer hout
    rw [hout] at ho
    obtain ⟨os', vs', w, rfl, ho, hp, hw⟩ := ho
    split at hs
    · rename_i hk
      obtain rfl := Except.ok.inj hs
      refine Or.inl ⟨_, rfl, os', vs', w :: (is ++ vs) ++ [t.word], by simp, ho, hp, ?_⟩
      exact .parens hw (hi.whole hv) hk
    · cases hs

theorem takeOperator_took (h : r.Took ws) (he : r.operand = some e) {pr : Progress}
    (hs : r.takeOperator e t = .ok pr) :
    (∃ r', pr = .more r' ∧ r'.Took (ws ++ [t.word])) ∨
      (∃ e', pr = .whole e' ∧ Expression .expr ws e'.bare ∧ isSumSign t.word = false) := by
  obtain ⟨os, is, vs, rfl, ho, hi, hv⟩ := h
  rw [he] at hv
  unfold takeOperator at hs
  split at hs
  · rename_i o hk
    split at hs
    · rename_i hm
      obtain rfl := Except.ok.inj hs
      exact Or.inl ⟨_, rfl, os, _, [], by simp, ho, hi.multiply hv hk hm, rfl⟩
    · split at hs
      · rename_i ha
        obtain rfl := Except.ok.inj hs
        exact Or.inl ⟨_, rfl, os, _, [], by simp, ho, hi.add hv hk ha, rfl⟩
      · rename_i ha
        split at hs
        · rename_i hr
          split at hs
          · cases hs
          · rename_i hc
            obtain rfl := Except.ok.inj hs
            exact Or.inl ⟨_, rfl, os, _, [], by simp, ho, hi.compare hc hv hk hr, rfl⟩
        · obtain hl | ⟨e', rfl, hl⟩ := leave_took ho hi hv hs
          · exact Or.inl hl
          · exact Or.inr ⟨e', rfl, hl, by simp [isSumSign, Token.word, hk, ha]⟩
  · rename_i hk
    obtain hl | ⟨e', rfl, hl⟩ := leave_took ho hi hv hs
    · exact Or.inl hl
    · refine Or.inr ⟨e', rfl, hl, ?_⟩
      unfold isSumSign
      split
      · rename_i o heq
        exact absurd heq (hk o)
      · rfl

/-- One token is either taken in, or shows that all words before it spell the expression. -/
theorem step_took (h : r.Took ws) {pr : Progress} (hs : r.step t = .ok pr) :
    (∃ r', pr = .more r' ∧ r'.Took (ws ++ [t.word])) ∨
      (∃ e', pr = .whole e' ∧ Expression .expr ws e'.bare ∧ isSumSign t.word = false) := by
  unfold step at hs
  split at hs
  · rename_i hn
    cases ht : r.takeOperand t with
    | error f => simp [ht, Except.map] at hs
    | ok r' =>
      simp only [ht, Except.map, Except.ok.injEq] at hs
      exact Or.inl ⟨r', hs.symm, takeOperand_took h hn ht⟩
  · rename_i e he
    exact takeOperator_took h he hs

/-- A reading goes on neither with the end of the source nor with an illegal token. -/
theorem kind_of_more (h : r.step t = .ok (.more r')) : t.kind ≠ .eof ∧ t.kind ≠ .illegal := by
  unfold step at h
  split at h
  · constructor <;> intro hk <;> simp [takeOperand, hk, Except.map] at h
  · cases ho : r.outer <;> constructor <;> intro hk <;> simp [takeOperator, leave, hk, ho] at h

end Reading

end ThreeAddress
