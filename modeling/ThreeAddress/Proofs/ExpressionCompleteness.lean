import ThreeAddress.Proofs.ExpressionSoundness

/-! Whatever words spell an expression are read as that expression. Reading starts at any place
where an operand may come; a looser level of the grammar needs more of the row of waiting operands
to be empty there. -/
namespace ThreeAddress

open Grammar

namespace Grammar

variable {level : Level} {ws : List Word} {e : Expr}

theorem Expression.bare_eq (h : Expression level ws e) : e.bare = e := by
  induction h <;> simp_all [Expr.relocate, Name.relocate]

/-- The kind of the first word shows that an expression begins. -/
theorem Expression.startsOperand (h : Expression level ws e) :
    ∃ w vs, ws = w :: vs ∧ w.kind.startsOperand := by
  induction h with
  | compare _ _ _ _ ih _ | add _ _ _ _ ih _ | multiply _ _ _ _ ih _ =>
    obtain ⟨w, vs, rfl, hw⟩ := ih
    exact ⟨w, _, rfl, hw⟩
  | ofSum _ ih | ofProduct _ ih | ofSigned _ ih | ofOperand _ ih => exact ih
  | @sign ws w o e hk ho _ _ => exact ⟨w, ws, rfl, by simp [hk, Kind.startsOperand, ho]⟩
  | @number w value hn => exact ⟨w, [], rfl, by simp [hn.1, Kind.startsOperand]⟩
  | @name w hk => exact ⟨w, [], rfl, by simp [hk, Kind.startsOperand]⟩
  | @true w hk => exact ⟨w, [], rfl, by simp [hk, Kind.startsOperand]⟩
  | @false w hk => exact ⟨w, [], rfl, by simp [hk, Kind.startsOperand]⟩
  | @parens ws v w e hk _ _ _ =>
    exact ⟨v, ws ++ [w], rfl, by simp [hk, Kind.startsOperand]⟩

end Grammar

namespace Reading

/-- The tokens lead from one reading to another without completing the expression. -/
inductive Reads : Reading → List Token → Reading → Prop
  | nil {r : Reading} : Reads r [] r
  | cons {r r' r'' : Reading} {t : Token} {ts : List Token} :
      r.step t = .ok (.more r') → Reads r' ts r'' → Reads r (t :: ts) r''

variable {r r' r'' : Reading} {ts us : List Token} {t : Token} {e o : Expr} {op : Op}

theorem Reads.append (h : Reads r ts r') (h' : Reads r' us r'') : Reads r (ts ++ us) r'' := by
  induction h with
  | nil => exact h'
  | cons hs _ ih => exact .cons hs (ih h')

theorem Reads.single (h : r.step t = .ok (.more r')) : Reads r [t] r' := .cons h .nil

/-- An operand may come, and the row of waiting operands is empty as far as the level needs. -/
def Ready (r : Reading) : Level → Prop
  | .operand | .signed => r.operand = none
  | .product => r.operand = none ∧ r.inner.product = none ∧ r.inner.signs = []
  | .sum => r.operand = none ∧ r.inner.sum = none ∧ r.inner.product = none ∧ r.inner.signs = []
  | .expr => r.operand = none ∧ r.inner = .none

/-- Compared with `r`, the reading `r'` has read the expression `e` at the given level. -/
def Has (r r' : Reading) (e : Expr) (level : Level) : Prop :=
  r'.outer = r.outer ∧ ∃ o, r'.operand = some o ∧
    match level with
    | .operand => r'.inner = r.inner ∧ o.bare = e.bare
    | .signed => r'.inner.comparison = r.inner.comparison ∧ r'.inner.sum = r.inner.sum ∧
        r'.inner.product = r.inner.product ∧ (r'.inner.signed o).bare = (r.inner.signed e).bare
    | .product => r'.inner.comparison = r.inner.comparison ∧ r'.inner.sum = r.inner.sum ∧
        (r'.inner.factor o).bare = e.bare
    | .sum => r'.inner.comparison = r.inner.comparison ∧ (r'.inner.term o).bare = e.bare
    | .expr => (r'.inner.whole o).bare = e.bare

theorem bare_signed (signs : List Token) {a b : Expr} (h : a.bare = b.bare) :
    (signs.foldl (fun e sign => Expr.unary ⟨sign.pos, e.stop⟩ sign.kind e) a).bare =
      (signs.foldl (fun e sign => Expr.unary ⟨sign.pos, e.stop⟩ sign.kind e) b).bare := by
  induction signs generalizing a b with
  | nil => exact h
  | cons t signs ih => exact ih (by simp [Expr.relocate, h])

theorem step_multiply (ho : r.operand = some o) (hk : t.kind = .op op)
    (hop : op.isMultiplicative) : r.step t = .ok (.more ⟨r.outer,
      { r.inner with product := some (r.inner.factor o, t.kind), signs := [] }, none⟩) := by
  simp [step, ho, takeOperator, hk, hop]

theorem step_add (ho : r.operand = some o) (hk : t.kind = .op op) (hop : op.isAdditive) :
    r.step t = .ok (.more ⟨r.outer,
      ⟨r.inner.comparison, some (r.inner.term o, t.kind), none, []⟩, none⟩) := by
  have hm : op.isMultiplicative = false := by
    cases op <;> simp_all [Op.isAdditive, Op.isMultiplicative]
  simp [step, ho, takeOperator, hk, hm, hop]

theorem step_compare (ho : r.operand = some o) (hc : r.inner.comparison = none)
    (hk : t.kind = .op op) (hop : op.isRelational) : r.step t = .ok (.more ⟨r.outer,
      ⟨some (r.inner.term o, t.kind), none, none, []⟩, none⟩) := by
  have hm : op.isMultiplicative = false := by
    cases op <;> simp_all [Op.isRelational, Op.isMultiplicative]
  have ha : op.isAdditive = false := by cases op <;> simp_all [Op.isRelational, Op.isAdditive]
  simp [step, ho, takeOperator, hk, hm, ha, hop, hc]

theorem step_close {p : Pending} {outer : List Pending} (ho : r.operand = some o)
    (hout : r.outer = p :: outer) (hk : t.kind = .op .rparen) :
    r.step t = .ok (.more ⟨outer, p, some (r.inner.whole o)⟩) := by
  simp [step, ho, takeOperator, hk, Op.isMultiplicative, Op.isAdditive, Op.isRelational, leave,
    hout]

theorem step_open (ho : r.operand = none) (hk : t.kind = .op .lparen) :
    r.step t = .ok (.more ⟨r.inner :: r.outer, .none, none⟩) := by
  simp [step, ho, takeOperand, hk, Except.map]

theorem step_sign (ho : r.operand = none) (hk : t.kind = .op op) (hop : op.isSign) :
    r.step t = .ok (.more { r with inner := { r.inner with signs := t :: r.inner.signs } }) := by
  cases op <;> simp_all [step, takeOperand, Except.map, Op.isSign]

/-- An operator that goes on with the operand before it. -/
def continues : Kind → Bool
  | .op op => op.isMultiplicative || op.isAdditive || op.isRelational
  | _ => false

theorem step_whole (ho : r.operand = some o) (hout : r.outer = []) (ht : continues t.kind = false) :
    r.step t = .ok (.whole (r.inner.whole o)) := by
  cases hk : t.kind <;> simp_all [step, takeOperator, leave, continues]

theorem reads_leaf (ho : r.operand = none) (o : Expr) (hb : o.bare = e.bare)
    (h : r.takeOperand t = .ok { r with operand := some o }) :
    ∃ r', Reads r [t] r' ∧ r.Has r' e .operand := by
  refine ⟨{ r with operand := some o }, .single ?_, rfl, o, rfl, rfl, hb⟩
  simp [step, ho, h, Except.map]

theorem map_word_singleton {w : Word} (h : ts.map Token.word = [w]) :
    ∃ t, ts = [t] ∧ t.word = w := by
  obtain ⟨t, us, rfl, ht, hus⟩ := List.map_eq_cons_iff.1 h
  obtain rfl := List.map_eq_nil_iff.1 hus
  exact ⟨t, rfl, ht⟩

/-- Words around an operator are those of tokens around it. -/
theorem map_word_around {ws vs : List Word} {w : Word} (h : ts.map Token.word = ws ++ w :: vs) :
    ∃ us t us', ts = us ++ t :: us' ∧ us.map Token.word = ws ∧ t.word = w ∧
      us'.map Token.word = vs := by
  obtain ⟨us, us', rfl, hus, h⟩ := List.map_eq_append_iff.1 h
  obtain ⟨t, us', rfl, ht, hus'⟩ := List.map_eq_cons_iff.1 h
  exact ⟨us, t, us', rfl, hus, ht, hus'⟩

/-- The words of an expression are read as the expression. -/
theorem reads_expression {level : Level} {ws : List Word} (h : Expression level ws e)
    {ts : List Token} (hts : ts.map Token.word = ws) {r : Reading} (hr : r.Ready level) :
    ∃ r', Reads r ts r' ∧ r.Has r' e level := by
  induction h generalizing ts r with
  | compare _ hk hop _ ihl ihr =>
    obtain ⟨us, t, us', rfl, hus, rfl, hus'⟩ := map_word_around hts
    obtain ⟨ho, hi⟩ := hr
    obtain ⟨r₁, h₁, hout₁, o₁, ho₁, hc₁, hl⟩ :=
      ihl hus (r := r) (by simp [Ready, ho, hi, Pending.none])
    have hstep := step_compare ho₁ (by simp [hc₁, hi, Pending.none]) hk hop
    obtain ⟨r₂, h₂, hout₂, o₂, ho₂, hc₂, hr⟩ := ihr hus'
      (r := ⟨r₁.outer, ⟨some (r₁.inner.term o₁, t.kind), none, none, []⟩, none⟩) (by simp [Ready])
    refine ⟨r₂, h₁.append (.cons hstep h₂), hout₂.trans hout₁, o₂, ho₂, ?_⟩
    rw [Pending.whole, hc₂, Pending.bare_join_some, hl, hr]
    rfl
  | ofSum _ ih =>
    obtain ⟨ho, hi⟩ := hr
    obtain ⟨r₁, h₁, hout₁, o₁, ho₁, hc₁, hl⟩ :=
      ih hts (r := r) (by simp [Ready, ho, hi, Pending.none])
    refine ⟨r₁, h₁, hout₁, o₁, ho₁, ?_⟩
    simp [Pending.whole, hc₁, hi, Pending.none, Pending.join, hl]
  | add _ hk hop _ ihl ihr =>
    obtain ⟨us, t, us', rfl, hus, rfl, hus'⟩ := map_word_around hts
    obtain ⟨r₁, h₁, hout₁, o₁, ho₁, hc₁, hl⟩ := ihl hus hr
    have hstep := step_add ho₁ hk hop
    obtain ⟨r₂, h₂, hout₂, o₂, ho₂, hc₂, hs₂, hr⟩ := ihr hus'
      (r := ⟨r₁.outer, ⟨r₁.inner.comparison, some (r₁.inner.term o₁, t.kind), none, []⟩, none⟩)
      (by simp [Ready])
    refine ⟨r₂, h₁.append (.cons hstep h₂), hout₂.trans hout₁, o₂, ho₂, hc₂.trans hc₁, ?_⟩
    rw [Pending.term, hs₂, Pending.bare_join_some, hl, hr]
    rfl
  | ofProduct _ ih =>
    obtain ⟨ho, hs, hp, hg⟩ := hr
    obtain ⟨r₁, h₁, hout₁, o₁, ho₁, hc₁, hs₁, hl⟩ := ih hts (r := r) ⟨ho, hp, hg⟩
    refine ⟨r₁, h₁, hout₁, o₁, ho₁, hc₁, ?_⟩
    simp [Pending.term, hs₁, hs, Pending.join, hl]
  | multiply _ hk hop _ ihl ihr =>
    obtain ⟨us, t, us', rfl, hus, rfl, hus'⟩ := map_word_around hts
    obtain ⟨r₁, h₁, hout₁, o₁, ho₁, hc₁, hs₁, hl⟩ := ihl hus hr
    have hstep := step_multiply ho₁ hk hop
    obtain ⟨r₂, h₂, hout₂, o₂, ho₂, hc₂, hs₂, hp₂, hr⟩ := ihr hus'
      (r := ⟨r₁.outer, { r₁.inner with product := some (r₁.inner.factor o₁, t.kind), signs := [] },
        none⟩) (by simp [Ready])
    refine ⟨r₂, h₁.append (.cons hstep h₂), hout₂.trans hout₁, o₂, ho₂, hc₂.trans hc₁,
      hs₂.trans hs₁, ?_⟩
    rw [Pending.factor, hp₂, Pending.bare_join_some, hl, hr]
    rfl
  | ofSigned _ ih =>
    obtain ⟨ho, hp, hg⟩ := hr
    obtain ⟨r₁, h₁, hout₁, o₁, ho₁, hc₁, hs₁, hp₁, hl⟩ := ih hts (r := r) ho
    refine ⟨r₁, h₁, hout₁, o₁, ho₁, hc₁, hs₁, ?_⟩
    simpa [Pending.factor, hp₁, hp, Pending.join, Pending.signed, hg] using hl
  | @sign ws w o e hk hop _ ih =>
    obtain ⟨t, us, rfl, rfl, hus⟩ := List.map_eq_cons_iff.1 hts
    have hsign := bare_signed r.inner.signs (a := .unary ⟨t.pos, e.stop⟩ t.kind e)
      (b := .unary .nowhere t.kind e) rfl
    obtain ⟨r₁, h₁, hout₁, o₁, ho₁, hc₁, hs₁, hp₁, hl⟩ := ih hus
      (r := { r with inner := { r.inner with signs := t :: r.inner.signs } }) hr
    exact ⟨r₁, .cons (step_sign hr hk hop) h₁, hout₁, o₁, ho₁, hc₁, hs₁, hp₁,
      hl.trans hsign⟩
  | ofOperand _ ih =>
    obtain ⟨r₁, h₁, hout₁, o₁, ho₁, hi₁, hl⟩ := ih hts (r := r) hr
    refine ⟨r₁, h₁, hout₁, o₁, ho₁, by rw [hi₁], by rw [hi₁], by rw [hi₁], ?_⟩
    rw [hi₁]
    exact bare_signed _ hl
  | @number w value hn =>
    obtain ⟨t, rfl, rfl⟩ := map_word_singleton hts
    have hl := (numberLeaf_eq_ok hn.1).2 ⟨_, hn, rfl⟩
    have hk : t.kind = .number := hn.1
    exact reads_leaf hr (.number t.span value t.text) rfl
      (by simp [takeOperand, hk, hl, Except.map])
  | name hk =>
    obtain ⟨t, rfl, rfl⟩ := map_word_singleton hts
    have hk : t.kind = .name := hk
    exact reads_leaf hr (.name ⟨t.span, t.text⟩) rfl (by simp [takeOperand, hk])
  | true hk =>
    obtain ⟨t, rfl, rfl⟩ := map_word_singleton hts
    have hk : t.kind = .keyword .trueWord := hk
    exact reads_leaf hr (.boolean t.span true) rfl (by simp [takeOperand, hk])
  | false hk =>
    obtain ⟨t, rfl, rfl⟩ := map_word_singleton hts
    have hk : t.kind = .keyword .falseWord := hk
    exact reads_leaf hr (.boolean t.span false) rfl (by simp [takeOperand, hk])
  | parens hv _ hw ih =>
    obtain ⟨us, us', rfl, hus, hus'⟩ := List.map_eq_append_iff.1 hts
    obtain ⟨t, us, rfl, rfl, hinner⟩ := List.map_eq_cons_iff.1 hus
    obtain ⟨t', rfl, rfl⟩ := map_word_singleton hus'
    obtain ⟨r₁, h₁, hout₁, o₁, ho₁, hl⟩ := ih hinner (r := ⟨r.inner :: r.outer, .none, none⟩)
      ⟨rfl, rfl⟩
    refine ⟨_, (Reads.cons (step_open hr hv) h₁).append (.single (step_close ho₁ hout₁ hw)), ?_⟩
    exact ⟨rfl, _, rfl, rfl, hl⟩

end Reading

end ThreeAddress
