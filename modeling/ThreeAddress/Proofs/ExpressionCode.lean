import ThreeAddress.Proofs.Operands

/-! What the instructions of an expression do: they leave its value in the operand, disturb no
variable and no older temporary, or fail where the expression has no value. -/
namespace ThreeAddress

/-- The piece of code stands at number `ip`. -/
def Located (full : List Instr) (ip : Nat) (piece : List Instr) : Prop := piece <+: full.drop ip

namespace Located

variable {full a b : List Instr} {ip : Nat} {i : Instr}

theorem left (h : Located full ip (a ++ b)) : Located full ip a :=
  (List.prefix_append a b).trans h

theorem right (h : Located full ip (a ++ b)) : Located full (ip + a.length) b := by
  obtain ⟨rest, h⟩ := h
  refine ⟨rest, ?_⟩
  rw [← List.drop_drop, ← h, List.append_assoc, List.drop_left]

theorem head (h : Located full ip (i :: a)) : full[ip]? = some i := by
  obtain ⟨rest, h⟩ := h
  have hget : (full.drop ip)[0]? = (i :: a ++ rest)[0]? := by rw [h]
  simpa using hget

theorem tail (h : Located full ip (i :: a)) : Located full (ip + 1) a :=
  right (a := [i]) h

end Located

namespace Machine

/-- The machine comes to an instruction that fails as expected. -/
def Fails (m : Machine) (vars : List Text) (c : Config) : Prop :=
  ∃ n c' pos f, m.Steps n c c' ∧ m.Faults c' pos f ∧ f.Expected vars

variable {m : Machine} {full : List Instr} {place : Text → Nat} {vars : List Text} {ip n : Nat}
  {s : Store} {c c' : Config} {pos : Pos}

theorem Fails.of_steps (h : m.Steps n c c') (hf : m.Fails vars c') : m.Fails vars c := by
  obtain ⟨n', c'', pos, f, h', hfault, he⟩ := hf
  exact ⟨n + n', c'', pos, f, h.trans h', hfault, he⟩

namespace Executes

theorem steps (hx : m.Executes full place) {i : Instr} (hi : full[ip]? = some i) {s' : Store}
    {flow : Flow} (he : (Step.ofAction place i.action).exec m.kind s = (s', .ok flow)) :
    m.Steps 1 ⟨ip, s⟩ ⟨follow ip flow, s'⟩ :=
  .single ⟨_, _, flow, by rw [hx.fetch, hi]; rfl, he, rfl⟩

theorem fails (hx : m.Executes full place) {i : Instr} (hi : full[ip]? = some i) {s' : Store}
    {f : Fault} (he : (Step.ofAction place i.action).exec m.kind s = (s', .error f))
    (hf : f.Expected vars) : m.Fails vars ⟨ip, s⟩ :=
  ⟨0, _, i.pos, f, .refl _, ⟨_, s', by rw [hx.fetch, hi]; rfl, he⟩, hf⟩

theorem steps_label (hx : m.Executes full place) {name : Text}
    (hi : full[ip]? = some ⟨.label name, pos⟩) (s : Store) :
    m.Steps 1 ⟨ip, s⟩ ⟨ip + 1, s⟩ :=
  hx.steps hi rfl

theorem steps_jump (hx : m.Executes full place) {target : Text}
    (hi : full[ip]? = some ⟨.jump target, pos⟩) (s : Store) :
    m.Steps 1 ⟨ip, s⟩ ⟨place target, s⟩ :=
  hx.steps hi rfl

/-- A value is stored, or there is none and the machine fails. -/
theorem assign_cases (hx : m.Executes full place) {i : Instr} (hi : full[ip]? = some i)
    {declares : Bool} {dest : Text} {value : Calculation} {r : Option Value}
    (ha : Step.ofAction place i.action = .assign declares dest value)
    (hc : Calculates vars (if declares then s.declare dest else s) value r) :
    (∃ v, r = some v ∧ m.Steps 1 ⟨ip, s⟩
      ⟨ip + 1, (if declares then s.declare dest else s).set dest (v.convert m.kind)⟩) ∨
    (r = none ∧ m.Fails vars ⟨ip, s⟩) := by
  cases r with
  | none =>
    obtain ⟨f, hf, he⟩ := hc
    have hexec : (Step.ofAction place i.action).exec m.kind s =
        (if declares then s.declare dest else s, .error f) := by
      simp only [ha, Step.exec, hf]
    exact Or.inr ⟨rfl, hx.fails hi hexec he⟩
  | some v =>
    have hc : value.value (if declares then s.declare dest else s) = .ok v := hc
    have hexec : (Step.ofAction place i.action).exec m.kind s =
        ((if declares then s.declare dest else s).set dest (v.convert m.kind), .ok .next) := by
      simp only [ha, Step.exec, hc]
    exact Or.inl ⟨v, rfl, hx.steps hi hexec⟩

theorem jumpUnless_cases (hx : m.Executes full place) {x target : Text} {r : Option Value}
    (hi : full[ip]? = some ⟨.jumpUnless x target, pos⟩) (hr : Reads vars s x r) :
    (∃ v, r = some v ∧ m.Steps 1 ⟨ip, s⟩ ⟨if v.isTrue then ip + 1 else place target, s⟩) ∨
    (r = none ∧ m.Fails vars ⟨ip, s⟩) := by
  cases r with
  | none =>
    obtain ⟨f, hf, he⟩ := hr
    have hexec : (Step.ofAction place (.jumpUnless x target)).exec m.kind s = (s, .error f) := by
      simp only [Step.ofAction, Step.exec, hf]
    exact Or.inr ⟨rfl, hx.fails hi hexec he⟩
  | some v =>
    have hr : (Operand.ofText x).value s = .ok v := hr
    have hexec : (Step.ofAction place (.jumpUnless x target)).exec m.kind s =
        (s, .ok (if v.isTrue then .next else .goto (place target))) := by
      simp only [Step.ofAction, Step.exec, hr]
    have hstep := hx.steps hi hexec
    refine Or.inl ⟨v, rfl, ?_⟩
    cases hv : v.isTrue <;> simpa [hv, follow] using hstep

theorem jumpIf_cases (hx : m.Executes full place) {x op y target : Text} {r : Option Value}
    (hi : full[ip]? = some ⟨.jumpIf x op y target, pos⟩)
    (hc : Calculates vars s (.ofRhs (.binary x op y)) r) :
    (∃ v, r = some v ∧ m.Steps 1 ⟨ip, s⟩ ⟨if v.isTrue then place target else ip + 1, s⟩) ∨
    (r = none ∧ m.Fails vars ⟨ip, s⟩) := by
  cases r with
  | none =>
    obtain ⟨f, hf, he⟩ := hc
    have hexec : (Step.ofAction place (.jumpIf x op y target)).exec m.kind s =
        (s, .error f) := by
      simp only [Step.ofAction, Step.exec, hf]
    exact Or.inr ⟨rfl, hx.fails hi hexec he⟩
  | some v =>
    have hc : (Calculation.ofRhs (.binary x op y)).value s = .ok v := hc
    have hexec : (Step.ofAction place (.jumpIf x op y target)).exec m.kind s =
        (s, .ok (if v.isTrue then .goto (place target) else .next)) := by
      simp only [Step.ofAction, Step.exec, hc]
    have hstep := hx.steps hi hexec
    refine Or.inl ⟨v, rfl, ?_⟩
    cases hv : v.isTrue <;> simpa [hv, follow] using hstep

end Executes

end Machine

/-- A machine with the code of a program over the names `vars`, lowered with a scheme whose
temporaries do not look like numbers. -/
structure Setup (m : Machine) (full : List Instr) (place : Text → Nat) (scheme : Scheme)
    (vars : List Text) : Prop where
  executes : m.Executes full place
  stem_ne_nil : scheme.tempStem ≠ []
  stem_not_literal : Operand.isLiteral scheme.tempStem = false

/-- From `c` on the machine computes `e` into the operand `x` and comes to `stop`. Temporaries up to
`low` are kept, and `x` keeps its value as long as those up to `high` are; only the operand of a
plain name changes with its variable. -/
def Computes (m : Machine) (scheme : Scheme) (vars : List Text) (σ : Env) (e : Expr)
    (c : Machine.Config) (stop low high : Nat) (x : Text) : Prop :=
  (e.computable m.kind σ = false ∧ m.Fails vars c) ∨
  (e.computable m.kind σ = true ∧ ∃ n s, m.Steps n c ⟨stop, s⟩ ∧ Agrees vars σ s ∧
    Keeps scheme vars low c.store s ∧
    ∀ s', (∀ v ∈ e.name?, s'.value? v.text = σ v.text) → Keeps scheme vars high s s' →
      Reads vars s' x (e.eval m.kind σ))

section

variable {m : Machine} {full : List Instr} {place : Text → Nat} {scheme : Scheme}
  {vars : List Text} {names names' : Names} {code : List Instr} {e : Expr} {x : Text}

theorem ExprCode.lastTemp_le {reserved : List Text}
    (h : ExprCode scheme reserved e names code x names') : names.lastTemp ≤ names'.lastTemp := by
  induction h with
  | number | boolean | name => exact Nat.le_refl _
  | @binary _ _ _ _ _ _ n₂ _ _ _ _ _ _ ihl ihr =>
    have := n₂.lastTemp_lt_nextTemp scheme reserved
    simp only [Names.withTemp]
    omega
  | @unary _ _ _ _ n₁ _ _ _ ih =>
    have := n₁.lastTemp_lt_nextTemp scheme reserved
    simp only [Names.withTemp]
    omega

theorem ExprCode.operand_ne_nil {reserved : List Text}
    (h : ExprCode scheme reserved e names code x names') (hwf : e.WellFormed)
    (hne : scheme.tempStem ≠ []) : x ≠ [] := by
  cases h with
  | @number _ value raw =>
    have hraw : raw ≠ [] := hwf.1.1
    simp [numberText, hraw]
  | @boolean _ value => cases value <;> decide
  | name => exact (Operand.isLiteral_of_isName hwf).1
  | binary | unary => simp [Scheme.temp, hne]

theorem Expr.mem_names_of_name? {v : Name} (h : v ∈ e.name?) : v ∈ e.names := by
  cases e <;> simp_all [Expr.name?, Expr.names]

/-- A leaf needs no code. -/
theorem computes_leaf {σ : Env} {s : Store} {ip low high : Nat} (hleaf : e.isCompound = false)
    (ha : Agrees vars σ s)
    (hr : ∀ s' : Store, (∀ v ∈ e.name?, s'.value? v.text = σ v.text) →
      Reads vars s' x (e.eval m.kind σ)) :
    Computes m scheme vars σ e ⟨ip, s⟩ ip low high x :=
  Or.inr ⟨by simp [Expr.computable, hleaf], 0, s, .refl _, ha,
    Keeps.refl scheme vars low s, fun s' hs' _ => hr s' hs'⟩

theorem Op.read_binary {o : Op} (h : o.isBinary) : ∃ b, BinaryOp.read o.symbol = .ok b := by
  cases o <;> first | exact ⟨_, rfl⟩ | simp [Op.isBinary, Op.isRelational, Op.isAdditive,
    Op.isMultiplicative] at h

theorem Op.read_sign {o : Op} (h : o.isSign) : ∃ u, UnaryOp.read o.symbol = .ok u := by
  cases o <;> first | exact ⟨_, rfl⟩ | simp [Op.isSign] at h

/-- A temporary takes the result of a calculation, or the machine fails. -/
theorem temp_cases (hset : Setup m full place scheme vars) {i : Instr} {ip : Nat} {s : Store}
    {σ : Env} {value : Calculation} {r : Option Value} (names : Names)
    (hi : full[ip]? = some i) (ha : Agrees vars σ s)
    (hact : Step.ofAction place i.action =
      .assign false (scheme.temp (names.nextTemp scheme (scheme.reserved vars))) value)
    (hc : Calculates vars s value r) :
    (∃ v s', r = some v ∧ m.Steps 1 ⟨ip, s⟩ ⟨ip + 1, s'⟩ ∧ Agrees vars σ s' ∧
      Keeps scheme vars names.lastTemp s s' ∧
      ∀ s'', Keeps scheme vars (names.nextTemp scheme (scheme.reserved vars)) s' s'' →
        Reads vars s'' (scheme.temp (names.nextTemp scheme (scheme.reserved vars)))
          (some (v.convert m.kind))) ∨
    (r = none ∧ m.Fails vars ⟨ip, s⟩) := by
  obtain ⟨v, rfl, hstep⟩ | hfail := hset.executes.assign_cases hi hact (by simpa using hc)
  · have hnot := Names.temp_nextTemp_not_mem scheme vars names
    refine Or.inl ⟨v, _, rfl, hstep, ha.set_temp hnot,
      .set_temp (names.lastTemp_lt_nextTemp scheme _), fun s'' hk => ?_⟩
    refine reads_temp hset.stem_ne_nil hset.stem_not_literal ?_
    rw [hk _ (Nat.le_refl _) hnot, Store.get?_set, if_pos rfl]
  · exact Or.inr hfail

theorem computes_failed {σ : Env} {c : Machine.Config} {stop low high : Nat}
    (hcompound : e.isCompound) (heval : e.eval m.kind σ = none) (hfail : m.Fails vars c) :
    Computes m scheme vars σ e c stop low high x :=
  Or.inl ⟨by simp [Expr.computable, hcompound, heval], hfail⟩

/-- The last instruction of an operation, after those of its operands. -/
theorem computes_operation (hset : Setup m full place scheme vars) {i : Instr} {n ip low : Nat}
    {c : Machine.Config} {s : Store} {σ : Env} {value : Calculation} {r : Option Value}
    (names : Names) (hsteps : m.Steps n c ⟨ip, s⟩) (hk : Keeps scheme vars low c.store s)
    (hlow : low ≤ names.lastTemp) (hi : full[ip]? = some i) (ha : Agrees vars σ s)
    (hact : Step.ofAction place i.action =
      .assign false (scheme.temp (names.nextTemp scheme (scheme.reserved vars))) value)
    (hc : Calculates vars s value r) (hcompound : e.isCompound)
    (heval : e.eval m.kind σ = r.map (·.convert m.kind)) :
    Computes m scheme vars σ e c (ip + 1) low
      (names.withTemp scheme (scheme.reserved vars)).lastTemp
      (scheme.temp (names.nextTemp scheme (scheme.reserved vars))) := by
  obtain ⟨v, s', rfl, hstep, ha', hk', hr⟩ | ⟨rfl, hfail⟩ := temp_cases hset names hi ha hact hc
  · refine Or.inr ⟨by simp [Expr.computable, heval], n + 1, s', hsteps.trans hstep, ha',
      hk.trans (hk'.mono hlow), fun s'' _ hk'' => ?_⟩
    rw [heval]
    exact hr s'' hk''
  · exact computes_failed hcompound heval (hfail.of_steps hsteps)

theorem Expr.eval_of_not_computable {k : NumKind} {σ : Env} (h : e.computable k σ = false) :
    e.eval k σ = none := by
  simp only [Expr.computable, Bool.or_eq_false_iff, Option.isSome_eq_false_iff,
    Option.isNone_iff_eq_none] at h
  exact h.2

theorem Expr.eval_binary {k : NumKind} {σ : Env} {span : Span} {o : Op} {b : BinaryOp}
    {l r : Expr} (hb : BinaryOp.read o.symbol = .ok b) :
    (Expr.binary span (.op o) l r).eval k σ =
      ((l.eval k σ).bind fun u => (r.eval k σ).bind fun v =>
        (Value.binary b u v).toOption).map (·.convert k) := by
  simp only [Expr.eval, Value.applyBinary, Kind.symbol, hb]
  cases l.eval k σ with
  | none => rfl
  | some u =>
    cases r.eval k σ with
    | none => rfl
    | some v => cases hw : (Value.binary b u v).toOption <;> simp [hw]

theorem Expr.eval_unary {k : NumKind} {σ : Env} {span : Span} {o : Op} {u : UnaryOp}
    (hu : UnaryOp.read o.symbol = .ok u) :
    (Expr.unary span (.op o) e).eval k σ =
      ((e.eval k σ).map (Value.unary u)).map (·.convert k) := by
  simp only [Expr.eval, Value.applyUnary, Kind.symbol, hu]
  cases e.eval k σ <;> rfl

/-- The code of an expression computes it. -/
theorem ExprCode.computes (hset : Setup m full place scheme vars)
    (h : ExprCode scheme (scheme.reserved vars) e names code x names') (hwf : e.WellFormed)
    (hv : ∀ n ∈ e.names, n.text ∈ vars) {ip : Nat} (hat : Located full ip code) {σ : Env}
    {s : Store} (ha : Agrees vars σ s) :
    Computes m scheme vars σ e ⟨ip, s⟩ (ip + code.length) names.lastTemp names'.lastTemp x := by
  induction h generalizing ip s with
  | @number span value raw names =>
    refine computes_leaf rfl ha fun s' _ => ?_
    have hraw : numberText value raw = raw := by
      have : raw ≠ [] := hwf.1.1
      simp [numberText, this]
    simp only [Expr.eval, hraw]
    exact reads_number hwf.1
  | @boolean span value names => exact computes_leaf rfl ha fun s' _ => reads_boolean value
  | @name n names =>
    refine computes_leaf rfl ha fun s' hs' => ?_
    have heq : s'.value? n.text = σ n.text := hs' n rfl
    simp only [Expr.eval, ← heq]
    exact reads_name hwf (hv n (by simp [Expr.names]))
  | @binary span op l r names names₁ names₂ codeL codeR x y hl hr ihl ihr =>
    obtain ⟨⟨o, rfl, ho⟩, hwl, hwr⟩ := hwf
    obtain ⟨b, hb⟩ := Op.read_binary ho
    have hvl : ∀ n ∈ l.names, n.text ∈ vars := fun n hn => hv n (by simp [Expr.names, hn])
    have hvr : ∀ n ∈ r.names, n.text ∈ vars := fun n hn => hv n (by simp [Expr.names, hn])
    obtain ⟨hcl, hfail⟩ | ⟨-, n₁, s₁, hsteps₁, ha₁, hk₁, hr₁⟩ := ihl hwl hvl hat.left.left ha
    · refine computes_failed rfl ?_ hfail
      simp [Expr.eval_binary hb, Expr.eval_of_not_computable hcl]
    obtain ⟨hcr, hfail⟩ | ⟨-, n₂, s₂, hsteps₂, ha₂, hk₂, hr₂⟩ := ihr hwr hvr hat.left.right ha₁
    · refine computes_failed rfl ?_ (hfail.of_steps hsteps₁)
      simp [Expr.eval_binary hb, Expr.eval_of_not_computable hcr]
    have hx := hr₁ s₂ (fun v hm => ha₂ _ (hvl v (Expr.mem_names_of_name? hm))) hk₂
    have hy := hr₂ s₂ (fun v hm => ha₂ _ (hvr v (Expr.mem_names_of_name? hm)))
      (Keeps.refl scheme vars _ s₂)
    have hact : Step.ofAction place (.compute scheme.type
        (scheme.temp (names₂.nextTemp scheme (scheme.reserved vars))) (.ofParts o.symbol x y)) =
        .assign false (scheme.temp (names₂.nextTemp scheme (scheme.reserved vars)))
          (.binary (.ok b) (.ofText x) (.ofText y)) := by
      have hne := hr.operand_ne_nil hwr hset.stem_ne_nil
      simp [Step.ofAction, Rhs.ofParts, hne, Calculation.ofRhs, hb]
    have hlast := hat.right.head
    rw [List.length_append, ← Nat.add_assoc] at hlast
    have hdone := computes_operation (e := .binary span (.op o) l r) hset names₂
      (hsteps₁.trans hsteps₂) (hk₁.trans (hk₂.mono hl.lastTemp_le))
      (Nat.le_trans hl.lastTemp_le hr.lastTemp_le) hlast ha₂ hact
      (calculates_binary hx hy) rfl (Expr.eval_binary hb)
    simpa [Nat.add_assoc] using hdone
  | @unary span op e names names₁ code x he ih =>
    obtain ⟨⟨o, rfl, ho⟩, hwe⟩ := hwf
    obtain ⟨u, hu⟩ := Op.read_sign ho
    have hv : ∀ n ∈ e.names, n.text ∈ vars := hv
    obtain ⟨hce, hfail⟩ | ⟨-, n₁, s₁, hsteps₁, ha₁, hk₁, hr₁⟩ := ih hwe hv hat.left ha
    · refine computes_failed rfl ?_ hfail
      simp [Expr.eval_unary hu, Expr.eval_of_not_computable hce]
    have hx := hr₁ s₁ (fun v hm => ha₁ _ (hv v (Expr.mem_names_of_name? hm)))
      (Keeps.refl scheme vars _ s₁)
    have hact : Step.ofAction place (.compute scheme.type
        (scheme.temp (names₁.nextTemp scheme (scheme.reserved vars))) (.ofParts o.symbol x [])) =
        .assign false (scheme.temp (names₁.nextTemp scheme (scheme.reserved vars)))
          (.unary (.ok u) (.ofText x)) := by
      have hne : o.symbol ≠ [] := by cases o <;> decide
      simp [Step.ofAction, Rhs.ofParts, hne, Calculation.ofRhs, hu]
    have hdone := computes_operation (e := .unary span (.op o) e) hset names₁ hsteps₁ hk₁
      he.lastTemp_le hat.right.head ha₁ hact (calculates_unary hx) rfl (Expr.eval_unary hu)
    simpa [Nat.add_assoc] using hdone

theorem BoundCode.lastTemp_le {reserved : List Text}
    (h : BoundCode scheme reserved e names code x names') : names.lastTemp ≤ names'.lastTemp := by
  cases h with
  | plain _ h => exact h.lastTemp_le
  | copied => exact Nat.le_of_lt (names.lastTemp_lt_nextTemp scheme reserved)

theorem Expr.held_of_not_computable {k : NumKind} {σ : Env} (h : e.computable k σ = false) :
    e.held k σ = none := by
  have hnone := Expr.eval_of_not_computable h
  cases e with
  | binary | unary => simp [Expr.held, hnone]
  | _ => simp [Expr.computable, Expr.isCompound] at h

theorem Expr.held_of_computable {k : NumKind} {σ : Env} (h : e.computable k σ)
    (hn : e.name? = none) (hwf : e.WellFormed) : e.held k σ = some (e.eval k σ) := by
  cases e with
  | missing => exact hwf.elim
  | number | boolean => rfl
  | name n => simp [Expr.name?] at hn
  | binary | unary =>
    obtain ⟨v, hv⟩ := Option.isSome_iff_exists.1 h
    simp [Expr.held, hv]

/-- The code of a bound computes it once and keeps it, whatever becomes of the variables. -/
theorem BoundCode.holds (hset : Setup m full place scheme vars)
    (h : BoundCode scheme (scheme.reserved vars) e names code x names') (hwf : e.WellFormed)
    (hv : ∀ n ∈ e.names, n.text ∈ vars) {ip : Nat} (hat : Located full ip code) {σ : Env}
    {s : Store} (ha : Agrees vars σ s) :
    (e.held m.kind σ = none ∧ m.Fails vars ⟨ip, s⟩) ∨
    ∃ r n s', e.held m.kind σ = some r ∧ m.Steps n ⟨ip, s⟩ ⟨ip + code.length, s'⟩ ∧
      Agrees vars σ s' ∧ Keeps scheme vars names.lastTemp s s' ∧
      ∀ s'', Keeps scheme vars names'.lastTemp s' s'' → Reads vars s'' x r := by
  cases h with
  | plain hn h =>
    obtain ⟨hc, hfail⟩ | ⟨hc, n, s', hsteps, ha', hk, hr⟩ := h.computes hset hwf hv hat ha
    · exact Or.inl ⟨Expr.held_of_not_computable hc, hfail⟩
    · exact Or.inr ⟨_, n, s', Expr.held_of_computable hc hn hwf, hsteps, ha', hk,
        fun s'' => hr s'' (by simp [hn])⟩
  | @copied v =>
    have hmem : v.text ∈ vars := hv v (by simp [Expr.names])
    have hread : Reads vars s v.text (σ v.text) := by
      rw [← ha _ hmem]
      exact reads_name hwf hmem
    obtain ⟨w, s', hw, hstep, ha', hk, hr⟩ | ⟨hw, hfail⟩ :=
      temp_cases hset names hat.head ha rfl (calculates_copy hread)
    · exact Or.inr ⟨_, 1, s', by simp [Expr.held, hw], hstep, ha', hk, hr⟩
    · exact Or.inl ⟨by simp [Expr.held, hw], hfail⟩

/-- The operands hold the values of the conditions. -/
def ReadsConditions (k : NumKind) (vars : List Text) (σ : Env) (s : Store) :
    List Text → List (Branch Stmt) → Prop
  | x :: xs, b :: bs => Reads vars s x (b.cond.eval k σ) ∧ ReadsConditions k vars σ s xs bs
  | _, _ => True

theorem ConditionsCode.lastTemp_le {reserved : List Text} {bs : List (Branch Stmt)}
    {xs : List Text} (h : ConditionsCode scheme reserved bs names code xs names') :
    names.lastTemp ≤ names'.lastTemp := by
  induction h with
  | nil => exact Nat.le_refl _
  | cons he _ ih => exact Nat.le_trans he.lastTemp_le ih

/-- All conditions that need code are computed before any is tested. -/
theorem ConditionsCode.computes (hset : Setup m full place scheme vars) {bs : List (Branch Stmt)}
    {xs : List Text} (h : ConditionsCode scheme (scheme.reserved vars) bs names code xs names')
    (hwf : Stmt.WellFormedBranches bs) (hv : ∀ n ∈ Stmt.namesOfBranches bs, n.text ∈ vars)
    {ip : Nat} (hat : Located full ip code) {σ : Env} {s : Store} (ha : Agrees vars σ s) :
    (bs.all (·.cond.computable m.kind σ) = false ∧ m.Fails vars ⟨ip, s⟩) ∨
    (bs.all (·.cond.computable m.kind σ) = true ∧
      ∃ n s', m.Steps n ⟨ip, s⟩ ⟨ip + code.length, s'⟩ ∧ Agrees vars σ s' ∧
        Keeps scheme vars names.lastTemp s s' ∧
        ∀ s'', Agrees vars σ s'' → Keeps scheme vars names'.lastTemp s' s'' →
          ReadsConditions m.kind vars σ s'' xs bs) := by
  induction h generalizing ip s with
  | nil => exact Or.inr ⟨rfl, 0, s, .refl _, ha, Keeps.refl scheme vars _ s, fun _ _ _ => trivial⟩
  | @cons b rest names names₁ names₂ code codes x xs he hrest ih =>
    obtain ⟨cond, body⟩ := b
    obtain ⟨hwc, -, hwr⟩ := hwf
    have hvc : ∀ n ∈ cond.names, n.text ∈ vars :=
      fun n hn => hv n (by simp [Stmt.namesOfBranches, hn])
    have hvr : ∀ n ∈ Stmt.namesOfBranches rest, n.text ∈ vars :=
      fun n hn => hv n (by simp [Stmt.namesOfBranches, hn])
    obtain ⟨hc, hfail⟩ | ⟨hc, n₁, s₁, hsteps₁, ha₁, hk₁, hr₁⟩ :=
      he.computes hset hwc hvc hat.left ha
    · exact Or.inl ⟨by simp [hc], hfail⟩
    obtain ⟨hcs, hfail⟩ | ⟨hcs, n₂, s₂, hsteps₂, ha₂, hk₂, hr₂⟩ := ih hwr hvr hat.right ha₁
    · exact Or.inl ⟨by simp_all, hfail.of_steps hsteps₁⟩
    refine Or.inr ⟨by simp_all, n₁ + n₂, s₂, ?_, ha₂,
      hk₁.trans (hk₂.mono he.lastTemp_le), fun s'' ha'' hk'' => ⟨?_, hr₂ s'' ha'' hk''⟩⟩
    · simpa [Nat.add_assoc] using hsteps₁.trans hsteps₂
    · exact hr₁ s'' (fun v hm => ha'' _ (hvc v (Expr.mem_names_of_name? hm)))
        (hk₂.trans (hk''.mono hrest.lastTemp_le))

end

end ThreeAddress
