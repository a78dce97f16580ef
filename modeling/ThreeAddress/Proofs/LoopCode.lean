import ThreeAddress.Proofs.StatementCode

/-! What the instructions of a loop do, round by round, and with that what lowered code of every
form does. -/
namespace ThreeAddress

section

variable {m : Machine} {full : List Instr} {place : Text → Nat} {scheme : Scheme}
  {vars : List Text} {loop : Option Loop} {names names' : Names} {code inner : List Instr}
  {span : Span}

/-- A round of a loop that tests its condition, from the label in front of the condition on. -/
theorem meets_whileRound (hset : Setup m full place scheme vars) {start stop x : Text}
    {cond : Expr} {body : Env → Outcome} {ip fuel : Nat} {pos pos' : Pos}
    (he : ExprCode scheme (scheme.reserved vars) cond names code x names') (hwc : cond.WellFormed)
    (hvc : ∀ n ∈ cond.names, n.text ∈ vars)
    (hat : Located full ip ([⟨.label start, pos⟩] ++ code ++ [⟨.jumpUnless x stop, pos'⟩] ++
      inner ++ [⟨.jump start, pos⟩, ⟨.label stop, pos⟩]))
    (hbody : ∀ σ s, Agrees vars σ s →
      m.Meets scheme vars fuel
        (exitsOf place (some ⟨stop, start⟩) (ip + 1 + code.length + 1 + inner.length))
        names'.lastTemp ⟨ip + 1 + code.length + 1, s⟩ (body σ))
    {σ : Env} {s : Store} (ha : Agrees vars σ s) :
    m.MeetsRound scheme vars fuel 1 ip (ip + 1 + code.length + 1 + inner.length + 2)
      names.lastTemp ⟨ip, s⟩ (Stmt.whileRound m.kind cond body σ) := by
  have hx := hset.executes
  have hhead := Located.head hat.left.left.left.left
  have htest : Located full (ip + 1 + code.length) [⟨.jumpUnless x stop, pos'⟩] :=
    hat.left.left.right.cast (by simp; omega)
  have hback : Located full (ip + 1 + code.length + 1 + inner.length)
      [⟨.jump start, pos⟩, ⟨.label stop, pos⟩] := hat.right.cast (by simp; omega)
  have hstart : place start = ip := Located.place_eq hat.left.left.left.left hx
  have hstop := hback.tail.place_eq hx
  have hleave : ∀ s, m.Steps 1 ⟨place stop, s⟩
      ⟨ip + 1 + code.length + 1 + inner.length + 2, s⟩ := by
    rw [hstop]
    exact hx.steps_label hback.tail.head
  have hfirst := hx.steps_label hhead s
  rw [Stmt.whileRound]
  obtain ⟨hc, hfail⟩ | ⟨-, n, s₁, hsteps, ha₁, hk₁, hr⟩ :=
    he.computes hset hwc hvc hat.left.left.left.right ha
  · rw [Expr.eval_of_not_computable hc]
    exact hfail.of_steps hfirst
  have hread := hr s₁ (fun v hm => ha₁ _ (hvc v (Expr.mem_names_of_name? hm)))
    (Keeps.refl scheme vars _ s₁)
  obtain ⟨v, hv, hstep⟩ | ⟨hv, hfail⟩ := hx.jumpUnless_cases htest.head hread
  · rw [hv]
    have hsteps' := (hfirst.trans hsteps).trans hstep
    simp only
    split
    · rename_i htrue
      rw [if_pos htrue] at hsteps'
      have hround := Machine.meetsRound_ofBody some ip
        ((hbody σ s₁ ha₁).mono (Nat.le_refl _) he.lastTemp_le) (Keeps.refl scheme vars _ s₁)
        rfl rfl rfl hleave ?_
      · exact (hround.of_steps hsteps' hk₁).mono (by omega)
      · intro ip' hip' σ' s' ha' hk'
        simp only [hstart, List.mem_cons, List.not_mem_nil, or_false] at hip'
        obtain rfl | rfl := hip'
        · have hjump := hx.steps_jump hback.head s'
          rw [hstart] at hjump
          exact Or.inr ⟨σ', 1, s', rfl, hjump, ha', Keeps.refl scheme vars _ s'⟩
        · exact Or.inr ⟨σ', 0, s', rfl, .refl _, ha', Keeps.refl scheme vars _ s'⟩
    · rename_i hfalse
      rw [if_neg hfalse] at hsteps'
      exact ⟨_, s₁, hsteps'.trans (hleave s₁), ha₁, hk₁⟩
  · rw [hv]
    exact (hfail.of_steps hsteps).of_steps hfirst

theorem simulates_while (hset : Setup m full place scheme vars) {start stop x : Text}
    {cond : Expr} {body : Option (Block Stmt)} {pos pos' : Pos}
    (he : ExprCode scheme (scheme.reserved vars) cond names code x names')
    (hb : Simulates m full place scheme vars (some ⟨stop, start⟩) names'.lastTemp inner
      (.list (Stmt.ofBody body))) :
    Simulates m full place scheme vars loop names.lastTemp
      ([⟨.label start, pos⟩] ++ code ++ [⟨.jumpUnless x stop, pos'⟩] ++ inner ++
        [⟨.jump start, pos⟩, ⟨.label stop, pos⟩]) (.stmt (.whileLoop span cond body)) := by
  rintro ⟨hwc, -, hwb⟩ hv ip σ s fuel hat ha
  have hvc : ∀ n ∈ cond.names, n.text ∈ vars := fun n hn => hv n (by simp [Stmt.names, hn])
  have hvb : ∀ n ∈ Stmt.namesOfBody body, n.text ∈ vars :=
    fun n hn => hv n (by simp [Stmt.names, hn])
  have hinner : Located full (ip + 1 + code.length + 1) inner :=
    hat.left.right.cast (by simp; omega)
  rw [Stmt.exec]
  refine Machine.meets_iterate (ip + 1 + code.length + 1 + inner.length + 2) ?_
    (fun σ s ha _ => meets_whileRound hset he hwc hvc hat
      (fun σ s ha => hb.body hwb hvb fuel hinner ha) ha)
    fuel (Nat.le_refl _) σ s ha (Keeps.refl scheme vars _ s)
  simp [exitsOf]
  omega

theorem Lower.read_exitTest (step : Expr) :
    BinaryOp.read (Lower.exitTest step) =
      .ok (if step.countsDown then .lessEqual else .greaterEqual) := by
  unfold Lower.exitTest Expr.countsDown
  cases step.const? with
  | none => rfl
  | some v =>
    by_cases h : v ≤ 0
    · simp only [h, if_true, decide_true]
      rfl
    · simp only [h, if_false, decide_false]
      rfl

theorem Value.isTrue_ofBool (b : Bool) : (Value.ofBool b).isTrue = b := by
  cases b <;> rfl

/-- The test at the head of a loop that counts. -/
theorem exitTest_calculates {σ : Env} {s : Store} {var last : Text} {step : Expr} {r : Option Value}
    (hname : IsName var) (hmem : var ∈ vars) (ha : Agrees vars σ s) (hr : Reads vars s last r) :
    Calculates vars s (.ofRhs (.binary var (Lower.exitTest step) last))
      ((σ var).bind fun u => r.bind fun v => some (.ofBool ((Value.compare u v).satisfies
        (if step.countsDown then .lessEqual else .greaterEqual)))) := by
  have hvar : Reads vars s var (σ var) := ha var hmem ▸ reads_name hname hmem
  rw [Calculation.ofRhs, Lower.read_exitTest]
  cases step.countsDown <;> exact calculates_binary hvar hr

/-- The end of a round of a loop that counts, from the label where `continue` goes on. -/
theorem advance_cases (hx : m.Executes full place) {var step again next stop : Text} {ip : Nat}
    {pos : Pos} {d : Option Value} {σ : Env} {s : Store}
    (hat : Located full ip [⟨.label next, pos⟩, ⟨.store none var "+=" step, pos⟩,
      ⟨.jump again, pos⟩, ⟨.label stop, pos⟩]) (hname : IsName var) (hmem : var ∈ vars) (low : Nat)
    (hd : ∀ s', Keeps scheme vars low s s' → Reads vars s' step d) (ha : Agrees vars σ s) :
    (Stmt.advance m.kind var d σ = none ∧ m.Fails vars ⟨ip, s⟩) ∨
    ∃ σ' n s', Stmt.advance m.kind var d σ = some σ' ∧ m.Steps n ⟨ip, s⟩ ⟨place again, s'⟩ ∧
      Agrees vars σ' s' ∧ Keeps scheme vars low s s' := by
  have hlabel := hx.steps_label hat.head s
  have hadvance : Stmt.advance m.kind var d σ =
      (d.bind fun v => (σ var).bind fun u => (Value.binary .add u v).toOption).map
        fun v => σ.set var (v.convert m.kind) := by
    unfold Stmt.advance
    cases d with
    | none => rfl
    | some v =>
      cases σ var with
      | none => rfl
      | some u => cases hw : (Value.binary .add u v).toOption <;> simp [hw]
  have hcalc : ∀ s', Agrees vars σ s' → (∀ n, Keeps scheme vars n s s') →
      Calculates vars s' (.ofStore var "+=" step)
        (d.bind fun v => (σ var).bind fun u => (Value.binary .add u v).toOption) :=
    fun s' ha' hk' =>
      calculates_update (hd s' (hk' low)) (ha' var hmem ▸ reads_name hname hmem)
  obtain ⟨v, s', hv, hstep, ha', hk⟩ | ⟨hnone, hfail⟩ :=
    store_cases scheme hx hat.tail.head ha hmem hcalc
  · refine Or.inr ⟨_, 1 + 1 + 1, s', by rw [hadvance, hv]; rfl, ?_, ha', hk low⟩
    exact (hlabel.trans hstep).trans (hx.steps_jump hat.tail.tail.head s')
  · exact Or.inl ⟨by rw [hadvance, hnone]; rfl, hfail.of_steps hlabel⟩

/-- A round of a loop that counts, from the label in front of its test on. The operands of its
bounds keep their values as long as the temporaries are as in `base`. -/
theorem meets_forRound (hset : Setup m full place scheme vars)
    {var last step again next stop : Text} {stepExpr : Expr} {body : Env → Outcome}
    {ip fuel low : Nat} {pos : Pos} {base : Store}
    {lastValue stepValue : Option Value} (hname : IsName var) (hmem : var ∈ vars)
    (hlast : ∀ s, Keeps scheme vars low base s → Reads vars s last lastValue)
    (hstep : ∀ s, Keeps scheme vars low base s → Reads vars s step stepValue)
    (hat : Located full ip ([⟨.label again, pos⟩,
      ⟨.jumpIf var (Lower.exitTest stepExpr) last stop, pos⟩] ++ inner ++
      [⟨.label next, pos⟩, ⟨.store none var "+=" step, pos⟩, ⟨.jump again, pos⟩,
        ⟨.label stop, pos⟩]))
    (hbody : ∀ σ s, Agrees vars σ s →
      m.Meets scheme vars fuel (exitsOf place (some ⟨stop, next⟩) (ip + 2 + inner.length)) low
        ⟨ip + 2, s⟩ (body σ))
    {σ : Env} {s : Store} (ha : Agrees vars σ s) (hk : Keeps scheme vars low base s) :
    m.MeetsRound scheme vars fuel 1 ip (ip + 2 + inner.length + 4) low ⟨ip, s⟩
      (Stmt.forRound m.kind var stepExpr.countsDown lastValue stepValue body σ) := by
  have hx := hset.executes
  have htest := (Located.tail hat.left.left).head
  have hend : Located full (ip + 2 + inner.length) [⟨.label next, pos⟩,
      ⟨.store none var "+=" step, pos⟩, ⟨.jump again, pos⟩, ⟨.label stop, pos⟩] :=
    hat.right.cast (by simp; omega)
  have hagain : place again = ip := Located.place_eq hat.left.left hx
  have hnext : place next = ip + 2 + inner.length := hend.place_eq hx
  have hleave : ∀ s, m.Steps 1 ⟨place stop, s⟩ ⟨ip + 2 + inner.length + 4, s⟩ := by
    rw [hend.tail.tail.tail.place_eq hx]
    exact hx.steps_label hend.tail.tail.tail.head
  have hfirst := hx.steps_label (Located.head hat.left.left) s
  unfold Stmt.forRound
  obtain ⟨v, hv, hjump⟩ | ⟨hnone, hfail⟩ :=
    hx.jumpIf_cases htest (exitTest_calculates hname hmem ha (hlast s hk))
  · obtain ⟨i, hi, hv⟩ := Option.bind_eq_some_iff.1 hv
    obtain ⟨w, rfl, hv⟩ := Option.bind_eq_some_iff.1 hv
    obtain rfl := Option.some.inj hv
    rw [Value.isTrue_ofBool] at hjump
    have hsteps := hfirst.trans hjump
    simp only [hi]
    by_cases hout : (Value.compare i w).satisfies
        (if stepExpr.countsDown then .lessEqual else .greaterEqual)
    · rw [if_pos hout] at hsteps ⊢
      exact ⟨_, s, hsteps.trans (hleave s), ha, Keeps.refl scheme vars _ s⟩
    · rw [if_neg hout] at hsteps ⊢
      have hround := Machine.meetsRound_ofBody (Stmt.advance m.kind var stepValue) ip
        (hbody σ s ha) hk rfl rfl rfl hleave ?_
      · exact (hround.of_steps hsteps (Keeps.refl scheme vars _ s)).mono (by omega)
      · -- the body goes on to the label where `continue` jumps to
        intro ip' hip' σ' s' ha' hk'
        have hip' : ip' = ip + 2 + inner.length := by simpa [hnext] using hip'
        subst hip'
        have hadvance := advance_cases hx hend hname hmem low
          (fun s'' hk'' => hstep s'' (hk'.trans hk'')) ha'
        rwa [hagain] at hadvance
  · split
    · simp_all
    · exact hfail.of_steps hfirst

theorem Stmt.exec_forLoop_failed {k : NumKind} {fuel : Nat} {σ : Env} {var : Name} {range : Range}
    {body : Option (Block Stmt)} (h : range.start.eval k σ = none ∨ range.stop.held k σ = none ∨
      range.step.held k σ = none) :
    (Stmt.forLoop span var range body).exec k fuel σ = .failed := by
  rw [Stmt.exec]
  split
  · simp_all
  · rfl

/-- The code in front of a loop that counts: the bounds are computed and the counter gets its first
value, or one of them has none. -/
theorem enter_cases (hset : Setup m full place scheme vars) {var : Text} {range : Range}
    {names₁ names₂ : Names} {code₁ code₂ code₃ : List Instr} {first last step : Text}
    {type : Option Text} {pos : Pos} {ip : Nat} {σ : Env} {s : Store}
    (h₁ : ExprCode scheme (scheme.reserved vars) range.start names code₁ first names₁)
    (h₂ : BoundCode scheme (scheme.reserved vars) range.stop names₁ code₂ last names₂)
    (h₃ : BoundCode scheme (scheme.reserved vars) range.step names₂ code₃ step names')
    (hwf : range.WellFormed)
    (hv : ∀ n ∈ range.start.names ++ range.stop.names ++ range.step.names, n.text ∈ vars)
    (hmem : var ∈ vars)
    (hat : Located full ip (code₁ ++ code₂ ++ code₃ ++ [⟨.store type var "=" first, pos⟩]))
    (ha : Agrees vars σ s) :
    ((range.start.eval m.kind σ = none ∨ range.stop.held m.kind σ = none ∨
      range.step.held m.kind σ = none) ∧ m.Fails vars ⟨ip, s⟩) ∨
    ∃ v lastValue stepValue n s', range.start.eval m.kind σ = some v ∧
      range.stop.held m.kind σ = some lastValue ∧ range.step.held m.kind σ = some stepValue ∧
      m.Steps n ⟨ip, s⟩ ⟨ip + (code₁ ++ code₂ ++ code₃).length + 1, s'⟩ ∧
      Agrees vars (σ.set var (v.convert m.kind)) s' ∧ Keeps scheme vars names.lastTemp s s' ∧
      ∀ s'', Keeps scheme vars names'.lastTemp s' s'' →
        Reads vars s'' last lastValue ∧ Reads vars s'' step stepValue := by
  obtain ⟨hw₁, hw₂, hw₃⟩ := hwf
  have hv₁ : ∀ n ∈ range.start.names, n.text ∈ vars := fun n hn => hv n (by simp [hn])
  have hat₃ : Located full (ip + code₁.length + code₂.length) code₃ :=
    hat.left.right.cast (by simp; omega)
  have hstore : Located full (ip + code₁.length + code₂.length + code₃.length)
      [⟨.store type var "=" first, pos⟩] := hat.right.cast (by simp; omega)
  obtain ⟨hc, hfail⟩ | ⟨-, n₁, s₁, hsteps₁, ha₁, hk₁, hr₁⟩ :=
    h₁.computes hset hw₁ hv₁ hat.left.left.left ha
  · exact Or.inl ⟨Or.inl (Expr.eval_of_not_computable hc), hfail⟩
  obtain ⟨hc, hfail⟩ | ⟨lastValue, n₂, s₂, hlast, hsteps₂, ha₂, hk₂, hr₂⟩ :=
    h₂.holds hset hw₂ (fun n hn => hv n (by simp [hn])) hat.left.left.right ha₁
  · exact Or.inl ⟨Or.inr (Or.inl hc), hfail.of_steps hsteps₁⟩
  obtain ⟨hc, hfail⟩ | ⟨stepValue, n₃, s₃, hstep, hsteps₃, ha₃, hk₃, hr₃⟩ :=
    h₃.holds hset hw₃ (fun n hn => hv n (by simp [hn])) hat₃ ha₂
  · exact Or.inl ⟨Or.inr (Or.inr hc), hfail.of_steps (hsteps₁.trans hsteps₂)⟩
  have hsteps := (hsteps₁.trans hsteps₂).trans hsteps₃
  have hk₁₃ : Keeps scheme vars names₁.lastTemp s₁ s₃ := hk₂.trans (hk₃.mono h₂.lastTemp_le)
  have hcalc : ∀ s', Agrees vars σ s' → (∀ n, Keeps scheme vars n s₃ s') →
      Calculates vars s' (.ofStore var "=" first) (range.start.eval m.kind σ) :=
    fun s' ha' hk' => calculates_copy (hr₁ s'
      (fun v hm => ha' _ (hv₁ v (Expr.mem_names_of_name? hm))) (hk₁₃.trans (hk' _)))
  obtain ⟨v, s₄, hfirst, hstep₄, ha₄, hk₄⟩ | ⟨hnone, hfail⟩ :=
    store_cases scheme hset.executes hstore.head ha₃ hmem hcalc
  · refine Or.inr ⟨v, lastValue, stepValue, _, s₄, hfirst, hlast, hstep,
      by simpa [Nat.add_assoc] using hsteps.trans hstep₄, ha₄,
      hk₁.trans ((hk₁₃.mono h₁.lastTemp_le).trans (hk₄ _)), fun s'' hk'' => ⟨?_, ?_⟩⟩
    · exact hr₂ s'' ((hk₃.trans (hk₄ _)).trans (hk''.mono h₃.lastTemp_le))
    · exact hr₃ s'' ((hk₄ _).trans hk'')
  · exact Or.inl ⟨Or.inl hnone, hfail.of_steps hsteps⟩

theorem simulates_for (hset : Setup m full place scheme vars) {var : Name} {range : Range}
    {body : Option (Block Stmt)} {names₁ names₂ : Names} {code₁ code₂ code₃ : List Instr}
    {first last step again next stop : Text} {type : Option Text} {pos : Pos}
    (h₁ : ExprCode scheme (scheme.reserved vars) range.start names code₁ first names₁)
    (h₂ : BoundCode scheme (scheme.reserved vars) range.stop names₁ code₂ last names₂)
    (h₃ : BoundCode scheme (scheme.reserved vars) range.step names₂ code₃ step names')
    (hb : Simulates m full place scheme vars (some ⟨stop, next⟩) names'.lastTemp inner
      (.list (Stmt.ofBody body))) :
    Simulates m full place scheme vars loop names.lastTemp
      (code₁ ++ code₂ ++ code₃ ++
        [⟨.store type var.text "=" first, pos⟩, ⟨.label again, pos⟩,
          ⟨.jumpIf var.text (Lower.exitTest range.step) last stop, pos⟩] ++ inner ++
        [⟨.label next, pos⟩, ⟨.store none var.text "+=" step, pos⟩, ⟨.jump again, pos⟩,
          ⟨.label stop, pos⟩]) (.stmt (.forLoop span var range body)) := by
  rintro ⟨hname, hwr, -, hwb⟩ hv ip σ s fuel hat ha
  have hmem : var.text ∈ vars := hv var (by simp [Stmt.names])
  have hvb : ∀ n ∈ Stmt.namesOfBody body, n.text ∈ vars :=
    fun n hn => hv n (by simp [Stmt.names, hn])
  have hvr : ∀ n ∈ range.start.names ++ range.stop.names ++ range.step.names, n.text ∈ vars :=
    fun n hn => hv n (by
      rw [Stmt.names, List.mem_append]
      exact Or.inl (List.mem_cons_of_mem _ hn))
  have hle : names.lastTemp ≤ names'.lastTemp :=
    Nat.le_trans h₁.lastTemp_le (Nat.le_trans h₂.lastTemp_le h₃.lastTemp_le)
  have henter : Located full ip
      (code₁ ++ code₂ ++ code₃ ++ [⟨.store type var.text "=" first, pos⟩]) := by
    refine Located.left (b := [⟨.label again, pos⟩,
      ⟨.jumpIf var.text (Lower.exitTest range.step) last stop, pos⟩]) ?_
    simpa using hat.left.left
  have hloop : Located full (ip + (code₁ ++ code₂ ++ code₃).length + 1)
      ([⟨.label again, pos⟩, ⟨.jumpIf var.text (Lower.exitTest range.step) last stop, pos⟩] ++
        inner ++ [⟨.label next, pos⟩, ⟨.store none var.text "+=" step, pos⟩, ⟨.jump again, pos⟩,
          ⟨.label stop, pos⟩]) := by
    refine Located.tail (i := ⟨.store type var.text "=" first, pos⟩) (Located.right ?_)
    simpa using hat
  have hinner := Located.right hloop.left
  obtain ⟨hnone, hfail⟩ | ⟨v, lastValue, stepValue, n, s', hfirst, hlast, hstep, hsteps, ha', hk,
      hr⟩ := enter_cases hset h₁ h₂ h₃ hwr hvr hmem henter ha
  · rw [Stmt.exec_forLoop_failed hnone]
    exact hfail
  rw [Stmt.exec, hfirst, hlast, hstep]
  refine (Machine.meets_iterate (ip + (code₁ ++ code₂ ++ code₃).length + 1 + 2 + inner.length + 4)
    ?_ (fun σ s ha hk => meets_forRound hset hname hmem (fun s'' hk'' => (hr s'' hk'').1)
      (fun s'' hk'' => (hr s'' hk'').2) hloop
      (fun σ s ha => hb.body hwb hvb fuel hinner ha) ha hk)
    fuel (Nat.le_refl _) _ s' ha' (Keeps.refl scheme vars _ s')).after hsteps hk hle
  simp [exitsOf]
  omega

end

/-- Lowered code does what the interpreter says. -/
theorem Lowered.simulates {m : Machine} {full : List Instr} {place : Text → Nat} {scheme : Scheme}
    {vars : List Text} {loop : Option Loop} {task : Task} {names names' : Names}
    {code : List Instr} (hset : Setup m full place scheme vars)
    (h : Lowered scheme (scheme.reserved vars) loop task names code names') :
    Simulates m full place scheme vars loop names.lastTemp code task := by
  induction h with
  | nil => exact simulates_nil
  | cons hs _ ih ih' => exact simulates_cons hs.lastTemp_le ih ih'
  | assign he hs => exact simulates_assign hset he hs
  | eval he => exact simulates_eval hset he
  | branch _ hc hchain _ ih ih' => exact simulates_branch hset hc hchain.lastTemp_le ih ih'
  | chainNil => exact simulates_chain_nil
  | chainCons hb _ ih ih' => exact simulates_chain_cons hset hb.lastTemp_le ih ih'
  | @whileLoop _ _ _ _ n _ _ _ _ _ he _ ih =>
    -- labels leave the temporaries alone
    change Simulates m full place scheme vars _ n.withLabel.withLabel.lastTemp _ _
    exact simulates_while hset he ih
  | forLoop h₁ h₂ h₃ hn _ _ ih =>
    subst hn
    exact simulates_for hset h₁ h₂ h₃ ih
  | breakLoop => exact simulates_jump .breaks hset (fun _ _ _ => by rw [Stmt.exec]) fun _ => rfl
  | continueLoop =>
    exact simulates_jump .continues hset (fun _ _ _ => by rw [Stmt.exec]) fun _ => rfl

end ThreeAddress
