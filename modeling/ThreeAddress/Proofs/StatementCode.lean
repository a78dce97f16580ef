import ThreeAddress.Proofs.Simulation

/-! What the instructions of a statement do, one lemma for each form other than a loop. -/
namespace ThreeAddress

theorem Located.cast {full piece : List Instr} {i j : Nat} (h : Located full i piece)
    (heq : i = j) : Located full j piece :=
  heq ▸ h

/-- The definition of a label is its place. -/
theorem Located.place_eq {m : Machine} {full rest : List Instr} {place : Text → Nat} {ip : Nat}
    {name : Text} {pos : Pos} (h : Located full ip (⟨.label name, pos⟩ :: rest))
    (hx : m.Executes full place) : place name = ip :=
  hx.label ip _ name h.head rfl

namespace Stmt

variable (k : NumKind) (fuel : Nat) (σ : Env)

theorem execBody_eq (b : Option (Block Stmt)) :
    execBody k fuel b σ = execList k fuel (ofBody b) σ := by
  cases b with
  | none => simp [execBody, ofBody, execList]
  | some b => simp [execBody, ofBody]

theorem namesOfBody_eq (b : Option (Block Stmt)) : namesOfBody b = namesOfList (ofBody b) := by
  cases b with
  | none => simp [namesOfBody, ofBody, namesOfList]
  | some b => simp [namesOfBody, ofBody]

theorem wellFormedBody_iff (b : Option (Block Stmt)) :
    WellFormedBody b ↔ WellFormedList (ofBody b) := by
  cases b with
  | none => simp [WellFormedBody, ofBody, WellFormedList]
  | some b => simp [WellFormedBody, ofBody]

end Stmt

theorem Lowered.lastTemp_le {scheme : Scheme} {reserved : List Text} {loop : Option Loop}
    {task : Task} {names names' : Names} {code : List Instr}
    (h : Lowered scheme reserved loop task names code names') :
    names.lastTemp ≤ names'.lastTemp := by
  induction h with
  | nil | chainNil | breakLoop | continueLoop => exact Nat.le_refl _
  | cons _ _ ih ih' => exact Nat.le_trans ih ih'
  | assign he _ | eval he => exact he.lastTemp_le
  | branch _ hc _ _ ih ih' => exact Nat.le_trans hc.lastTemp_le (Nat.le_trans ih ih')
  | chainCons _ _ ih ih' => exact Nat.le_trans ih ih'
  | whileLoop he _ ih => exact Nat.le_trans he.lastTemp_le ih
  | forLoop h₁ h₂ h₃ hn _ _ ih =>
    subst hn
    exact Nat.le_trans h₁.lastTemp_le (Nat.le_trans h₂.lastTemp_le
      (Nat.le_trans h₃.lastTemp_le ih))

section

variable {m : Machine} {full : List Instr} {place : Text → Nat} {scheme : Scheme}
  {vars : List Text} {σ : Env} {s : Store} {ip : Nat} {code : List Instr} {pos : Pos}
  {target x : Text} {r : Option Value}

/-- A store into a variable, which may be declared first. -/
theorem store_cases (scheme : Scheme) (hx : m.Executes full place) {type : Option Text} {op : Text}
    (hi : full[ip]? = some ⟨.store type target op x, pos⟩) (ha : Agrees vars σ s)
    (hmem : target ∈ vars)
    (hc : ∀ s', Agrees vars σ s' → (∀ n, Keeps scheme vars n s s') →
      Calculates vars s' (.ofStore target op x) r) :
    (∃ v s', r = some v ∧ m.Steps 1 ⟨ip, s⟩ ⟨ip + 1, s'⟩ ∧
      Agrees vars (σ.set target (v.convert m.kind)) s' ∧ ∀ n, Keeps scheme vars n s s') ∨
    (r = none ∧ m.Fails vars ⟨ip, s⟩) := by
  have hdeclared : Agrees vars σ (if type.isSome then s.declare target else s) ∧
      ∀ n, Keeps scheme vars n s (if type.isSome then s.declare target else s) := by
    split
    · exact ⟨ha.declare_var, fun n => .declare_var hmem⟩
    · exact ⟨ha, fun n => Keeps.refl scheme vars n s⟩
  obtain ⟨ha', hk'⟩ := hdeclared
  obtain ⟨v, hv, hstep⟩ | hfail := hx.assign_cases hi rfl (hc _ ha' hk')
  · exact Or.inl ⟨v, _, hv, hstep, ha'.set_var, fun n => (hk' n).trans (.set_var hmem)⟩
  · exact Or.inr hfail

theorem Op.ofStore_update {o : Op} {b : BinaryOp} (h : o.updates? = some b) :
    Calculation.ofStore target o.symbol x = .update (.ok b) (.ofText target) (.ofText x) := by
  cases o <;> simp only [Op.updates?, reduceCtorEq, Option.some.injEq] at h <;> subst h <;> rfl

theorem Stmt.assigned_update {o : Op} {b : BinaryOp} {value : Expr} {k : NumKind}
    (h : o.updates? = some b) :
    Stmt.assigned k σ target (.op o) value =
      ((value.eval k σ).bind fun v => (σ target).bind fun u =>
        (Value.binary b u v).toOption).map (·.convert k) := by
  have hne : o ≠ .assign := by
    rintro rfl
    simp [Op.updates?] at h
  unfold Stmt.assigned
  cases value.eval k σ with
  | none => rfl
  | some v =>
    cases σ target with
    | none => simp [h]
    | some u => cases hw : (Value.binary b u v).toOption <;> simp [h, hw]

theorem Kind.assign_cases {op : Kind} (h : op.isAssign) :
    op = .op .assign ∨ ∃ o b, op = .op o ∧ o.updates? = some b := by
  cases op with
  | op o =>
    cases o with
    | assign => exact Or.inl rfl
    | plusAssign | minusAssign | timesAssign | overAssign => exact Or.inr ⟨_, _, rfl, rfl⟩
    | _ => simp [Kind.isAssign, Op.isAssign] at h
  | _ => simp [Kind.isAssign] at h

/-- What an assignment calculates, before it is converted. -/
theorem assigned_calculates (k : NumKind) (σ : Env) (x : Text) (value : Expr) {op : Kind}
    (hop : op.isAssign) (hname : IsName target) (hmem : target ∈ vars) :
    ∃ r, Stmt.assigned k σ target op value = r.map (·.convert k) ∧
      ∀ s, Agrees vars σ s → Reads vars s x (value.eval k σ) →
        Calculates vars s (.ofStore target op.symbol x) r := by
  obtain rfl | ⟨o, b, rfl, hb⟩ := Kind.assign_cases hop
  · refine ⟨value.eval k σ, ?_, fun s _ hr => calculates_copy hr⟩
    cases hv : value.eval k σ <;> simp [Stmt.assigned, hv]
  · refine ⟨_, Stmt.assigned_update hb, fun s ha hr => ?_⟩
    have hcurrent : Reads vars s target (σ target) := ha target hmem ▸ reads_name hname hmem
    rw [Kind.symbol, Op.ofStore_update hb]
    exact calculates_update hr hcurrent

theorem StoreCode.cases (hx : m.Executes full place) {isNew : Bool} {op : Kind}
    (h : StoreCode scheme isNew target op x pos code) (hat : Located full ip code)
    (ha : Agrees vars σ s) (hmem : target ∈ vars)
    (hc : ∀ s', Agrees vars σ s' → (∀ n, Keeps scheme vars n s s') →
      Calculates vars s' (.ofStore target op.symbol x) r) :
    (∃ v n s', r = some v ∧ m.Steps n ⟨ip, s⟩ ⟨ip + code.length, s'⟩ ∧
      Agrees vars (σ.set target (v.convert m.kind)) s' ∧ ∀ n, Keeps scheme vars n s s') ∨
    (r = none ∧ m.Fails vars ⟨ip, s⟩) := by
  cases h with
  | first | plain =>
    obtain ⟨v, s', hv, hstep, ha', hk'⟩ | hfail := store_cases scheme hx hat.head ha hmem hc
    · exact Or.inl ⟨v, 1, s', hv, hstep, ha', hk'⟩
    · exact Or.inr hfail
  | declared =>
    have hdeclare : m.Steps 1 ⟨ip, s⟩ ⟨ip + 1, s.declare target⟩ := hx.steps hat.head rfl
    have hk : ∀ n, Keeps scheme vars n s (s.declare target) := fun n => .declare_var hmem
    obtain ⟨v, s', hv, hstep, ha', hk'⟩ | ⟨hnone, hfail⟩ :=
      store_cases scheme hx hat.tail.head ha.declare_var hmem
        fun s' ha' hk' => hc s' ha' fun n => (hk n).trans (hk' n)
    · exact Or.inl ⟨v, 1 + 1, s', hv, hdeclare.trans hstep, ha', fun n => (hk n).trans (hk' n)⟩
    · exact Or.inr ⟨hnone, hfail.of_steps hdeclare⟩

end

section

variable (m : Machine) (full : List Instr) (place : Text → Nat) (scheme : Scheme)
  (vars : List Text)

/-- The code of a task inside the given loop does, wherever it stands, what the interpreter says.
Temporaries up to `low` are kept. -/
def Simulates (loop : Option Loop) (low : Nat) (code : List Instr) : Task → Prop
  | .stmt st => st.WellFormed → (∀ n ∈ st.names, n.text ∈ vars) →
    ∀ ip σ s fuel, Located full ip code → Agrees vars σ s →
      m.Meets scheme vars fuel (exitsOf place loop (ip + code.length)) low ⟨ip, s⟩
        (st.exec m.kind fuel σ)
  | .list ss => Stmt.WellFormedList ss → (∀ n ∈ Stmt.namesOfList ss, n.text ∈ vars) →
    ∀ ip σ s fuel, Located full ip code → Agrees vars σ s →
      m.Meets scheme vars fuel (exitsOf place loop (ip + code.length)) low ⟨ip, s⟩
        (Stmt.execList m.kind fuel ss σ)
  | .chain stop xs bs => Stmt.WellFormedBranches bs →
    (∀ n ∈ Stmt.namesOfBranches bs, n.text ∈ vars) →
    ∀ ip σ s fuel otherwise, Located full ip code → Agrees vars σ s →
      ReadsConditions m.kind vars σ s xs bs → ∀ kept ≤ low,
      m.Meets scheme vars fuel (exitsOf place loop (place stop)) kept ⟨ip + code.length, s⟩
        (otherwise σ) →
      m.Meets scheme vars fuel (exitsOf place loop (place stop)) kept ⟨ip, s⟩
        (Stmt.execChain m.kind fuel bs otherwise σ)

end

section

variable {m : Machine} {full : List Instr} {place : Text → Nat} {scheme : Scheme}
  {vars : List Text} {loop : Option Loop} {names names' : Names} {code inner : List Instr}
  {span : Span}

/-- A body is the list of its statements. -/
theorem Simulates.body {body : Option (Block Stmt)} {low : Nat}
    (h : Simulates m full place scheme vars loop low code (.list (Stmt.ofBody body)))
    (hwf : Stmt.WellFormedBody body) (hv : ∀ n ∈ Stmt.namesOfBody body, n.text ∈ vars)
    {ip : Nat} {σ : Env} {s : Store} (fuel : Nat) (hat : Located full ip code)
    (ha : Agrees vars σ s) :
    m.Meets scheme vars fuel (exitsOf place loop (ip + code.length)) low ⟨ip, s⟩
      (Stmt.execBody m.kind fuel body σ) := by
  rw [Stmt.execBody_eq]
  rw [Stmt.namesOfBody_eq] at hv
  exact h ((Stmt.wellFormedBody_iff body).1 hwf) hv ip σ s fuel hat ha

theorem simulates_assign (hset : Setup m full place scheme vars) {target : Name} {op : Kind}
    {value : Expr} {stores : List Instr} {x : Text} {isNew : Bool}
    (he : ExprCode scheme (scheme.reserved vars) value names code x names')
    (hs : StoreCode scheme isNew target.text op x span.start stores) :
    Simulates m full place scheme vars loop names.lastTemp (code ++ stores)
      (.stmt (.assign span target op value)) := by
  rintro ⟨hname, hop, hwe⟩ hv ip σ s fuel hat ha
  have hmem : target.text ∈ vars := hv target (by simp [Stmt.names])
  have hve : ∀ n ∈ value.names, n.text ∈ vars := fun n hn => hv n (by simp [Stmt.names, hn])
  obtain ⟨r, hassigned, hcalc⟩ :=
    assigned_calculates m.kind σ x value hop hname hmem
  rw [Stmt.exec, hassigned]
  obtain ⟨hc, hfail⟩ | ⟨-, n, s₁, hsteps, ha₁, hk₁, hr⟩ := he.computes hset hwe hve hat.left ha
  · have hnone : r.map (·.convert m.kind) = none := by
      rw [← hassigned, Stmt.assigned, Expr.eval_of_not_computable hc]
      rfl
    rw [hnone]
    exact hfail
  · obtain ⟨v, n', s₂, rfl, hsteps', ha₂, hk₂⟩ | ⟨rfl, hfail⟩ :=
      hs.cases hset.executes hat.right ha₁ hmem fun s' ha' hk' =>
        hcalc s' ha' (hr s' (fun v hm => ha' _ (hve v (Expr.mem_names_of_name? hm))) (hk' _))
    · refine ⟨_, n + n', s₂, rfl, ?_, ha₂, hk₁.trans (hk₂ _)⟩
      simpa [Nat.add_assoc] using hsteps.trans hsteps'
    · exact hfail.of_steps hsteps

theorem simulates_eval (hset : Setup m full place scheme vars) {e : Expr} {x : Text}
    (he : ExprCode scheme (scheme.reserved vars) e names code x names') :
    Simulates m full place scheme vars loop names.lastTemp code (.stmt (.eval span e)) := by
  intro hwf hv ip σ s fuel hat ha
  rw [Stmt.exec]
  obtain ⟨hc, hfail⟩ | ⟨hc, n, s', hsteps, ha', hk, -⟩ := he.computes hset hwf hv hat ha
  · rw [hc]
    exact hfail
  · rw [hc]
    exact ⟨_, n, s', rfl, hsteps, ha', hk⟩

theorem simulates_nil {low : Nat} :
    Simulates m full place scheme vars loop low [] (.list []) := by
  intro _ _ ip σ s fuel _ ha
  rw [Stmt.execList]
  exact ⟨_, 0, s, rfl, .refl _, ha, Keeps.refl scheme vars low s⟩

theorem simulates_cons {st : Stmt} {rest : List Stmt} {codes : List Instr} {low mid : Nat}
    (hle : low ≤ mid) (hs : Simulates m full place scheme vars loop low code (.stmt st))
    (hr : Simulates m full place scheme vars loop mid codes (.list rest)) :
    Simulates m full place scheme vars loop low (code ++ codes) (.list (st :: rest)) := by
  rintro ⟨hws, hwr⟩ hv ip σ s fuel hat ha
  have hfirst := hs hws (fun n hn => hv n (by simp [Stmt.namesOfList, hn])) ip σ s fuel hat.left ha
  rw [Stmt.execList, List.length_append, ← Nat.add_assoc]
  refine hfirst.andThen fun σ' s' ha' => ?_
  have hrest := hr hwr (fun n hn => hv n (by simp [Stmt.namesOfList, hn])) _ σ' s' fuel hat.right
    ha'
  exact hrest.mono (Nat.le_refl _) hle

/-- `break` and `continue`, which go to a target of the loop around. -/
theorem simulates_jump (signal : Signal) (hset : Setup m full place scheme vars) {l : Loop}
    {st : Stmt} {target : Text} {low : Nat} {pos : Pos}
    (hexec : ∀ k fuel σ, st.exec k fuel σ = .done signal σ)
    (hexit : ∀ stop, exitsOf place (some l) stop signal = some (place target)) :
    Simulates m full place scheme vars (some l) low [⟨.jump target, pos⟩] (.stmt st) := by
  intro _ _ ip σ s fuel hat ha
  rw [hexec]
  exact ⟨_, 1, s, hexit _, hset.executes.steps_jump hat.head s, ha, Keeps.refl scheme vars low s⟩

theorem simulates_chain_nil {stop : Text} {low : Nat} :
    Simulates m full place scheme vars loop low [] (.chain stop [] []) := by
  intro _ _ ip σ s fuel otherwise _ _ _ kept _ ho
  rw [Stmt.execChain]
  exact ho

theorem simulates_chain_cons (hset : Setup m full place scheme vars) {stop next x : Text}
    {xs : List Text} {cond : Expr} {body : Option (Block Stmt)} {rest : List (Branch Stmt)}
    {clauses : List Instr} {low mid : Nat} {pos : Pos} (hle : low ≤ mid)
    (hb : Simulates m full place scheme vars loop low inner (.list (Stmt.ofBody body)))
    (hr : Simulates m full place scheme vars loop mid clauses (.chain stop xs rest)) :
    Simulates m full place scheme vars loop low
      ([⟨.jumpUnless x next, pos⟩] ++ inner ++ [⟨.jump stop, pos⟩, ⟨.label next, pos⟩] ++ clauses)
      (.chain stop (x :: xs) (⟨cond, body⟩ :: rest)) := by
  rintro ⟨-, ⟨-, hwb⟩, hwr⟩ hv ip σ s fuel otherwise hat ha ⟨hx, hxs⟩ kept hkept ho
  have hvb : ∀ n ∈ Stmt.namesOfBody body, n.text ∈ vars :=
    fun n hn => hv n (by simp [Stmt.namesOfBranches, hn])
  have hvr : ∀ n ∈ Stmt.namesOfBranches rest, n.text ∈ vars :=
    fun n hn => hv n (by simp [Stmt.namesOfBranches, hn])
  have hinner : Located full (ip + 1) inner := hat.left.left.right
  have hjump : Located full (ip + 1 + inner.length) [⟨.jump stop, pos⟩, ⟨.label next, pos⟩] :=
    hat.left.right.cast (by simp; omega)
  have hclauses : Located full (ip + 1 + inner.length + 2) clauses :=
    hat.right.cast (by simp; omega)
  have hkeep := Keeps.refl scheme vars kept s
  rw [Stmt.execChain]
  obtain ⟨v, hcond, hstep⟩ | ⟨hcond, hfail⟩ :=
    hset.executes.jumpUnless_cases (Located.head hat.left.left.left) hx
  · simp only [hcond]
    split
    · rename_i htrue
      rw [if_pos htrue] at hstep
      have hbody := hb.body hwb hvb fuel hinner ha
      have hdone := hbody.goto (hset.executes.steps_jump hjump.head)
      exact hdone.after hstep hkeep hkept
    · rename_i hfalse
      rw [if_neg hfalse, hjump.tail.place_eq hset.executes] at hstep
      have hskip := hstep.trans (hset.executes.steps_label hjump.tail.head s)
      have hrest := hr hwr hvr _ σ s fuel otherwise hclauses ha hxs kept (Nat.le_trans hkept hle)
        (by simpa [Nat.add_assoc, Nat.add_comm, Nat.add_left_comm] using ho)
      exact hrest.after hskip hkeep (Nat.le_refl _)
  · rw [hcond]
    exact hfail

theorem simulates_branch (hset : Setup m full place scheme vars) {stop : Text} {xs : List Text}
    {bs : List (Branch Stmt)} {otherwise : Option (Block Stmt)} {clauses last : List Instr}
    {mid : Nat} {pos : Pos}
    (hc : ConditionsCode scheme (scheme.reserved vars) bs names code xs names')
    (hle : names'.lastTemp ≤ mid)
    (hchain : Simulates m full place scheme vars loop names'.lastTemp clauses (.chain stop xs bs))
    (hlast : Simulates m full place scheme vars loop mid last (.list (Stmt.ofBody otherwise))) :
    Simulates m full place scheme vars loop names.lastTemp
      (code ++ clauses ++ last ++ [⟨.label stop, pos⟩]) (.stmt (.branch span bs otherwise)) := by
  rintro ⟨-, hwb, hwo⟩ hv ip σ s fuel hat ha
  have hvb : ∀ n ∈ Stmt.namesOfBranches bs, n.text ∈ vars :=
    fun n hn => hv n (by simp [Stmt.names, hn])
  have hvo : ∀ n ∈ Stmt.namesOfBody otherwise, n.text ∈ vars :=
    fun n hn => hv n (by simp [Stmt.names, hn])
  have hlabel : Located full (ip + code.length + clauses.length + last.length)
      [⟨.label stop, pos⟩] := hat.right.cast (by simp; omega)
  have hplace := hlabel.place_eq hset.executes
  have hend : ip + (code ++ clauses ++ last ++ [(⟨.label stop, pos⟩ : Instr)]).length =
      place stop + 1 := by
    simp [hplace]
    omega
  rw [Stmt.exec, hend]
  obtain ⟨hall, hfail⟩ | ⟨hall, n, s', hsteps, ha', hk, hr⟩ :=
    hc.computes hset hwb hvb hat.left.left.left ha
  · rw [hall]
    exact hfail
  rw [if_pos hall]
  have hlabelStep : ∀ s, m.Steps 1 ⟨place stop, s⟩ ⟨place stop + 1, s⟩ :=
    hset.executes.steps_label (hplace ▸ hlabel.head)
  have hlastAt : Located full (ip + code.length + clauses.length) last :=
    hat.left.right.cast (by simp; omega)
  have helse := hlast.body hwo hvo fuel hlastAt ha'
  rw [← hplace] at helse
  have hclauses := hchain hwb hvb _ σ s' fuel (Stmt.execBody m.kind fuel otherwise)
    hat.left.left.right ha' (hr s' ha' (Keeps.refl scheme vars _ s')) _ (Nat.le_refl _)
    (helse.mono (Nat.le_refl _) hle)
  exact (hclauses.goto hlabelStep).after hsteps hk hc.lastTemp_le

end

end ThreeAddress
