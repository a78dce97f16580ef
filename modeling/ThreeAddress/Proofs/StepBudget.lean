import ThreeAddress.Proofs.Execution

/-! The budget of steps of a machine that is run again and again. Every run starts at the first
instruction while the count of steps goes on, so that all runs since the last reset share one
budget. A run that fits into what is left of it is the run without a limit, and any other stops when
the budget is used up. -/
namespace ThreeAddress.Machine

/-- What can be asked of a machine. -/
inductive Request where
  | run (ctx : Context)
  | reset

/-- The memory after a request. -/
def serve (m : Machine) (mem : Memory) : Request → Memory
  | .run ctx => (m.run ctx mem).1
  | .reset => m.reset

/-- The memory of a new machine after a sequence of requests. -/
def session (m : Machine) (requests : List Request) : Memory := requests.foldl m.serve m.reset

/-- The same program without a limit. -/
def unlimited (m : Machine) : Machine := { m with limit := none }

/-- Without a limit the run comes to its end after `n` instructions, one that fails counted. -/
def Completes (m : Machine) (mem : Memory) (n : Nat) (mem' : Memory) (halt : Halt) : Prop :=
  (∃ fuel, m.unlimited.runFor .background fuel 0 mem = (mem', some halt)) ∧
    mem'.steps = mem.steps + n

section

variable {m : Machine} {ctx : Context} {ip ip' limit : Nat} {mem mem' : Memory} {halt : Halt}

theorem steps_of_go (h : m.turn ctx ip mem = .go ip' mem') :
    mem'.steps = mem.steps + 1 ∧ m.atLimit mem = false ∧
      (ctx.canceled mem.steps = true → mem.steps % cancelInterval ≠ 0) := by
  have ht := m.turned ctx ip mem
  rw [h] at ht
  cases ht with
  | goes _ hlimit hgoes _ => exact ⟨rfl, hlimit, hgoes⟩

/-- A run that stops has executed nothing in its last round, or an instruction that failed. -/
theorem steps_of_stop (h : m.turn ctx ip mem = .stop mem' halt) :
    mem' = mem ∨ (mem'.steps = mem.steps + 1 ∧ m.atLimit mem = false ∧
      (ctx.canceled mem.steps = true → mem.steps % cancelInterval ≠ 0)) := by
  have ht := m.turned ctx ip mem
  rw [h] at ht
  cases ht with
  | ends | limited | canceled => exact Or.inl rfl
  | fails _ hlimit hgoes _ => exact Or.inr ⟨rfl, hlimit, hgoes⟩

theorem lt_of_not_atLimit (hl : m.limit = some limit) (h : m.atLimit mem = false) :
    mem.steps < limit := by
  simpa [atLimit, hl] using h

/-- Below the limit a round is that of a run without one. -/
theorem turn_unlimited (hl : m.limit = some limit) (h : mem.steps < limit) :
    m.unlimited.turn .background ip mem = m.turn .background ip mem := by
  have hbelow : ¬ limit ≤ mem.steps := by omega
  simp [turn, unlimited, atLimit, hl, hbelow]

/-- At the limit only the end of the code is no failure. -/
theorem turn_at_limit (hl : m.limit = some limit) (h : mem.steps = limit) (ctx : Context)
    (ip : Nat) :
    (m.code[ip]? = none ∧ m.turn ctx ip mem = .stop mem .finished) ∨
      (m.code[ip]? ≠ none ∧
        ∃ pos, m.turn ctx ip mem = .stop mem (.failed pos (.stepLimit limit))) := by
  rcases hcode : m.code[ip]? with _ | ⟨step, pos⟩
  · exact Or.inl ⟨rfl, by simp [turn, hcode]⟩
  · exact Or.inr ⟨by simp, pos, by simp [turn, hcode, atLimit, hl, h]⟩

end

variable {m : Machine} {limit : Nat}

theorem le_steps_runFor (ctx : Context) (fuel ip : Nat) (mem : Memory) :
    mem.steps ≤ (m.runFor ctx fuel ip mem).1.steps := by
  induction fuel generalizing ip mem with
  | zero => exact Nat.le_refl _
  | succ fuel ih =>
    rw [runFor_succ]
    cases hturn : m.turn ctx ip mem with
    | stop mem' halt =>
      rcases steps_of_stop hturn with rfl | ⟨hsteps, -⟩
      · exact Nat.le_refl _
      · show mem.steps ≤ mem'.steps
        omega
    | go ip' mem' =>
      have hsteps := (steps_of_go hturn).1
      have hle := ih ip' mem'
      show mem.steps ≤ (m.runFor ctx fuel ip' mem').1.steps
      omega

/-- No run exceeds the limit. -/
theorem steps_runFor_le (hl : m.limit = some limit) (ctx : Context) (fuel ip : Nat)
    (mem : Memory) (h : mem.steps ≤ limit) :
    (m.runFor ctx fuel ip mem).1.steps ≤ limit := by
  induction fuel generalizing ip mem with
  | zero => exact h
  | succ fuel ih =>
    rw [runFor_succ]
    cases hturn : m.turn ctx ip mem with
    | stop mem' halt =>
      rcases steps_of_stop hturn with rfl | ⟨hsteps, hlimit, -⟩
      · exact h
      · have hlt := lt_of_not_atLimit hl hlimit
        show mem'.steps ≤ limit
        omega
    | go ip' mem' =>
      obtain ⟨hsteps, hlimit, -⟩ := steps_of_go hturn
      have hlt := lt_of_not_atLimit hl hlimit
      exact ih ip' mem' (by omega)

/-- A canceled run goes on at most to the next count at which it looks. -/
theorem steps_canceledAt_le {n k : Nat} (hn : n ≤ cancelInterval * k) (fuel ip : Nat)
    (mem : Memory) (h : mem.steps ≤ cancelInterval * k) :
    (m.runFor (.canceledAt n) fuel ip mem).1.steps ≤ cancelInterval * k := by
  -- no step is taken from the multiple itself, since the run is canceled by then
  have hstep : ∀ mem : Memory, mem.steps ≤ cancelInterval * k →
      ((Context.canceledAt n).canceled mem.steps = true → mem.steps % cancelInterval ≠ 0) →
      mem.steps + 1 ≤ cancelInterval * k := by
    intro mem hle hgoes
    have hlt : mem.steps ≠ cancelInterval * k := by
      intro heq
      exact hgoes (decide_eq_true (by omega)) (by rw [heq, Nat.mul_mod_right])
    omega
  induction fuel generalizing ip mem with
  | zero => exact h
  | succ fuel ih =>
    rw [runFor_succ]
    cases hturn : m.turn (.canceledAt n) ip mem with
    | stop mem' halt =>
      rcases steps_of_stop hturn with rfl | ⟨hsteps, -, hgoes⟩
      · exact h
      · have hle := hstep mem h hgoes
        show mem'.steps ≤ cancelInterval * k
        omega
    | go ip' mem' =>
      obtain ⟨hsteps, -, hgoes⟩ := steps_of_go hturn
      have hle := hstep mem h hgoes
      exact ih ip' mem' (by omega)

/-- A canceled run that starts at a count at which it looks executes nothing. -/
theorem runFor_canceledAt_eq {n : Nat} (fuel ip : Nat) (mem : Memory) (hn : n ≤ mem.steps)
    (h : mem.steps % cancelInterval = 0) : (m.runFor (.canceledAt n) fuel ip mem).1 = mem := by
  cases fuel with
  | zero => rfl
  | succ fuel =>
    rw [runFor_succ]
    cases hturn : m.turn (.canceledAt n) ip mem with
    | stop mem' halt =>
      rcases steps_of_stop hturn with rfl | ⟨-, -, hgoes⟩
      · rfl
      · exact absurd h (hgoes (decide_eq_true hn))
    | go ip' mem' => exact absurd h ((steps_of_go hturn).2.2 (decide_eq_true hn))

/-- A round is that of a run which nothing cancels, unless it ends the run as canceled. -/
theorem turn_canceledAt (n ip : Nat) (mem : Memory) :
    m.turn (.canceledAt n) ip mem = m.turn .background ip mem ∨
      (m.turn (.canceledAt n) ip mem = .stop mem .canceled ∧ n ≤ mem.steps ∧
        mem.steps % cancelInterval = 0) := by
  by_cases hcanceled : n ≤ mem.steps ∧ mem.steps % cancelInterval = 0
  · rcases hcode : m.code[ip]? with _ | ⟨step, pos⟩
    · left
      simp [turn, hcode]
    · cases hlimit : m.atLimit mem with
      | true =>
        left
        simp [turn, hcode, hlimit]
      | false =>
        right
        exact ⟨by simp [turn, hcode, hlimit, Context.canceled, hcanceled], hcanceled⟩
  · left
    have hlooks : (decide (n ≤ mem.steps) && mem.steps % cancelInterval == 0) = false := by
      simpa using hcanceled
    simp only [turn, Context.canceled, hlooks, Bool.false_and]

/-- A cancellation cuts a run off at a count at which the run looks, and changes nothing else. -/
theorem runFor_canceledAt_cases (n fuel ip : Nat) (mem : Memory) :
    m.runFor (.canceledAt n) fuel ip mem = m.runFor .background fuel ip mem ∨
      ∃ mem' k, m.runFor (.canceledAt n) fuel ip mem = (mem', some .canceled) ∧
        m.runFor .background k ip mem = (mem', none) ∧ n ≤ mem'.steps ∧
        mem'.steps % cancelInterval = 0 := by
  induction fuel generalizing ip mem with
  | zero => exact Or.inl rfl
  | succ fuel ih =>
    rw [runFor_succ, runFor_succ]
    rcases m.turn_canceledAt n ip mem with hsame | ⟨hstop, hlooks⟩
    · rw [hsame]
      cases hturn : m.turn .background ip mem with
      | stop mem' halt => exact Or.inl rfl
      | go ip' mem' =>
        rcases ih ip' mem' with hsame | ⟨last, k, hcanceled, hgoes, hlooks⟩
        · exact Or.inl hsame
        · refine Or.inr ⟨last, k + 1, hcanceled, ?_, hlooks⟩
          rw [runFor_succ, hturn]
          exact hgoes
    · rw [hstop]
      exact Or.inr ⟨mem, 0, rfl, rfl, hlooks⟩

/-- Without a limit an instruction that is there is executed. -/
theorem lt_steps_unlimited {ip : Nat} (hcode : m.code[ip]? ≠ none) (fuel : Nat) (mem : Memory) :
    mem.steps < (m.unlimited.runFor .background (fuel + 1) ip mem).1.steps := by
  rw [runFor_succ]
  have ht := m.unlimited.turned .background ip mem
  cases hturn : m.unlimited.turn .background ip mem with
  | stop mem' halt =>
    rw [hturn] at ht
    cases ht with
    | ends hends => exact absurd hends hcode
    | limited _ hlimit => simp [unlimited, atLimit] at hlimit
    | canceled _ hcanceled _ => cases hcanceled
    | fails => exact Nat.lt_succ_self _
  | go ip' mem' =>
    have hsteps := (steps_of_go hturn).1
    have hle := m.unlimited.le_steps_runFor .background fuel ip' mem'
    show mem.steps < (m.unlimited.runFor .background fuel ip' mem').1.steps
    omega

/-- A run without a limit that ends within the limit is what the machine does. -/
theorem runFor_of_unlimited (hl : m.limit = some limit) {fuel fuel' ip : Nat} {mem mem' : Memory}
    {halt : Halt} (h : m.unlimited.runFor .background fuel ip mem = (mem', some halt))
    (hle : mem'.steps ≤ limit) (hfuel : limit < mem.steps + fuel') :
    m.runFor .background fuel' ip mem = (mem', some halt) := by
  induction fuel generalizing fuel' ip mem with
  | zero => cases h
  | succ fuel ih =>
    have hmono : mem.steps ≤ mem'.steps := by
      have := m.unlimited.le_steps_runFor .background (fuel + 1) ip mem
      rwa [h] at this
    obtain ⟨rest, rfl⟩ : ∃ rest, fuel' = rest + 1 := ⟨fuel' - 1, by omega⟩
    rcases Nat.lt_or_ge mem.steps limit with hlt | hge
    · rw [runFor_succ] at h ⊢
      rw [← turn_unlimited hl hlt]
      cases hturn : m.unlimited.turn .background ip mem with
      | stop mem₁ halt₁ =>
        rw [hturn] at h
        exact h
      | go ip₁ mem₁ =>
        rw [hturn] at h
        have hsteps := (steps_of_go hturn).1
        exact ih h (by omega)
    · rcases turn_at_limit hl (by omega : mem.steps = limit) .background ip with
        ⟨hcode, hturn⟩ | ⟨hcode, -⟩
      · rw [runFor_succ, hturn]
        rw [runFor_succ, turn, unlimited, hcode] at h
        exact h
      · have hlt := lt_steps_unlimited hcode fuel mem
        rw [h] at hlt
        change mem.steps < mem'.steps at hlt
        omega

/-- Either the run without a limit ends within the `d` steps that are left, or the machine stops
after exactly so many. -/
theorem budget_cases (hl : m.limit = some limit) {d : Nat} {ip : Nat} {mem : Memory}
    (h : mem.steps + d = limit) :
    (∃ mem' halt, m.unlimited.runFor .background (d + 1) ip mem = (mem', some halt) ∧
        mem'.steps ≤ limit) ∨
      ∃ mem' pos, m.unlimited.runFor .background d ip mem = (mem', none) ∧ mem'.steps = limit ∧
        m.runFor .background (d + 1) ip mem = (mem', some (.failed pos (.stepLimit limit))) := by
  induction d generalizing ip mem with
  | zero =>
    rcases turn_at_limit hl (by omega : mem.steps = limit) .background ip with
      ⟨hcode, -⟩ | ⟨-, pos, hturn⟩
    · refine Or.inl ⟨mem, .finished, ?_, by omega⟩
      rw [runFor_succ, turn, unlimited, hcode]
      rfl
    · refine Or.inr ⟨mem, pos, rfl, by omega, ?_⟩
      rw [runFor_succ, hturn]
      rfl
  | succ d ih =>
    have hturn' : m.unlimited.turn .background ip mem = m.turn .background ip mem :=
      turn_unlimited hl (by omega)
    rw [runFor_succ m.unlimited, runFor_succ m.unlimited, runFor_succ m, ← hturn']
    cases hturn : m.unlimited.turn .background ip mem with
    | stop mem' halt =>
      refine Or.inl ⟨mem', halt, rfl, ?_⟩
      rcases steps_of_stop hturn with rfl | ⟨hsteps, -⟩ <;> omega
    | go ip' mem' =>
      have hsteps := (steps_of_go hturn).1
      exact ih (by omega)

theorem run_memory (ctx : Context) (mem : Memory) :
    (m.run ctx mem).1 = (m.runFor ctx (m.fuel mem) 0 mem).1 := by
  unfold run
  rcases m.runFor ctx (m.fuel mem) 0 mem with ⟨mem', _ | halt⟩ <;> rfl

theorem run_of_runFor {ctx : Context} {mem mem' : Memory} {halt : Halt}
    (h : m.runFor ctx (m.fuel mem) 0 mem = (mem', some halt)) :
    m.run ctx mem = (mem', halt) := by
  rw [run, h]

theorem steps_serve_le (hl : m.limit = some limit) {mem : Memory} (h : mem.steps ≤ limit)
    (request : Request) : (m.serve mem request).steps ≤ limit := by
  cases request with
  | reset => exact Nat.zero_le _
  | run ctx =>
    rw [serve, run_memory]
    exact steps_runFor_le hl ctx _ 0 mem h

theorem steps_session_le (hl : m.limit = some limit) (requests : List Request) :
    (m.session requests).steps ≤ limit := by
  have hfold : ∀ mem : Memory, mem.steps ≤ limit →
      (requests.foldl m.serve mem).steps ≤ limit := by
    induction requests with
    | nil => exact fun _ h => h
    | cons request rest ih => exact fun mem h => ih _ (steps_serve_le hl h request)
  exact hfold m.reset (Nat.zero_le _)

/-- After any requests to a machine with a limit, no more steps are counted than it allows. If the
run without a limit ends within the steps that are left, the machine does the same; if it takes
longer or never ends, the machine executes exactly the steps that are left and fails at the limit. A
run that is canceled at some count, before it starts or midway, executes at most 1023 further
instructions, and none from a multiple of 1024 steps on. It is the run which nothing cancels, or the
beginning of that run up to such a multiple. After a reset the machine is like new. -/
theorem runs_share_one_budget {l : Listing} {maxSteps : Int} {inputs : List (Text × Float)}
    {requests : List Request} {mem : Memory} (hload : load l (limitOf maxSteps) inputs = .ok m)
    (hpos : 0 < maxSteps) (hmem : m.session requests = mem) :
    mem.steps ≤ maxSteps.toNat ∧
    (∀ n mem' halt, m.Completes mem n mem' halt → n ≤ maxSteps.toNat - mem.steps →
      m.run .background mem = (mem', halt)) ∧
    ((∀ n mem' halt, m.Completes mem n mem' halt → maxSteps.toNat - mem.steps < n) →
      ∃ mem' pos, m.unlimited.runFor .background (maxSteps.toNat - mem.steps) 0 mem = (mem', none) ∧
        mem'.steps = maxSteps.toNat ∧
        m.run .background mem = (mem', .failed pos (.stepLimit maxSteps.toNat))) ∧
    (∀ n, (m.run (.canceledAt n) mem).1.steps ≤ max n mem.steps + 1023 ∧
      (n ≤ mem.steps → mem.steps % 1024 = 0 → (m.run (.canceledAt n) mem).1 = mem) ∧
      (m.run (.canceledAt n) mem = m.run .background mem ∨
        ∃ mem' k, m.run (.canceledAt n) mem = (mem', .canceled) ∧
          m.runFor .background k 0 mem = (mem', none) ∧ n ≤ mem'.steps ∧
          mem'.steps % 1024 = 0)) ∧
    ∀ later, later.foldl m.serve (m.serve mem .reset) = m.session later := by
  have hl : m.limit = some maxSteps.toNat := by
    rw [(load_parts hload).2.2.1, limitOf, if_neg (by simp; omega), if_neg (by omega)]
  have hle : mem.steps ≤ maxSteps.toNat := hmem ▸ steps_session_le hl requests
  have hfuel : m.fuel mem = maxSteps.toNat - mem.steps + 1 := by rw [fuel, hl]
  refine ⟨hle, ?_, ?_, fun n => ⟨?_, fun hn hmultiple => ?_, ?_⟩, fun later => rfl⟩
  · rintro n mem' halt ⟨⟨fuel, hrun⟩, hsteps⟩ hn
    exact run_of_runFor (runFor_of_unlimited hl hrun (by omega) (by omega))
  · intro hlong
    rcases budget_cases hl (by omega : mem.steps + (maxSteps.toNat - mem.steps) = _) with
      ⟨mem', halt, hrun, hwithin⟩ | ⟨mem', pos, hexact, hsteps, hrun⟩
    · have hmono : mem.steps ≤ mem'.steps := by
        have := m.unlimited.le_steps_runFor .background (maxSteps.toNat - mem.steps + 1) 0 mem
        rwa [hrun] at this
      have := hlong (mem'.steps - mem.steps) mem' halt ⟨⟨_, hrun⟩, by omega⟩
      omega
    · exact ⟨mem', pos, hexact, hsteps, run_of_runFor (by rw [hfuel, hrun])⟩
  · -- the next multiple of the interval is at most 1023 steps away
    have hnext := m.steps_canceledAt_le (n := n) (k := (max n mem.steps + 1023) / 1024)
      (by rw [cancelInterval]; omega) (m.fuel mem) 0 mem (by rw [cancelInterval]; omega)
    rw [run_memory]
    rw [cancelInterval] at hnext
    omega
  · rw [run_memory]
    exact runFor_canceledAt_eq _ 0 mem hn hmultiple
  · rcases m.runFor_canceledAt_cases n (m.fuel mem) 0 mem with
      hsame | ⟨mem', k, hcanceled, hgoes, hlooks⟩
    · exact Or.inl (by rw [run, run, hsame])
    · exact Or.inr ⟨mem', k, run_of_runFor hcanceled, hgoes, hlooks⟩

/-- Of two instructions, a limit of three leaves one to the second run. -/
theorem second_run_is_cut_short : ∃ m mem mem' pos,
    load ⟨[⟨.label "a", .unknown⟩, ⟨.label "b", .unknown⟩], "int", [], 0, 2⟩
      (limitOf 3) [] = .ok m ∧
      m.session [.run .background] = mem ∧ mem.steps = 2 ∧ mem'.steps = 3 ∧
      m.run .background mem = (mem', .failed pos (.stepLimit 3)) := by
  have hm : ∃ m, load ⟨[⟨.label "a", .unknown⟩, ⟨.label "b", .unknown⟩], "int", [], 0, 2⟩
      (limitOf 3) [] = .ok m ∧ (m.session [.run .background]).steps = 2 ∧
      ∀ n mem' halt, m.Completes (m.session [.run .background]) n mem' halt → n = 2 := by
    refine ⟨_, rfl, rfl, ?_⟩
    rintro n mem' halt ⟨⟨fuel, hrun⟩, hsteps⟩
    rcases fuel with _ | _ | _ | fuel <;> cases hrun
    exact (Nat.add_left_cancel hsteps).symm
  obtain ⟨m, hload, hsteps, htwo⟩ := hm
  obtain ⟨-, -, hlong, -⟩ := runs_share_one_budget hload (by decide) rfl
  obtain ⟨mem', pos, -, hlimit, hrun⟩ := hlong fun n mem' halt h => by
    have hn := htwo n mem' halt h
    rw [hsteps, hn]
    decide
  exact ⟨m, _, mem', pos, hload, rfl, hsteps, hlimit, hrun⟩

end ThreeAddress.Machine
