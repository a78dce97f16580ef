import ThreeAddress.Machine

/-! Runs of a machine step by step, without a limit and without cancellation, and what a bounded run
has to do with them. -/
namespace ThreeAddress

@[simp] theorem Context.canceled_background (steps : Nat) :
    Context.background.canceled steps = false := rfl

theorem Context.ne_background {ctx : Context} {steps : Nat} (h : ctx.canceled steps = true) :
    ctx ≠ .background := by
  rintro rfl
  cases h

theorem Operand.not_stepLimit {o : Operand} {s : Store} {f : Fault} (h : o.value s = .error f) :
    f.isStepLimit = false := by
  unfold value at h
  split at h
  · cases h
    rfl
  · cases h
  · cases h
    rfl
  · split at h <;> cases h <;> rfl

theorem Calculation.not_stepLimit {c : Calculation} {s : Store} {f : Fault}
    (h : c.value s = .error f) : f.isStepLimit = false := by
  have happly : ∀ {op x y}, apply op x y = .error f → f.isStepLimit = false := by
    intro op x y h
    unfold apply at h
    split at h
    · cases h
      rfl
    · split at h <;> cases h
      rfl
  unfold value at h
  split at h
  · exact Operand.not_stepLimit h
  · split at h
    · rename_i hx
      cases h
      exact Operand.not_stepLimit hx
    · split at h <;> cases h
      rfl
  all_goals
    split at h
    · rename_i hx
      cases h
      exact Operand.not_stepLimit hx
    · split at h
      · rename_i hy
        cases h
        exact Operand.not_stepLimit hy
      · exact happly h

theorem Step.not_stepLimit {step : Step} {k : NumKind} {s s' : Store} {f : Fault}
    (h : step.exec k s = (s', .error f)) : f.isStepLimit = false := by
  cases step with
  | declare | jump | label => cases h
  | unknown =>
    cases h
    rfl
  | assign | jumpIf =>
    simp only [exec] at h
    split at h <;> cases h
    exact Calculation.not_stepLimit ‹_›
  | jumpUnless =>
    simp only [exec] at h
    split at h <;> cases h
    exact Operand.not_stepLimit ‹_›

namespace Machine

/-- What a machine takes over from the program it has loaded. -/
theorem load_parts {l : Listing} {limit : Option Nat} {inputs : List (Text × Float)} {m : Machine}
    (h : load l limit inputs = .ok m) : NumKind.ofType? l.type = some m.kind ∧
      m.symbols = l.symbols ∧ m.limit = limit ∧ m.inputs = inputs := by
  unfold load at h
  split at h
  · cases h
  · rename_i hkind
    split at h
    · cases h
    · split at h
      · cases h
      · cases h
        exact ⟨hkind, rfl, rfl, rfl⟩

theorem limitOf_cases (maxSteps : Int) : (maxSteps < 0 ∧ limitOf maxSteps = none) ∨
    (0 ≤ maxSteps ∧ ∃ limit : Nat, limitOf maxSteps = some limit ∧ maxSteps ≤ limit) := by
  unfold limitOf
  split
  · rename_i hzero
    obtain rfl : maxSteps = 0 := by simpa using hzero
    exact Or.inr ⟨Int.le_refl 0, defaultLimit, rfl, by decide⟩
  · split
    · rename_i hneg
      exact Or.inl ⟨hneg, rfl⟩
    · exact Or.inr ⟨by omega, maxSteps.toNat, rfl, by omega⟩

/-- The number of the next instruction, and the variables. -/
structure Config where
  ip : Nat
  store : Store

variable (m : Machine)

/-- One instruction is executed. -/
def Moves (c c' : Config) : Prop :=
  ∃ step pos flow, m.code[c.ip]? = some (step, pos) ∧
    step.exec m.kind c.store = (c'.store, .ok flow) ∧ c'.ip = follow c.ip flow

/-- The instruction that comes from `pos` cannot be executed. -/
def Faults (c : Config) (pos : Pos) (f : Fault) : Prop :=
  ∃ step store, m.code[c.ip]? = some (step, pos) ∧
    step.exec m.kind c.store = (store, .error f)

/-- There is no instruction left. -/
def Ends (c : Config) : Prop := m.code[c.ip]? = none

/-- So many instructions are executed. -/
inductive Steps : Nat → Config → Config → Prop
  | refl (c : Config) : Steps 0 c c
  | head {n : Nat} {c c₁ c' : Config} : m.Moves c c₁ → Steps n c₁ c' → Steps (n + 1) c c'

variable {m} {n n' : Nat} {c c₁ c' c'' : Config} {pos : Pos} {f : Fault}

theorem Steps.single (h : m.Moves c c') : m.Steps 1 c c' := .head h (.refl c')

theorem Steps.trans (h : m.Steps n c c') (h' : m.Steps n' c' c'') : m.Steps (n + n') c c'' := by
  induction h with
  | refl => simpa using h'
  | head hm _ ih =>
    rw [Nat.add_right_comm]
    exact .head hm (ih h')

theorem Moves.unique (h : m.Moves c c') (h' : m.Moves c c'') : c' = c'' := by
  obtain ⟨step, pos, flow, hcode, hexec, hip⟩ := h
  obtain ⟨step', pos', flow', hcode', hexec', hip'⟩ := h'
  obtain ⟨ip', store'⟩ := c'
  obtain ⟨ip'', store''⟩ := c''
  simp_all

theorem Faults.not_moves (h : m.Faults c pos f) : ¬ m.Moves c c' := by
  rintro ⟨step, pos', flow, hcode, hexec, -⟩
  obtain ⟨step', store, hcode', hexec'⟩ := h
  simp_all

theorem Ends.not_moves (h : m.Ends c) : ¬ m.Moves c c' := by
  rintro ⟨step, pos, flow, hcode, -⟩
  simp_all [Ends]

theorem Faults.not_ends (h : m.Faults c pos f) : ¬ m.Ends c := by
  obtain ⟨step, store, hcode, -⟩ := h
  simp [Ends, hcode]

theorem Faults.unique {pos' : Pos} {f' : Fault} (h : m.Faults c pos f) (h' : m.Faults c pos' f') :
    f = f' := by
  obtain ⟨step, store, hcode, hexec⟩ := h
  obtain ⟨step', store', hcode', hexec'⟩ := h'
  simp_all

/-- A run that stops where nothing can move is the longest there is. -/
theorem Steps.le_of_stuck (h : m.Steps n c c') (hstuck : ∀ d, ¬ m.Moves c' d)
    (h' : m.Steps n' c c'') : n' ≤ n := by
  induction h generalizing n' with
  | refl c =>
    cases h' with
    | refl => exact Nat.le_refl _
    | head hm _ => exact absurd hm (hstuck _)
  | head hm _ ih =>
    cases h' with
    | refl => exact Nat.zero_le _
    | head hm' h' =>
      cases hm.unique hm'
      exact Nat.succ_le_succ (ih hstuck h')

theorem Steps.unique (h : m.Steps n c c') (h' : m.Steps n c c'') : c' = c'' := by
  induction h with
  | refl =>
    cases h'
    rfl
  | head hm _ ih =>
    cases h' with
    | head hm' h' =>
      cases hm.unique hm'
      exact ih h'

/-- Two runs from one place that both stop where nothing can move are the same. -/
theorem Steps.unique_stuck (h : m.Steps n c c') (hstuck : ∀ d, ¬ m.Moves c' d)
    (h' : m.Steps n' c c'') (hstuck' : ∀ d, ¬ m.Moves c'' d) : n = n' ∧ c' = c'' := by
  have hle := h.le_of_stuck hstuck h'
  have hle' := h'.le_of_stuck hstuck' h
  obtain rfl : n = n' := by omega
  exact ⟨rfl, h.unique h'⟩

/-- What one round of a run comes to: its end, or the next instruction. -/
inductive Turn where
  | stop (mem : Memory) (halt : Halt)
  | go (ip : Nat) (mem : Memory)

/-- One round: the checks that come before an instruction, and the instruction. -/
def turn (m : Machine) (ctx : Context) (ip : Nat) (mem : Memory) : Turn :=
  match m.code[ip]? with
  | none => .stop mem .finished
  | some (step, pos) =>
    if m.atLimit mem then .stop mem (.failed pos (.stepLimit mem.steps))
    else if ctx.canceled mem.steps && mem.steps % cancelInterval == 0 then .stop mem .canceled
    else
      match step.exec m.kind mem.store with
      | (store, .error f) => .stop ⟨store, mem.steps + 1⟩ (.failed pos f)
      | (store, .ok flow) => .go (follow ip flow) ⟨store, mem.steps + 1⟩

/-- The rest of a run after one round. -/
def Turn.resume (m : Machine) (ctx : Context) (fuel : Nat) : Turn → Memory × Option Halt
  | .stop mem halt => (mem, some halt)
  | .go ip mem => m.runFor ctx fuel ip mem

theorem runFor_succ (m : Machine) (ctx : Context) (fuel ip : Nat) (mem : Memory) :
    m.runFor ctx (fuel + 1) ip mem = (m.turn ctx ip mem).resume m ctx fuel := by
  unfold runFor turn
  rcases m.code[ip]? with _ | ⟨step, pos⟩
  · rfl
  · simp only
    split
    · rfl
    · split
      · rfl
      · rcases step.exec m.kind mem.store with ⟨store, f | flow⟩ <;> rfl

/-- The ways in which a round may go. -/
inductive Turned (m : Machine) (ctx : Context) (ip : Nat) (mem : Memory) : Turn → Prop
  | ends : m.code[ip]? = none → Turned m ctx ip mem (.stop mem .finished)
  | limited {step : Step} {pos : Pos} : m.code[ip]? = some (step, pos) → m.atLimit mem = true →
      Turned m ctx ip mem (.stop mem (.failed pos (.stepLimit mem.steps)))
  | canceled : m.atLimit mem = false → ctx.canceled mem.steps = true →
      mem.steps % cancelInterval = 0 →
      Turned m ctx ip mem (.stop mem .canceled)
  | fails {step : Step} {pos : Pos} {store : Store} {f : Fault} :
      m.code[ip]? = some (step, pos) → m.atLimit mem = false →
      (ctx.canceled mem.steps = true → mem.steps % cancelInterval ≠ 0) →
      step.exec m.kind mem.store = (store, .error f) →
      Turned m ctx ip mem (.stop ⟨store, mem.steps + 1⟩ (.failed pos f))
  | goes {step : Step} {pos : Pos} {store : Store} {flow : Flow} :
      m.code[ip]? = some (step, pos) → m.atLimit mem = false →
      (ctx.canceled mem.steps = true → mem.steps % cancelInterval ≠ 0) →
      step.exec m.kind mem.store = (store, .ok flow) →
      Turned m ctx ip mem (.go (follow ip flow) ⟨store, mem.steps + 1⟩)

theorem turned (m : Machine) (ctx : Context) (ip : Nat) (mem : Memory) :
    m.Turned ctx ip mem (m.turn ctx ip mem) := by
  unfold turn
  rcases hcode : m.code[ip]? with _ | ⟨step, pos⟩
  · exact .ends hcode
  · simp only
    split
    · rename_i hlimit
      exact .limited hcode hlimit
    · rename_i hlimit
      have hlimit : m.atLimit mem = false := by simpa using hlimit
      split
      · rename_i hcancel
        have hcancel : ctx.canceled mem.steps = true ∧ mem.steps % cancelInterval = 0 := by
          simpa using hcancel
        exact .canceled hlimit hcancel.1 hcancel.2
      · rename_i hcancel
        have hgoes : ctx.canceled mem.steps = true → mem.steps % cancelInterval ≠ 0 := by
          simpa using hcancel
        rcases hexec : step.exec m.kind mem.store with ⟨store, f | flow⟩
        · exact .fails hcode hlimit hgoes hexec
        · exact .goes hcode hlimit hgoes hexec

/-- What the end of a bounded run tells about the place that it has come to. -/
def Explains (m : Machine) (ctx : Context) (fuel n : Nat) (c : Config) : Option Halt → Prop
  | none => n = fuel
  | some .finished => m.Ends c
  | some .canceled => ctx ≠ .background
  | some (.failed pos f) => m.Faults c pos f ∨ (m.limit ≠ none ∧ ∃ steps, f = .stepLimit steps)

/-- A bounded run goes the way of the steps, up to the place where it ends. -/
theorem runFor_steps (m : Machine) (ctx : Context) (fuel ip : Nat) (mem : Memory) :
    ∃ n c, m.Steps n ⟨ip, mem.store⟩ c ∧
      m.Explains ctx fuel n c (m.runFor ctx fuel ip mem).2 ∧
      ((m.runFor ctx fuel ip mem).2 = some .finished →
        (m.runFor ctx fuel ip mem).1.store = c.store) := by
  induction fuel generalizing ip mem with
  | zero => exact ⟨0, _, .refl _, rfl, by simp [runFor]⟩
  | succ fuel ih =>
    have ht := m.turned ctx ip mem
    rw [runFor_succ]
    cases hturn : m.turn ctx ip mem with
    | stop mem' halt =>
      rw [hturn] at ht
      refine ⟨0, _, .refl _, ?_⟩
      cases ht with
      | ends hcode => exact ⟨hcode, fun _ => rfl⟩
      | limited hcode hlimit =>
        refine ⟨Or.inr ⟨fun hnone => ?_, _, rfl⟩, by simp [Turn.resume]⟩
        simp [atLimit, hnone] at hlimit
      | canceled _ hcanceled _ => exact ⟨Context.ne_background hcanceled, by simp [Turn.resume]⟩
      | fails hcode _ _ hexec =>
        exact ⟨Or.inl ⟨_, _, hcode, hexec⟩, by simp [Turn.resume]⟩
    | go ip' mem' =>
      rw [hturn] at ht
      cases ht with
      | @goes step pos store flow hcode _ _ hexec =>
        obtain ⟨n, c, hsteps, hexp, hstore⟩ := ih (follow ip flow) ⟨store, mem.steps + 1⟩
        refine ⟨n + 1, c, .head ⟨_, _, _, hcode, hexec, rfl⟩ hsteps, ?_, hstore⟩
        revert hexp
        show m.Explains ctx fuel n c (m.runFor ctx fuel _ _).2 →
          m.Explains ctx (fuel + 1) (n + 1) c (m.runFor ctx fuel _ _).2
        rcases (m.runFor ctx fuel _ _).2 with _ | _ | _ | ⟨pos, f⟩
        · exact congrArg (· + 1)
        all_goals exact id

/-- Without a limit no run fails at one. -/
theorem not_stepLimit_of_unlimited {ctx : Context} {fuel ip : Nat} {mem : Memory}
    (hl : m.limit = none) (h : (m.runFor ctx fuel ip mem).2 = some (.failed pos f)) :
    f.isStepLimit = false := by
  obtain ⟨n, c, -, hexp, -⟩ := m.runFor_steps ctx fuel ip mem
  rw [h] at hexp
  rcases hexp with ⟨step, store, -, hexec⟩ | ⟨hlimit, -⟩
  · exact Step.not_stepLimit hexec
  · exact absurd hl hlimit

/-- The run comes to an end. -/
def HaltsWith (m : Machine) (mem : Memory) (halt : Halt) : Prop :=
  ∃ fuel, m.runFor .background fuel 0 m.reset = (mem, some halt)

/-- The run does not come to an end, however long it is given. -/
def RunsForever (m : Machine) : Prop := ∀ fuel, (m.runFor .background fuel 0 m.reset).2 = none

variable {mem : Memory}

theorem HaltsWith.ends (h : m.HaltsWith mem .finished) :
    ∃ n c, m.Steps n ⟨0, m.reset.store⟩ c ∧ m.Ends c ∧ mem.store = c.store := by
  obtain ⟨fuel, hrun⟩ := h
  obtain ⟨n, c, hsteps, hexp, hstore⟩ := runFor_steps m .background fuel 0 m.reset
  rw [hrun] at hexp hstore
  exact ⟨n, c, hsteps, hexp, hstore rfl⟩

theorem HaltsWith.faults (hl : m.limit = none) (h : m.HaltsWith mem (.failed pos f)) :
    ∃ n c, m.Steps n ⟨0, m.reset.store⟩ c ∧ m.Faults c pos f := by
  obtain ⟨fuel, hrun⟩ := h
  obtain ⟨n, c, hsteps, hexp, -⟩ := runFor_steps m .background fuel 0 m.reset
  rw [hrun] at hexp
  obtain hfault | ⟨hlimit, -⟩ := hexp
  · exact ⟨n, c, hsteps, hfault⟩
  · exact absurd hl hlimit

/-- A run that is stuck has come to an end, and the end tells why. -/
theorem haltsWith_of_stuck (hl : m.limit = none) (hsteps : m.Steps n ⟨0, m.reset.store⟩ c)
    (hstuck : ∀ d, ¬ m.Moves c d) :
    (m.Ends c ∧ ∃ mem, m.HaltsWith mem .finished) ∨
      ∃ pos f mem, m.Faults c pos f ∧ m.HaltsWith mem (.failed pos f) := by
  obtain ⟨n', c', hsteps', hexp, -⟩ := runFor_steps m .background (n + 1) 0 m.reset
  cases hrun : m.runFor .background (n + 1) 0 m.reset with
  | mk mem halt? =>
    rw [hrun] at hexp
    cases halt? with
    | none =>
      have hle := hsteps.le_of_stuck hstuck hsteps'
      have hn : n' = n + 1 := hexp
      omega
    | some halt =>
      cases halt with
      | canceled => exact absurd hexp (by simp [Explains])
      | finished =>
        have hends : m.Ends c' := hexp
        obtain ⟨-, rfl⟩ := hsteps.unique_stuck hstuck hsteps' fun _ => hends.not_moves
        exact Or.inl ⟨hends, mem, n + 1, hrun⟩
      | failed pos f =>
        obtain hfault | ⟨hlimit, -⟩ := hexp
        · obtain ⟨-, rfl⟩ := hsteps.unique_stuck hstuck hsteps' fun _ => hfault.not_moves
          exact Or.inr ⟨pos, f, mem, hfault, n + 1, hrun⟩
        · exact absurd hl hlimit

theorem haltsWith_of_ends (hl : m.limit = none) (hsteps : m.Steps n ⟨0, m.reset.store⟩ c)
    (h : m.Ends c) : ∃ mem, m.HaltsWith mem .finished := by
  obtain ⟨-, hhalt⟩ | ⟨_, _, _, hfault, -⟩ := haltsWith_of_stuck hl hsteps fun _ => h.not_moves
  · exact hhalt
  · exact absurd h hfault.not_ends

theorem haltsWith_of_faults (hl : m.limit = none) (hsteps : m.Steps n ⟨0, m.reset.store⟩ c)
    (h : m.Faults c pos f) : ∃ mem pos f, m.HaltsWith mem (.failed pos f) := by
  obtain ⟨hends, -⟩ | ⟨pos, f, mem, -, hhalt⟩ := haltsWith_of_stuck hl hsteps fun _ => h.not_moves
  · exact absurd hends h.not_ends
  · exact ⟨mem, pos, f, hhalt⟩

/-- A run that can always be made longer never ends. -/
theorem runsForever_of_steps (hl : m.limit = none)
    (h : ∀ k, ∃ n c, k ≤ n ∧ m.Steps n ⟨0, m.reset.store⟩ c) : m.RunsForever := by
  intro fuel
  obtain ⟨n, c, hsteps, hexp, -⟩ := runFor_steps m .background fuel 0 m.reset
  obtain ⟨n', c', hle, hsteps'⟩ := h (n + 1)
  have hmoves : ¬ ∀ d, ¬ m.Moves c d := by
    intro hstuck
    have := hsteps.le_of_stuck hstuck hsteps'
    omega
  revert hexp
  cases (m.runFor .background fuel 0 m.reset).2 with
  | none => exact fun _ => rfl
  | some halt =>
    intro hexp
    cases halt with
    | canceled => exact absurd hexp (by simp [Explains])
    | finished =>
      have hends : m.Ends c := hexp
      exact absurd (fun _ => hends.not_moves) hmoves
    | failed pos f =>
      obtain hfault | ⟨hlimit, -⟩ := hexp
      · exact absurd (fun _ => hfault.not_moves) hmoves
      · exact absurd hl hlimit

theorem RunsForever.not_haltsWith {halt : Halt} (h : m.RunsForever) : ¬ m.HaltsWith mem halt := by
  rintro ⟨fuel, hrun⟩
  have := h fuel
  simp [hrun] at this

end Machine

end ThreeAddress
