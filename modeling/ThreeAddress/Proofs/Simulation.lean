import ThreeAddress.Proofs.ExpressionCode

/-! Lowered statements do what the interpreter says. The two are tied together at the ends of
statements only: where the interpreter is done, the machine has come to the place that belongs to
the signal, with a store that agrees; where it fails, so does the machine; and where it runs out of
rounds, the machine has executed as many instructions. -/
namespace ThreeAddress

namespace Machine

/-- What the machine does from `c` on when the interpreter comes to an outcome. -/
def Meets (m : Machine) (scheme : Scheme) (vars : List Text) (rounds : Nat)
    (exits : Signal → Option Nat) (low : Nat) (c : Config) : Outcome → Prop
  | .done signal σ => ∃ ip n s, exits signal = some ip ∧ m.Steps n c ⟨ip, s⟩ ∧ Agrees vars σ s ∧
      Keeps scheme vars low c.store s
  | .failed => m.Fails vars c
  | .unfinished => ∃ n c', rounds ≤ n ∧ m.Steps n c c'

/-- What the machine does from `c` on in a round of a loop with the given head and exit; if there is
another round, at least `least` instructions are executed before it. -/
def MeetsRound (m : Machine) (scheme : Scheme) (vars : List Text) (rounds least head exit : Nat)
    (low : Nat) (c : Config) : Round → Prop
  | .again σ => ∃ n s, least ≤ n ∧ m.Steps n c ⟨head, s⟩ ∧ Agrees vars σ s ∧
      Keeps scheme vars low c.store s
  | .leave σ => ∃ n s, m.Steps n c ⟨exit, s⟩ ∧ Agrees vars σ s ∧ Keeps scheme vars low c.store s
  | .failed => m.Fails vars c
  | .unfinished => ∃ n c', rounds ≤ n ∧ m.Steps n c c'

section

variable {m : Machine} {scheme : Scheme} {vars : List Text} {rounds least head exit low : Nat}
  {exits : Signal → Option Nat} {n : Nat} {c c' : Config} {o : Outcome} {r : Round}

theorem Meets.of_steps (hsteps : m.Steps n c c') (hk : Keeps scheme vars low c.store c'.store)
    (h : m.Meets scheme vars rounds exits low c' o) :
    m.Meets scheme vars (n + rounds) exits low c o := by
  cases o with
  | done signal σ =>
    obtain ⟨ip, n', s, hexit, hsteps', ha, hk'⟩ := h
    exact ⟨ip, n + n', s, hexit, hsteps.trans hsteps', ha, hk.trans hk'⟩
  | failed => exact Fails.of_steps hsteps h
  | unfinished =>
    obtain ⟨n', c'', hle, hsteps'⟩ := h
    exact ⟨n + n', c'', by omega, hsteps.trans hsteps'⟩

theorem Meets.mono {rounds' low' : Nat} (h : m.Meets scheme vars rounds exits low c o)
    (hr : rounds' ≤ rounds) (hl : low' ≤ low) :
    m.Meets scheme vars rounds' exits low' c o := by
  cases o with
  | done signal σ =>
    obtain ⟨ip, n, s, hexit, hsteps, ha, hk⟩ := h
    exact ⟨ip, n, s, hexit, hsteps, ha, hk.mono hl⟩
  | failed => exact h
  | unfinished =>
    obtain ⟨n, c', hle, hsteps⟩ := h
    exact ⟨n, c', Nat.le_trans hr hle, hsteps⟩

/-- `Meets.of_steps` where the instructions before need not be counted. -/
theorem Meets.after {low' : Nat} (h : m.Meets scheme vars rounds exits low' c' o)
    (hsteps : m.Steps n c c') (hk : Keeps scheme vars low c.store c'.store) (hl : low ≤ low') :
    m.Meets scheme vars rounds exits low c o :=
  ((h.mono (Nat.le_refl _) hl).of_steps hsteps hk).mono (Nat.le_add_left rounds n) (Nat.le_refl _)

theorem MeetsRound.of_steps (hsteps : m.Steps n c c')
    (hk : Keeps scheme vars low c.store c'.store)
    (h : m.MeetsRound scheme vars rounds least head exit low c' r) :
    m.MeetsRound scheme vars rounds (n + least) head exit low c r := by
  cases r with
  | again σ =>
    obtain ⟨n', s, hle, hsteps', ha, hk'⟩ := h
    exact ⟨n + n', s, by omega, hsteps.trans hsteps', ha, hk.trans hk'⟩
  | leave σ =>
    obtain ⟨n', s, hsteps', ha, hk'⟩ := h
    exact ⟨n + n', s, hsteps.trans hsteps', ha, hk.trans hk'⟩
  | failed => exact Fails.of_steps hsteps h
  | unfinished =>
    obtain ⟨n', c'', hle, hsteps'⟩ := h
    exact ⟨n + n', c'', by omega, hsteps.trans hsteps'⟩

theorem MeetsRound.mono {least' : Nat}
    (h : m.MeetsRound scheme vars rounds least head exit low c r) (hl : least' ≤ least) :
    m.MeetsRound scheme vars rounds least' head exit low c r := by
  cases r with
  | again σ =>
    obtain ⟨n, s, hle, rest⟩ := h
    exact ⟨n, s, Nat.le_trans hl hle, rest⟩
  | leave | failed | unfinished => exact h

/-- A loop whose rounds are met is met. The temporaries up to `low` are as they were in `base`. -/
theorem meets_iterate (exit : Nat) {round : Env → Round} {base : Store}
    (hexit : exits .next = some exit)
    (hround : ∀ σ s, Agrees vars σ s → Keeps scheme vars low base s →
      m.MeetsRound scheme vars rounds 1 head exit low ⟨head, s⟩ (round σ)) :
    ∀ j, j ≤ rounds → ∀ σ s, Agrees vars σ s → Keeps scheme vars low base s →
      m.Meets scheme vars j exits low ⟨head, s⟩ (Round.iterate round j σ) := by
  intro j
  induction j with
  | zero =>
    intro _ σ s _ _
    exact ⟨0, _, Nat.zero_le _, .refl _⟩
  | succ j ih =>
    intro hj σ s ha hk
    have hmeets := hround σ s ha hk
    rw [Round.iterate]
    cases hr : round σ with
    | again σ' =>
      rw [hr] at hmeets
      obtain ⟨n, s', hn, hsteps, ha', hk'⟩ := hmeets
      have hrest := ih (by omega) σ' s' ha' (hk.trans hk')
      exact (hrest.of_steps hsteps hk').mono (by omega) (Nat.le_refl _)
    | leave σ' =>
      rw [hr] at hmeets
      obtain ⟨n, s', hsteps, ha', hk'⟩ := hmeets
      exact ⟨exit, n, s', hexit, hsteps, ha', hk'⟩
    | failed =>
      rw [hr] at hmeets
      exact hmeets
    | unfinished =>
      rw [hr] at hmeets
      obtain ⟨n, c', hle, hsteps⟩ := hmeets
      exact ⟨n, c', by omega, hsteps⟩

/-- A round from the outcome of its body, given what is done before the next round. -/
theorem meetsRound_ofBody (advance : Env → Option Env) (head : Nat) {base : Store}
    {breakTo nextTo contTo : Nat} (h : m.Meets scheme vars rounds exits low c o)
    (hkeep : Keeps scheme vars low base c.store)
    (hnext : exits .next = some nextTo) (hbreak : exits .breaks = some breakTo)
    (hcont : exits .continues = some contTo)
    (hleave : ∀ s, m.Steps 1 ⟨breakTo, s⟩ ⟨exit, s⟩)
    (hadvance : ∀ ip ∈ [nextTo, contTo], ∀ σ s, Agrees vars σ s → Keeps scheme vars low base s →
      (advance σ = none ∧ m.Fails vars ⟨ip, s⟩) ∨
      ∃ σ' n s', advance σ = some σ' ∧ m.Steps n ⟨ip, s⟩ ⟨head, s'⟩ ∧ Agrees vars σ' s' ∧
        Keeps scheme vars low s s') :
    m.MeetsRound scheme vars rounds 0 head exit low c (.ofBody advance o) := by
  cases o with
  | failed => exact h
  | unfinished => exact h
  | done signal σ =>
    obtain ⟨ip, n, s, hexit, hsteps, ha, hk⟩ := h
    have hgo : ip ∈ [nextTo, contTo] →
        m.MeetsRound scheme vars rounds 0 head exit low c (.next (advance σ)) := by
      intro hip
      obtain ⟨hnone, hfail⟩ | ⟨σ', n', s', hsome, hsteps', ha', hk'⟩ :=
        hadvance ip hip σ s ha (hkeep.trans hk)
      · rw [hnone]
        exact Fails.of_steps hsteps hfail
      · rw [hsome]
        exact ⟨n + n', s', Nat.zero_le _, hsteps.trans hsteps', ha', hk.trans hk'⟩
    cases signal with
    | breaks =>
      obtain rfl : breakTo = ip := by simpa [hbreak] using hexit
      exact ⟨n + 1, s, hsteps.trans (hleave s), ha, hk⟩
    | next =>
      obtain rfl : nextTo = ip := by simpa [hnext] using hexit
      exact hgo (by simp)
    | continues =>
      obtain rfl : contTo = ip := by simpa [hcont] using hexit
      exact hgo (by simp)

end

end Machine

/-- Where control goes with a signal: on to `stop`, or to the targets of the loop around. -/
def exitsOf (place : Text → Nat) (loop : Option Loop) (stop : Nat) : Signal → Option Nat
  | .next => some stop
  | .breaks => loop.map fun l => place l.breakTo
  | .continues => loop.map fun l => place l.continueTo

namespace Machine.Meets

variable {m : Machine} {scheme : Scheme} {vars : List Text} {rounds low mid stop : Nat}
  {place : Text → Nat} {loop : Option Loop} {c : Config} {o : Outcome}

/-- One statement and then those that follow it. -/
theorem andThen {rest : Env → Outcome}
    (h : m.Meets scheme vars rounds (exitsOf place loop mid) low c o)
    (hrest : ∀ σ s, Agrees vars σ s →
      m.Meets scheme vars rounds (exitsOf place loop stop) low ⟨mid, s⟩ (rest σ)) :
    m.Meets scheme vars rounds (exitsOf place loop stop) low c (o.andThen rest) := by
  cases o with
  | failed | unfinished => exact h
  | done signal σ =>
    cases signal with
    | breaks | continues => exact h
    | next =>
      obtain ⟨ip, n, s, hexit, hsteps, ha, hk⟩ := h
      obtain rfl : mid = ip := by simpa [exitsOf] using hexit
      exact (hrest σ s ha).after hsteps hk (Nat.le_refl _)

/-- A jump or a label at the end. -/
theorem goto (h : m.Meets scheme vars rounds (exitsOf place loop mid) low c o)
    (hgo : ∀ s, m.Steps 1 ⟨mid, s⟩ ⟨stop, s⟩) :
    m.Meets scheme vars rounds (exitsOf place loop stop) low c o := by
  cases o with
  | failed | unfinished => exact h
  | done signal σ =>
    cases signal with
    | breaks | continues => exact h
    | next =>
      obtain ⟨ip, n, s, hexit, hsteps, ha, hk⟩ := h
      obtain rfl : mid = ip := by simpa [exitsOf] using hexit
      exact ⟨stop, n + 1, s, rfl, hsteps.trans (hgo s), ha, hk⟩

end Machine.Meets

end ThreeAddress
