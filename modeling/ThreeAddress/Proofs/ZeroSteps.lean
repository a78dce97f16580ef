import ThreeAddress.Proofs.IntegerRounding
import ThreeAddress.Proofs.RangeLoops
import ThreeAddress.Proofs.SourceOrder

/-! Loops with a step of zero, of which a warning says that they never terminate. They have the test
of loops that count down: one that starts at or below its bound is left at once, and control that
comes to any other does not get past it. -/
namespace ThreeAddress

open Instr

def Event.zeroStep? : Event → Option Pos
  | .zeroStep pos => some pos
  | _ => none

/-- The place of the step that a warning is about. -/
def Warning.zeroStep? (w : Warning) : Option Pos :=
  match w.cause with
  | .zeroStep => some w.pos
  | _ => none

theorem Warning.zeroSteps_ofEvents (k : Known) (es : List Event) :
    (ofEvents k es).filterMap zeroStep? = es.filterMap Event.zeroStep? := by
  induction es generalizing k with
  | nil => rfl
  | cons e rest ih =>
    have hown : (k.warnings e).filterMap zeroStep? = e.zeroStep?.toList := by
      cases e with
      | zeroStep pos => rfl
      | read n | declare n =>
        simp only [Known.warnings]
        split
        · first | rfl | (split <;> rfl)
        · rfl
    rw [ofEvents, List.filterMap_append, hown, ih, List.filterMap_cons]
    cases e.zeroStep? <;> rfl

theorem Stmt.zeroSteps_ownEvents (s : Stmt) :
    s.ownEvents.filterMap Event.zeroStep? = s.zeroStep?.toList := by
  have hreads : ∀ ns : List Name, (ns.map Event.read).filterMap Event.zeroStep? = [] := by
    intro ns
    simp [List.filterMap_map, Event.zeroStep?]
  cases s with
  | missing | breakLoop | continueLoop => rfl
  | eval | branch | whileLoop => exact hreads _
  | assign span target op value =>
    simp only [ownEvents, nameEvents, List.filterMap_append, hreads]
    split <;> rfl
  | forLoop span var range body =>
    simp only [ownEvents, List.filterMap_append, hreads]
    cases zeroStep? (.forLoop span var range body) <;> rfl

/-- The warnings about steps of zero are about the loops that have one, in source order. -/
theorem Program.zeroStep_warnings (p : Program) :
    p.warnings.filterMap Warning.zeroStep? = p.inOrder.filterMap Stmt.zeroStep? := by
  rw [warnings, Warning.zeroSteps_ofEvents, events_eq]
  induction p.inOrder with
  | nil => rfl
  | cons s rest ih =>
    rw [List.flatMap_cons, List.filterMap_append, Stmt.zeroSteps_ownEvents, ih, List.filterMap_cons]
    cases s.zeroStep? <;> rfl

namespace Machine

variable {m : Machine} {lo hi n n' ip : Nat} {c c' c'' : Config} {trail : List (Config × Config)}

theorem Moves.eq_of_steps (h : m.Moves c c') (hsteps : m.Steps 1 c c'') : c' = c'' :=
  (Steps.single h).unique hsteps

/-- A run from the start of a walk goes on behind its end, or has not come there yet. -/
theorem Walks.cut (h : m.Walks lo hi c trail c') (hsteps : m.Steps n c c'') :
    (lo ≤ c''.ip ∧ c''.ip < hi) ∨ ∃ n', m.Steps n' c' c'' := by
  induction h generalizing n with
  | refl => exact Or.inr ⟨n, hsteps⟩
  | head hlo hhi hmove _ ih =>
    cases hsteps with
    | refl => exact Or.inl ⟨hlo, hhi⟩
    | head hmove' hrest =>
      cases hmove.unique hmove'
      exact ih hrest

/-- A run that never comes to the end of the program fails, or never ends. -/
theorem runsForever_or_fails (hl : m.limit = none) (hc : m.Steps n ⟨0, m.reset.store⟩ c)
    (hgoes : ∀ n' c', m.Steps n' c c' → ¬ m.Ends c') :
    m.RunsForever ∨ ∃ n' c' pos f mem, m.Steps n' c c' ∧ m.Faults c' pos f ∧
      m.HaltsWith mem (.failed pos f) := by
  by_cases hstuck : ∃ n' c', m.Steps n' c c' ∧ ∀ d, ¬ m.Moves c' d
  · obtain ⟨n', c', hsteps, hstuck⟩ := hstuck
    rcases haltsWith_of_stuck hl (hc.trans hsteps) hstuck with ⟨hends, -⟩ | ⟨pos, f, mem, hf, hh⟩
    · exact absurd hends (hgoes n' c' hsteps)
    · exact Or.inr ⟨n', c', pos, f, mem, hsteps, hf, hh⟩
  · have hmore : ∀ k, ∃ c', m.Steps k c c' := by
      intro k
      induction k with
      | zero => exact ⟨c, .refl c⟩
      | succ k ih =>
        obtain ⟨c', hsteps⟩ := ih
        obtain ⟨d, hmove⟩ : ∃ d, m.Moves c' d := by
          by_contra hnone
          exact hstuck ⟨k, c', hsteps, not_exists.1 hnone⟩
        exact ⟨d, hsteps.trans (.single hmove)⟩
    refine Or.inl (runsForever_of_steps hl fun k => ?_)
    obtain ⟨c', hsteps⟩ := hmore k
    exact ⟨n + k, c', by omega, hc.trans hsteps⟩

/-- A test of an operand without a value is not passed. -/
theorem Executes.not_moves_jumpIf {full : List Instr} {place : Text → Nat} {vars : List Text}
    {s : Store} {x op y target : Text} {pos : Pos} (hx : m.Executes full place)
    (hi : full[ip]? = some ⟨.jumpIf x op y target, pos⟩)
    (hc : Calculates vars s (.ofRhs (.binary x op y)) none) : ¬ m.Moves ⟨ip, s⟩ c' := by
  rintro ⟨step, pos', flow, hcode, hexec, -⟩
  obtain ⟨f, hf, -⟩ := hc
  obtain ⟨i, hi', rfl⟩ := hx.fetched hcode
  rw [hi] at hi'
  cases hi'
  simp only [Step.ofAction, Step.exec, hf] at hexec
  cases hexec

end Machine

namespace RangeLoop

variable {m : Machine} {full : List Instr} {place : Text → Nat} {scheme : Scheme}
  {vars : List Text} {span : Span} {var : Name} {range : Range} {body : Option (Block Stmt)}
  (loop : RangeLoop scheme vars full span var range body)

/-- A machine is in a loop that counts from `start`, with the bounds that it has computed before it
came to the store `base`. The body leaves the bounds and the counter alone and does not break, and
the test never holds. -/
structure Endless (m : Machine) (place : Text → Nat) (base : Store) (stop : Option Value)
    (start step : Value) : Prop where
  executes : m.Executes full place
  reads : ∀ s, Keeps scheme vars loop.names₃.lastTemp base s →
    Reads vars s loop.stop stop ∧ Reads vars s loop.step (some step)
  keeps_var : ∀ i ∈ loop.inner, i.action.writes? ≠ some var.text
  keeps_temps : ∀ n ≤ loop.names₃.lastTemp, scheme.temp n ∉ vars →
    ∀ i ∈ loop.inner, i.action.writes? ≠ some (scheme.temp n)
  targets : ∀ t ∈ targetsOf loop.inner,
    t ∈ labelsOf loop.inner ∨ t = scheme.label (loop.names₃.labels + 2)
  never : ∀ n, ∀ w ∈ stop, (Value.compare (Value.counted m.kind start step n) w).satisfies
    (if range.step.countsDown then .lessEqual else .greaterEqual) = false

/-- A place in the loop, behind the code for its bounds. The bounds are as in `base`, and the
counter has advanced a number of times. -/
structure Within (m : Machine) (base : Store) (start step : Value) (c : Machine.Config) : Prop where
  head_le : loop.head ≤ c.ip
  lt_exit : c.ip < loop.last + 3
  keeps : Keeps scheme vars loop.names₃.lastTemp base c.store
  counter : ∃ n, c.store.value? var.text = some (Value.counted m.kind start step n)

variable {loop} {base : Store} {stop : Option Value} {start step : Value} {c c' : Machine.Config}
  {n : Nat}

/-- No move leads out of an endless loop. -/
theorem Endless.within_moves (h : loop.Endless m place base stop start step)
    (hc : loop.Within m base start step c) (hmove : m.Moves c c') :
    loop.Within m base start step c' := by
  obtain ⟨ip, s⟩ := c
  obtain ⟨hlo, hhi, hkeeps, n, hvar⟩ := hc
  obtain ⟨hentry, hfirst, hlast, hexit⟩ := loop.places
  obtain ⟨hstop, hstep⟩ := h.reads s hkeeps
  have hx := h.executes
  have hplace : ip = loop.head ∨ ip = loop.head + 1 ∨ (loop.first ≤ ip ∧ ip < loop.last) ∨
      ip = loop.last ∨ ip = loop.last + 1 ∨ ip = loop.last + 2 := by
    simp only at hlo hhi
    omega
  rcases hplace with rfl | rfl | ⟨hin, hin'⟩ | rfl | rfl | rfl
  · obtain rfl := hmove.eq_of_steps (hx.steps_label loop.located_test.head s)
    exact ⟨by simp, by simp only; omega, hkeeps, n, hvar⟩
  · -- the test
    cases stop with
    | none =>
      have hcalc : Calculates vars s
          (.ofRhs (.binary var.text (Lower.exitTest range.step) loop.stop)) _ :=
        exitTest_calculates loop.isName loop.var_mem (fun _ _ => rfl) hstop
      simp only [hvar, Option.bind_some, Option.bind_none] at hcalc
      exact absurd hmove (hx.not_moves_jumpIf loop.located_test.tail.head hcalc)
    | some w =>
      have htest := loop.tests hx hstop hvar
      rw [h.never n w rfl] at htest
      obtain rfl := hmove.eq_of_steps htest
      exact ⟨by simp; omega, by simp; omega, hkeeps, n, hvar⟩
  · -- the body
    have hwalk : m.Walks loop.first (loop.first + loop.inner.length) ⟨ip, s⟩ _ c' :=
      .single hin hin' hmove
    obtain ⟨hlo', hhi'⟩ :=
      hmove.within hx loop.located_body (loop.leaves_body hx h.targets) hin hin'
    have hhi' : c'.ip ≤ loop.last := hhi'
    refine ⟨by omega, by omega, fun i hi hnot => ?_, n, ?_⟩
    · exact (hwalk.get?_eq hx loop.located_body (h.keeps_temps i hi hnot)).trans
        (hkeeps i hi hnot)
    · rw [Store.value?, hwalk.get?_eq hx loop.located_body h.keeps_var]
      exact hvar
  · obtain rfl := hmove.eq_of_steps (hx.steps_label loop.located_end.head s)
    exact ⟨by simp only; omega, by simp, hkeeps, n, hvar⟩
  · -- the counter advances
    obtain rfl := hmove.eq_of_steps (loop.adds hx hstep hvar (Value.binary_add _ _))
    refine ⟨by simp only; omega, by simp, hkeeps.trans (.set_var loop.var_mem), n + 1, ?_⟩
    rw [Store.value?_set, if_pos rfl]
    rfl
  · obtain rfl := hmove.eq_of_steps (hx.steps_jump loop.located_end.tail.tail.head s)
    have hagain := loop.located_test.place_eq hx
    exact ⟨by simp only; omega, by simp only; omega, hkeeps, n, hvar⟩

theorem Endless.within_steps (h : loop.Endless m place base stop start step)
    (hc : loop.Within m base start step c) (hsteps : m.Steps n c c') :
    loop.Within m base start step c' := by
  induction hsteps with
  | refl => exact hc
  | head hmove _ ih => exact ih (h.within_moves hc hmove)

theorem exit_le_length (loop : RangeLoop scheme vars full span var range body) :
    loop.entry + 7 ≤ loop.exit ∧ loop.exit ≤ full.length := by
  have hlength := loop.located.length_le
  simp only [List.length_append, List.length_cons, List.length_nil, List.length_drop] at hlength
  simp only [exit, last, first, head, before, List.length_append, List.length_cons,
    List.length_nil]
  omega

/-- A place in the loop is not the end of the program. -/
theorem not_ends (loop : RangeLoop scheme vars full span var range body)
    (hx : m.Executes full place) (hc : c.ip < loop.exit) : ¬ m.Ends c := by
  intro hends
  have hends : m.code[c.ip]? = none := hends
  have hlength := loop.exit_le_length.2
  rw [hx.fetch, Option.map_eq_none_iff, List.getElem?_eq_none_iff] at hends
  omega

end RangeLoop

/-- A loop whose step is known to be zero. Its body neither assigns the counter nor breaks. -/
structure StandsStill (span : Span) (var : Name) (range : Range) (body : Option (Block Stmt)) :
    Prop where
  zero : (Stmt.forLoop span var range body).zeroStep? = some range.step.start
  keeps : ∀ st ∈ Stmt.allOf (Stmt.ofBody body), st.declares? ≠ some var.text
  stays : Stmt.breaksInList (Stmt.ofBody body) = false

instance {span : Span} {var : Name} {range : Range} {body : Option (Block Stmt)} :
    Decidable (StandsStill span var range body) :=
  decidable_of_iff ((Stmt.forLoop span var range body).zeroStep? = some range.step.start ∧
    (∀ st ∈ Stmt.allOf (Stmt.ofBody body), st.declares? ≠ some var.text) ∧
    Stmt.breaksInList (Stmt.ofBody body) = false)
    ⟨fun ⟨hzero, hkeeps, hstays⟩ => ⟨hzero, hkeeps, hstays⟩,
      fun h => ⟨h.zero, h.keeps, h.stays⟩⟩

namespace Range

/-- Whether the counter, after `n` advances by the step, is at or below the bound. -/
def passed (range : Range) (k : NumKind) (σ : Env) (n : Nat) : Bool :=
  match range.start.eval k σ, range.stop.held k σ, range.step.held k σ with
  | some v, some (some w), some (some d) =>
    (Value.compare (Value.counted k (v.convert k) d n) w).satisfies .lessEqual
  | _, _, _ => false

variable {range : Range} {k : NumKind} {σ : Env} {n : Nat} {v w d : Value}

theorem passed_eq (hv : range.start.eval k σ = some v) (hw : range.stop.held k σ = some (some w))
    (hd : range.step.held k σ = some (some d)) : range.passed k σ n =
      (Value.compare (Value.counted k (v.convert k) d n) w).satisfies .lessEqual := by
  simp only [passed, hv, hw, hd]

theorem passed_congr {n' : Nat} (hd : range.step.held k σ = some (some d))
    (h : ∀ v w : Value, Value.compare (Value.counted k (v.convert k) d n) w =
      Value.compare (Value.counted k (v.convert k) d n') w) :
    range.passed k σ n = range.passed k σ n' := by
  unfold passed
  rw [hd]
  cases range.start.eval k σ with
  | none => rfl
  | some v =>
    rcases range.stop.held k σ with _ | _ | w
    · rfl
    · rfl
    · simp only [h]

theorem exists_of_passed (h : range.passed k σ n = true) :
    ∃ v w d, range.start.eval k σ = some v ∧ range.stop.held k σ = some (some w) ∧
      range.step.held k σ = some (some d) := by
  unfold passed at h
  split at h
  · rename_i v w d hv hw hd
    exact ⟨v, w, d, hv, hw, hd⟩
  · cases h

end Range

namespace StandsStill

variable {span : Span} {var : Name} {range : Range} {body : Option (Block Stmt)}

theorem const (h : StandsStill span var range body) :
    ∃ v : Float, range.step.const? = some v ∧ v == 0 := by
  have hzero := h.zero
  have hany : range.step.const?.any (· == 0) = true := by
    by_contra hnot
    simp [Stmt.zeroStep?, hnot] at hzero
  cases hc : range.step.const? with
  | none =>
    rw [hc] at hany
    cases hany
  | some v =>
    rw [hc] at hany
    exact ⟨v, rfl, hany⟩

/-- The step is a zero, whatever the variables are. -/
theorem held (h : StandsStill span var range body) (hwf : range.WellFormed) (k : NumKind)
    (σ : Env) : ∃ d, range.step.held k σ = some (some d) ∧ d.IsZero ∧
      (k = .float ∨ range.step.isFloatLiteral = false → k = .float ∨ d.kind = .int) := by
  obtain ⟨v, hconst, hv⟩ := h.const
  exact Expr.held_zero hwf.2.2 hconst hv k σ

theorem countsDown (h : StandsStill span var range body) : range.step.countsDown = true := by
  obtain ⟨v, hconst, hv⟩ := h.const
  exact Expr.countsDown_zero hconst hv

/-- From the first advance on nothing changes. -/
theorem passed_succ (h : StandsStill span var range body) (hwf : range.WellFormed) (k : NumKind)
    (σ : Env) (n : Nat) : range.passed k σ (n + 1) = range.passed k σ 1 := by
  obtain ⟨d, hd, hzero, -⟩ := h.held hwf k σ
  refine Range.passed_congr hd fun v w => ?_
  exact Value.compare_counted_succ (Value.kind_convert k v) hzero n w

/-- The first advance changes nothing either, unless it takes an integer through a floating-point
number. -/
theorem passed_one (h : StandsStill span var range body) (hwf : range.WellFormed) {k : NumKind}
    (hk : k = .float ∨ range.step.isFloatLiteral = false) (σ : Env) :
    range.passed k σ 1 = range.passed k σ 0 := by
  obtain ⟨d, hd, hzero, hkind⟩ := h.held hwf k σ
  refine Range.passed_congr hd fun v w => ?_
  exact Value.compare_counted (Value.kind_convert k v) hzero (hkind hk) 1 w

end StandsStill

namespace RangeLoop

variable {m : Machine} {full : List Instr} {place : Text → Nat} {scheme : Scheme}
  {vars : List Text} {span : Span} {var : Name} {range : Range} {body : Option (Block Stmt)}
  (loop : RangeLoop scheme vars full span var range body) {s : Store}

/-- A loop that starts at or below its bound is left at once. -/
theorem left_at_once (hset : Setup m full place scheme vars)
    (hstill : StandsStill span var range body)
    (hpassed : range.passed m.kind s.value? 0 = true) :
    ∃ v s', range.start.eval m.kind s.value? = some v ∧
      loop.Visits m ⟨loop.entry, s⟩ [] ⟨loop.exit, s'⟩ ∧
      s'.value? var.text = some (v.convert m.kind) := by
  obtain ⟨v, w, d, hv, hw, hd⟩ := Range.exists_of_passed hpassed
  obtain ⟨base, hvisits, hvar, hreads⟩ := loop.arrives hset hv hw hd
  have hstop := (hreads base (Keeps.refl scheme vars _ base)).1
  have htest : (Value.compare (v.convert m.kind) w).satisfies
      (if range.step.countsDown then .lessEqual else .greaterEqual) = true := by
    rw [Range.passed_eq hv hw hd] at hpassed
    rw [hstill.countsDown]
    exact hpassed
  exact ⟨v, base, hv, hvisits.trans (loop.passes hset.executes hstop hvar htest), hvar⟩

/-- A loop whose counter never comes to its bound is not left. -/
theorem stays_inside (hset : Setup m full place scheme vars)
    (hstill : StandsStill span var range body)
    (hnever : ∀ n, range.passed m.kind s.value? n = false) {n : Nat} {c : Machine.Config}
    (hsteps : m.Steps n ⟨loop.entry, s⟩ c) : loop.entry ≤ c.ip ∧ c.ip < loop.exit := by
  obtain ⟨hentry, hfirst, hlast, hexit⟩ := loop.places
  obtain ⟨-, trail, d, pos, f, hwalk, hfault, hlo, hhi⟩ | ⟨v, stop, step, trail, base, hv, hstop,
    hstep, hwalk, hvar, hreads⟩ := loop.approaches hset s
  · -- a bound has no value
    rcases hwalk.cut hsteps with ⟨hlo', hhi'⟩ | ⟨n', hrest⟩
    · exact ⟨hlo', by omega⟩
    · cases hrest with
      | refl => exact ⟨hlo, by omega⟩
      | head hmove _ => exact absurd hmove hfault.not_moves
  · obtain ⟨d, hd, -⟩ := hstill.held loop.range_wellFormed m.kind s.value?
    rw [hd] at hstep
    cases hstep
    have hendless : loop.Endless m place base stop (v.convert m.kind) d := by
      refine ⟨hset.executes, hreads, ?_, ?_, ?_, ?_⟩
      · exact loop.body_code.writes_ne_var loop.body_wellFormed loop.body_names loop.var_mem
          hstill.keeps
      · exact fun _ hn hnot => loop.body_code.writes_ne_temp loop.body_names hn hnot
      · exact loop.body_code.targets_of_not_breaks hstill.stays
      · rintro n w hw
        cases hw
        have hnot := hnever n
        rw [Range.passed_eq hv hstop hd] at hnot
        rw [hstill.countsDown]
        exact hnot
    have hwithin : loop.Within m base (v.convert m.kind) d ⟨loop.head, base⟩ :=
      ⟨Nat.le_refl _, by simp only; omega, Keeps.refl scheme vars _ base, 0, hvar⟩
    rcases hwalk.cut hsteps with ⟨hlo', hhi'⟩ | ⟨n', hrest⟩
    · exact ⟨hlo', by omega⟩
    · obtain ⟨hlo', hhi', -⟩ := hendless.within_steps hwithin hrest
      exact ⟨by omega, by omega⟩

end RangeLoop

/-- What the warning about a step of zero is worth. The warnings are about the loops whose step is a
constant zero. Control that comes to such a loop, with a body that neither breaks nor assigns the
counter, leaves it at once without a visit to the body if the loop starts at or below its bound. If
the counter is above the bound, at the start and after the first advance, control does not get past
the loop: the run fails inside it or never ends. The advance makes no difference in floating-point
programs, nor if the step is no floating-point literal. -/
theorem zero_step_loops_end_at_once_or_never {settings : Settings} {source : Text}
    {t : Compilation} {k : NumKind} {span : Span} {var : Name} {range : Range}
    {body : Option (Block Stmt)} (hcompile : (compile settings source).outcome = .ok t)
    (hk : NumKind.ofType? t.listing.type = some k) (inputs : List (Text × Float))
    (hloop : .forLoop span var range body ∈ t.program.allStmts)
    (hstill : StandsStill span var range body) :
    t.warnings.filterMap Warning.zeroStep? = t.program.inOrder.filterMap Stmt.zeroStep? ∧
    ∃ m, Machine.load t.listing none inputs = .ok m ∧
      Nonempty (RangeLoop settings.scheme.filled (t.program.names.map (·.text)) t.listing.code span
        var range body) ∧
      ∀ (loop : RangeLoop settings.scheme.filled (t.program.names.map (·.text)) t.listing.code span
          var range body) (s : Store),
        (range.passed k s.value? 0 = true → ∃ v s', range.start.eval k s.value? = some v ∧
          m.Visits loop.entry loop.exit loop.first loop.last ⟨loop.entry, s⟩ [] ⟨loop.exit, s'⟩ ∧
          s'.value? var.text = some (v.convert k)) ∧
        (range.passed k s.value? 0 = false → range.passed k s.value? 1 = false →
          (∀ n c, m.Steps n ⟨loop.entry, s⟩ c → loop.entry ≤ c.ip ∧ c.ip < loop.exit) ∧
          ∀ n, m.Steps n ⟨0, m.reset.store⟩ ⟨loop.entry, s⟩ →
            m.RunsForever ∨ ∃ n' c pos f mem, m.Steps n' ⟨loop.entry, s⟩ c ∧ m.Faults c pos f ∧
              m.HaltsWith mem (.failed pos f)) ∧
        (k = .float ∨ range.step.isFloatLiteral = false →
          range.passed k s.value? 1 = range.passed k s.value? 0) := by
  obtain ⟨m, place, hload, rfl, hset, hplaced⟩ := compile_setup hcompile hk none inputs
  refine ⟨?_, m, hload, (hplaced _ hloop).rangeLoop, ?_⟩
  · rw [(compile_parts hcompile).2.2, Program.zeroStep_warnings]
  intro loop s
  refine ⟨loop.left_at_once hset hstill, fun hfirst hsecond => ?_, fun hkind => ?_⟩
  · have hnever : ∀ n, range.passed m.kind s.value? n = false := by
      intro n
      cases n with
      | zero => exact hfirst
      | succ n => rw [hstill.passed_succ loop.range_wellFormed, hsecond]
    have hinside : ∀ n c, m.Steps n ⟨loop.entry, s⟩ c → loop.entry ≤ c.ip ∧ c.ip < loop.exit :=
      fun n c hsteps => loop.stays_inside hset hstill hnever hsteps
    refine ⟨hinside, fun n hsteps => ?_⟩
    refine Machine.runsForever_or_fails (Machine.load_parts hload).2.2.1 hsteps ?_
    intro n' c hsteps'
    exact loop.not_ends hset.executes (hinside n' c hsteps').2
  · exact hstill.passed_one loop.range_wellFormed hkind s.value?

/-- A loop that starts above its bound. -/
theorem loop_above_its_bound_is_not_left : ∃ t m,
    (compile .default "for i in range(1, 0, 0): { }").outcome = .ok t ∧
      t.warnings.filterMap Warning.zeroStep? = [⟨1, 22, 21⟩] ∧
      Machine.load t.listing none [] = .ok m ∧
      (∀ n c, m.Steps n ⟨0, m.reset.store⟩ c → c.ip < t.listing.code.length) ∧
      (m.RunsForever ∨ ∃ n c pos f mem, m.Steps n ⟨0, m.reset.store⟩ c ∧ m.Faults c pos f ∧
        m.HaltsWith mem (.failed pos f)) := by
  have ht : Token.tokenize "for i in range(1, 0, 0): { }" =
      [⟨.keyword .forWord, "for", ⟨1, 1, 0⟩⟩, ⟨.name, "i", ⟨1, 5, 4⟩⟩,
        ⟨.keyword .inWord, "in", ⟨1, 7, 6⟩⟩, ⟨.keyword .rangeWord, "range", ⟨1, 10, 9⟩⟩,
        ⟨.op .lparen, "(", ⟨1, 15, 14⟩⟩, ⟨.number, "1", ⟨1, 16, 15⟩⟩,
        ⟨.op .comma, ",", ⟨1, 17, 16⟩⟩, ⟨.number, "0", ⟨1, 19, 18⟩⟩,
        ⟨.op .comma, ",", ⟨1, 20, 19⟩⟩, ⟨.number, "0", ⟨1, 22, 21⟩⟩,
        ⟨.op .rparen, ")", ⟨1, 23, 22⟩⟩, ⟨.op .colon, ":", ⟨1, 24, 23⟩⟩,
        ⟨.op .lbrace, Op.lbrace.symbol, ⟨1, 26, 25⟩⟩,
        ⟨.op .rbrace, Op.rbrace.symbol, ⟨1, 28, 27⟩⟩] := by
    decide
  have hp : ∃ p span var range body,
      Program.parse "for i in range(1, 0, 0): { }" = .ok p ∧
      p.inOrder.filterMap Stmt.zeroStep? = [⟨1, 22, 21⟩] ∧
      Stmt.forLoop span var range body ∈ p.allStmts ∧ StandsStill span var range body ∧
      ∀ σ, range.passed .float σ 0 = false := by
    rw [Program.parse, ht]
    refine ⟨_, _, _, _, _, rfl, ?_, .head _, ?_, fun σ => ?_⟩
    · decide
    · decide
    · rfl
  obtain ⟨p, span, var, range, body, hparse, hzeros, hmem, hstill, hpassed⟩ := hp
  have hrun : (compile .default "for i in range(1, 0, 0): { }").outcome.toOption.map
      (fun t => (NumKind.ofType? t.listing.type, t.listing.code.length)) =
        some (some .float, 7) := by
    decide +kernel
  obtain ⟨t, hcompile, hfacts⟩ := exists_of_map_compile hrun
  obtain ⟨hk, hlength⟩ := Prod.mk.inj hfacts
  obtain rfl : t.program = p := by
    have hparse' := (compile_eq_ok hcompile).2.1
    rw [hparse] at hparse'
    exact (Except.ok.inj hparse').symm
  obtain ⟨hwarnings, m, hload, ⟨loop⟩, hends⟩ :=
    zero_step_loops_end_at_once_or_never hcompile hk [] hmem hstill
  obtain ⟨-, hnever, hfirst⟩ := hends loop m.reset.store
  obtain ⟨hentry, hexit⟩ := loop.exit_le_length
  have hzero : loop.entry = 0 := by omega
  have hsecond : range.passed .float m.reset.store.value? 1 = false := by
    rw [hfirst (Or.inl rfl), hpassed]
  rw [hzero] at hnever
  obtain ⟨hinside, hends⟩ := hnever (hpassed _) hsecond
  exact ⟨t, m, hcompile, hwarnings.trans hzeros, hload,
    fun n c hsteps => Nat.lt_of_lt_of_le (hinside n c hsteps).2 hexit, hends 0 (.refl _)⟩

/-- A loop that starts below its bound: the program is warned about, and comes to its end. -/
theorem warned_loop_terminates : ∃ t m mem,
    (compile .default "for i in range(0, 10, 0): { }").outcome = .ok t ∧
      t.warnings.map (·.message) =
        [Text.ofString "range step is zero; the loop never terminates"] ∧
      Machine.load t.listing none [] = .ok m ∧ m.HaltsWith mem .finished := by
  have hrun : (compile .default "for i in range(0, 10, 0): { }").outcome.toOption.map
      (fun t => (t.warnings.map (·.message), (Machine.load t.listing none []).toOption.map
        fun m => (m.runFor .background 5 0 m.reset).2)) =
        some ([Text.ofString "range step is zero; the loop never terminates"],
          some (some .finished)) := by
    decide +kernel
  obtain ⟨t, hcompile, hfacts⟩ := exists_of_map_compile hrun
  obtain ⟨hwarnings, hhalt⟩ := Prod.mk.inj hfacts
  obtain ⟨m, hload, hhalt⟩ := Option.map_eq_some_iff.1 hhalt
  have hload : Machine.load t.listing none [] = .ok m := by
    cases hl : Machine.load t.listing none [] with
    | error e =>
      rw [hl] at hload
      cases hload
    | ok m' =>
      rw [hl] at hload
      cases hload
      rfl
  exact ⟨t, m, (m.runFor .background 5 0 m.reset).1, hcompile, hwarnings, hload, 5, by rw [← hhalt]⟩

end ThreeAddress
