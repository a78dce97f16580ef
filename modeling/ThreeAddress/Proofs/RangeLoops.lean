import ThreeAddress.Proofs.BodyCode
import ThreeAddress.Proofs.IntegerArithmetic
import ThreeAddress.Proofs.LiteralSteps
import ThreeAddress.Proofs.Walks

/-! Loops over ranges of integers. The machine executes the body once for every number of the range,
in order, whatever the body does to the variables that the bounds mention. -/
namespace ThreeAddress

open Instr

/-- The number of elements of a range: the distance of its bounds over the step, rounded up, or none
if that is negative. -/
def rangeLength (start stop step : Int) : Nat := (-((start - stop).fdiv step)).toNat

theorem lt_rangeLength_iff_of_pos (start stop : Int) {step : Int} (h : 0 < step) (n : Nat) :
    n < rangeLength start stop step ↔ start + n * step < stop := by
  have hdiv : -(n : Int) ≤ (start - stop).fdiv step ↔ -(n : Int) * step ≤ start - stop := by
    rw [Int.fdiv_eq_ediv_of_nonneg _ (Int.le_of_lt h), Int.le_ediv_iff_mul_le h]
  have hneg : -(n : Int) * step = -(n * step) := Int.neg_mul _ _
  unfold rangeLength
  omega

theorem lt_rangeLength_iff_of_neg (start stop : Int) {step : Int} (h : step < 0) (n : Nat) :
    n < rangeLength start stop step ↔ stop < start + n * step := by
  have hturned : rangeLength start stop step = rangeLength stop start (-step) := by
    unfold rangeLength
    rw [← Int.neg_fdiv_neg, Int.neg_sub]
  have hmul : (n : Int) * -step = -(n * step) := Int.mul_neg _ _
  rw [hturned, lt_rangeLength_iff_of_pos _ _ (by omega)]
  omega

example : rangeLength 0 7 3 = 3 ∧ rangeLength 0 6 3 = 2 ∧ rangeLength 8 1 (-3) = 3 ∧
    rangeLength 5 1 1 = 0 := by
  decide

namespace Value

/-- The test at the head of a loop holds when all elements of the range are passed. -/
theorem compare_exit {step : Int} (hstep : step ≠ 0) {start stop a : Int64} {n : Nat}
    (ha : a.toInt = start.toInt + n * step) :
    (compare (.int a) (.int stop)).satisfies
        (if decide (step < 0) then .lessEqual else .greaterEqual) =
      decide (rangeLength start.toInt stop.toInt step ≤ n) := by
  by_cases hdown : step < 0
  · have hlt := lt_rangeLength_iff_of_neg start.toInt stop.toInt hdown n
    simp only [hdown, decide_true, if_true, satisfies_compare_int, BinaryOp.relates,
      decide_eq_decide]
    omega
  · have hlt := lt_rangeLength_iff_of_pos start.toInt stop.toInt
      (show 0 < step by omega) n
    simp only [hdown, decide_false, Bool.false_eq_true, if_false, satisfies_compare_int,
      BinaryOp.relates, decide_eq_decide]
    omega

end Value

/-- A number in the range of the integers of a machine. -/
def FitsInt64 (n : Int) : Prop := Int64.minValue.toInt ≤ n ∧ n ≤ Int64.maxValue.toInt

instance (n : Int) : Decidable (FitsInt64 n) := inferInstanceAs (Decidable (_ ∧ _))

theorem FitsInt64.toInt_ofInt {n : Int} (h : FitsInt64 n) : (Int64.ofInt n).toInt = n := by
  obtain ⟨hmin, hmax⟩ := h
  rw [Int64.toInt_minValue] at hmin
  rw [Int64.toInt_maxValue] at hmax
  exact Int64.toInt_ofInt_of_le hmin (by omega)

theorem ofInt_add_step (start : Int64) (n : Nat) (step : Int) :
    Int64.ofInt (start.toInt + n * step) + Int64.ofInt step =
      Int64.ofInt (start.toInt + (n + 1 : Nat) * step) := by
  rw [← Int64.ofInt_add]
  congr 1
  push_cast
  rw [Int.add_mul]
  omega

theorem Expr.held_of_eval_int {e : Expr} {σ : Env} {n : Int64}
    (h : e.eval .int σ = some (.int n)) : e.held .int σ = some (some (.int n)) := by
  cases e with
  | number => simpa [Expr.held, Expr.eval] using h
  | name x =>
    have h : σ x.text = some (.int n) := h
    simp [Expr.held, h, Value.convert]
  | _ => simp [Expr.held, h]

/-- A loop that counts in steps of a literal. Its body neither assigns the counter nor breaks. -/
structure CountsBy (var : Name) (range : Range) (body : Option (Block Stmt)) (step : Int) :
    Prop where
  literal : range.step.signedLiteral? = some step
  ne_zero : step ≠ 0
  le_max : (step.natAbs : Int) ≤ Int64.maxValue.toInt
  keeps : ∀ st ∈ Stmt.allOf (Stmt.ofBody body), st.declares? ≠ some var.text
  stays : Stmt.breaksInList (Stmt.ofBody body) = false

/-- A loop over a range in a program over the names `vars`, and the parts of its code, which stands
in a listing. -/
structure RangeLoop (scheme : Scheme) (vars : List Text) (full : List Instr) (span : Span)
    (var : Name) (range : Range) (body : Option (Block Stmt)) where
  isName : IsName var.text
  range_wellFormed : range.WellFormed
  body_wellFormed : (Task.list (Stmt.ofBody body)).WellFormed
  range_names : ∀ n ∈ var :: range.start.names ++ range.stop.names ++ range.step.names,
    n.text ∈ vars
  body_names : ∀ n ∈ (Task.list (Stmt.ofBody body)).names, n.text ∈ vars
  /-- The number of the first instruction. -/
  entry : Nat
  names₀ : Names
  names₁ : Names
  names₂ : Names
  names₃ : Names
  names₄ : Names
  code₁ : List Instr
  code₂ : List Instr
  code₃ : List Instr
  inner : List Instr
  /-- The operands of the bounds and of the step. -/
  start : Text
  stop : Text
  step : Text
  start_code : ExprCode scheme (scheme.reserved vars) range.start names₀ code₁ start names₁
  stop_code : BoundCode scheme (scheme.reserved vars) range.stop names₁ code₂ stop names₂
  step_code : BoundCode scheme (scheme.reserved vars) range.step names₂ code₃ step names₃
  body_code : Lowered scheme (scheme.reserved vars)
    (some ⟨scheme.label (names₃.labels + 3), scheme.label (names₃.labels + 2)⟩)
    (.list (Stmt.ofBody body)) (names₃.withName var).withLabel.withLabel.withLabel inner names₄
  located : Located full entry
    (code₁ ++ code₂ ++ code₃ ++ [⟨.store (if names₃.symbols.contains var.text then none
        else some scheme.type) var.text "=" start, span.start⟩] ++
      ([⟨.label (scheme.label (names₃.labels + 1)), span.start⟩,
        ⟨.jumpIf var.text (Lower.exitTest range.step) stop (scheme.label (names₃.labels + 3)),
          span.start⟩] ++ inner ++
      [⟨.label (scheme.label (names₃.labels + 2)), span.start⟩,
        ⟨.store none var.text "+=" step, span.start⟩,
        ⟨.jump (scheme.label (names₃.labels + 1)), span.start⟩,
        ⟨.label (scheme.label (names₃.labels + 3)), span.start⟩]))

theorem Lowered.Placed.rangeLoop {scheme : Scheme} {vars : List Text} {full : List Instr}
    {span : Span} {var : Name} {range : Range} {body : Option (Block Stmt)}
    (h : Lowered.Placed scheme (scheme.reserved vars) vars full (.forLoop span var range body)) :
    Nonempty (RangeLoop scheme vars full span var range body) := by
  obtain ⟨⟨hname, hwr, -, hwb⟩, hv, loop, names, code, names', ip, hat, h⟩ := h
  rw [Task.names_forLoop, List.forall_mem_append] at hv
  cases h with
  | @forLoop _ _ _ _ _ _ n₁ n₂ n₃ _ _ code₁ code₂ code₃ inner start stop step _ h₁ h₂ h₃ hn ht
      hb =>
    subst hn ht
    exact ⟨⟨hname, hwr, (Stmt.wellFormedBody_iff body).1 hwb, hv.1, hv.2, ip, names, n₁, n₂, n₃,
      names', code₁, code₂, code₃, inner, start, stop, step, h₁, h₂, h₃, hb,
      by simpa [Names.withName] using hat⟩⟩

namespace RangeLoop

variable {m : Machine} {full : List Instr} {place : Text → Nat} {scheme : Scheme}
  {vars : List Text} {span : Span} {var : Name} {range : Range} {body : Option (Block Stmt)}
  (loop : RangeLoop scheme vars full span var range body)

/-- The code in front of the loop, which computes the bounds. -/
def before : List Instr :=
  loop.code₁ ++ loop.code₂ ++ loop.code₃ ++ [⟨.store (if loop.names₃.symbols.contains var.text
    then none else some scheme.type) var.text "=" loop.start, span.start⟩]

/-- The number of the label in front of the test. -/
def head : Nat := loop.entry + loop.before.length

/-- The body stands from number `first` to before `last`. -/
def first : Nat := loop.head + 2

def last : Nat := loop.first + loop.inner.length

/-- The first number behind the loop. -/
def exit : Nat := loop.last + 4

include loop in
theorem var_mem : var.text ∈ vars := loop.range_names var (by simp)

theorem places : loop.entry ≤ loop.head ∧ loop.first = loop.head + 2 ∧ loop.first ≤ loop.last ∧
    loop.exit = loop.last + 4 :=
  ⟨Nat.le_add_right _ _, rfl, Nat.le_add_right _ _, rfl⟩

theorem located_test : Located full loop.head
    [⟨.label (scheme.label (loop.names₃.labels + 1)), span.start⟩,
      ⟨.jumpIf var.text (Lower.exitTest range.step) loop.stop
        (scheme.label (loop.names₃.labels + 3)), span.start⟩] :=
  loop.located.right.left.left

theorem located_body : Located full loop.first loop.inner :=
  loop.located.right.left.right

theorem located_end : Located full loop.last
    [⟨.label (scheme.label (loop.names₃.labels + 2)), span.start⟩,
      ⟨.store none var.text "+=" loop.step, span.start⟩,
      ⟨.jump (scheme.label (loop.names₃.labels + 1)), span.start⟩,
      ⟨.label (scheme.label (loop.names₃.labels + 3)), span.start⟩] :=
  loop.located.right.right.cast (by simp [last, first, head, before]; omega)

/-- The machine walks within the loop, and comes into the body with the given stores. -/
abbrev Visits (m : Machine) : Machine.Config → List Store → Machine.Config → Prop :=
  m.Visits loop.entry loop.exit loop.first loop.last

section

variable {s : Store} {u d v w : Value}

/-- The test goes on to the body, or behind the loop. -/
theorem tests (hx : m.Executes full place) (hstop : Reads vars s loop.stop (some w))
    (hvar : s.value? var.text = some u) : m.Steps 1 ⟨loop.head + 1, s⟩
      ⟨if (Value.compare u w).satisfies
          (if range.step.countsDown then .lessEqual else .greaterEqual)
        then loop.last + 3 else loop.first, s⟩ := by
  have hleave := loop.located_end.tail.tail.tail.place_eq hx
  have hcalc : Calculates vars s
      (.ofRhs (.binary var.text (Lower.exitTest range.step) loop.stop)) _ :=
    exitTest_calculates loop.isName loop.var_mem (fun _ _ => rfl) hstop
  simp only [hvar, Option.bind_some] at hcalc
  obtain ⟨v, hv, hjump⟩ | ⟨hnone, -⟩ := hx.jumpIf_cases loop.located_test.tail.head hcalc
  · cases hv
    rw [Value.isTrue_ofBool, hleave] at hjump
    exact hjump
  · cases hnone

/-- The machine leaves the loop when the test holds. -/
theorem passes (hx : m.Executes full place) (hstop : Reads vars s loop.stop (some w))
    (hvar : s.value? var.text = some u)
    (htest : (Value.compare u w).satisfies
      (if range.step.countsDown then .lessEqual else .greaterEqual) = true) :
    loop.Visits m ⟨loop.head, s⟩ [] ⟨loop.exit, s⟩ := by
  obtain ⟨hentry, hfirst, hlast, hexit⟩ := loop.places
  have hlabel := hx.steps_label loop.located_test.head s
  have hjump := loop.tests hx hstop hvar
  rw [if_pos htest] at hjump
  have hleave := hx.steps_label loop.located_end.tail.tail.tail.head s
  exact ((Machine.Visits.of_step hlabel (by omega) (by omega) (by omega)).trans
    (.of_step hjump (by omega) (by omega) (by omega))).trans
    (.of_step hleave (by omega) (by omega) (by omega))

/-- Control leaves a body that does not break at its end. -/
theorem leaves_body (hx : m.Executes full place)
    (htargets : ∀ t ∈ targetsOf loop.inner,
      t ∈ labelsOf loop.inner ∨ t = scheme.label (loop.names₃.labels + 2)) :
    ∀ t ∈ targetsOf loop.inner,
      t ∈ labelsOf loop.inner ∨ place t = loop.first + loop.inner.length := by
  have hnext := loop.located_end.place_eq hx
  intro t ht
  rcases htargets t ht with hlabel | rfl
  · exact Or.inl hlabel
  · exact Or.inr hnext

/-- Behind the body the step is added to the counter. -/
theorem adds (hx : m.Executes full place) (hstep : Reads vars s loop.step (some d))
    (hvar : s.value? var.text = some u) (hadd : Value.binary .add u d = .ok v) :
    m.Steps 1 ⟨loop.last + 1, s⟩ ⟨loop.last + 2, s.set var.text (v.convert m.kind)⟩ := by
  have hcalc : Calculates vars s (.ofStore var.text "+=" loop.step) (some v) := by
    have hread : Reads vars s var.text (s.value? var.text) := reads_name loop.isName loop.var_mem
    rw [hvar] at hread
    have hcalc := @calculates_update vars s _ _ _ _ .add hstep hread
    simp only [Option.bind_some, hadd] at hcalc
    exact hcalc
  obtain ⟨v', hv, hsteps⟩ | ⟨hnone, -⟩ := hx.assign_cases loop.located_end.tail.head rfl hcalc
  · cases hv
    exact hsteps
  · cases hnone

/-- The code in front of the loop is walked through from its start. It fails on the way if a bound
has no value; otherwise the counter gets its first value, and the operands of the bounds keep theirs
as long as their temporaries do. -/
theorem approaches (hset : Setup m full place scheme vars) (s : Store) :
    ((range.start.eval m.kind s.value? = none ∨ range.stop.held m.kind s.value? = none ∨
        range.step.held m.kind s.value? = none) ∧
      ∃ trail c pos f, m.Walks loop.entry loop.head ⟨loop.entry, s⟩ trail c ∧ m.Faults c pos f ∧
        loop.entry ≤ c.ip ∧ c.ip < loop.head) ∨
    ∃ v stop step trail base, range.start.eval m.kind s.value? = some v ∧
      range.stop.held m.kind s.value? = some stop ∧ range.step.held m.kind s.value? = some step ∧
      m.Walks loop.entry loop.head ⟨loop.entry, s⟩ trail ⟨loop.head, base⟩ ∧
      base.value? var.text = some (v.convert m.kind) ∧
      ∀ s', Keeps scheme vars loop.names₃.lastTemp base s' →
        Reads vars s' loop.stop stop ∧ Reads vars s' loop.step step := by
  have hat : Located full loop.entry loop.before := loop.located.left
  have hstraight : targetsOf loop.before = [] := by
    simp [before, loop.start_code.straight.2, loop.stop_code.straight.2,
      loop.step_code.straight.2, Action.target?]
  have hhead : loop.entry + (loop.code₁ ++ loop.code₂ ++ loop.code₃).length + 1 = loop.head := by
    simp [head, before]
    omega
  -- the machine may as well end behind the bounds: then it comes there once only
  have hcut : Setup (m.upTo loop.head) (full.take loop.head) place scheme vars :=
    ⟨hset.executes.upTo _, hset.stem_ne_nil, hset.stem_not_literal⟩
  have ha : Agrees vars s.value? s := fun _ _ => rfl
  have hcases := enter_cases hcut loop.start_code loop.stop_code loop.step_code
    loop.range_wellFormed (fun n hn => loop.range_names n (List.mem_cons_of_mem _ hn)) loop.var_mem
    (hat.take (Nat.le_refl _)) ha
  rw [hhead] at hcases
  obtain ⟨hnone, n, c, pos, f, hsteps, ⟨step, store, hcode, hexec⟩, -⟩ | ⟨v, stop, step, n, base,
    hv, hstop, hstep, hsteps, ha', -, hreads⟩ := hcases
  · obtain ⟨trail, hwalk⟩ := hsteps.walks_straight hset.executes hat hstraight (Nat.le_refl _)
    rw [Machine.getElem?_upTo] at hcode
    split at hcode
    · rename_i hlt
      have hle : loop.entry ≤ c.ip := by
        refine hwalk.keeps (P := fun d => loop.entry ≤ d.ip) ?_ (Nat.le_refl _)
        intro d d' hlo hhi hmove _
        exact (hmove.within hset.executes hat (by simp [hstraight]) hlo hhi).1
      exact Or.inl ⟨hnone, trail, c, pos, f, hwalk, ⟨step, store, hcode, hexec⟩, hle, hlt⟩
    · cases hcode
  · obtain ⟨trail, hwalk⟩ := hsteps.walks_straight hset.executes hat hstraight (Nat.le_refl _)
    refine Or.inr ⟨v, stop, step, trail, base, hv, hstop, hstep, hwalk, ?_, hreads⟩
    rw [ha' _ loop.var_mem]
    simp [Env.set, Machine.upTo]

/-- If the bounds have values, the machine comes to the test with the first value of the counter. -/
theorem arrives (hset : Setup m full place scheme vars) {stop step : Option Value}
    (hstart : range.start.eval m.kind s.value? = some v)
    (hstop : range.stop.held m.kind s.value? = some stop)
    (hstep : range.step.held m.kind s.value? = some step) :
    ∃ base, loop.Visits m ⟨loop.entry, s⟩ [] ⟨loop.head, base⟩ ∧
      base.value? var.text = some (v.convert m.kind) ∧
      ∀ s', Keeps scheme vars loop.names₃.lastTemp base s' →
        Reads vars s' loop.stop stop ∧ Reads vars s' loop.step step := by
  obtain ⟨hentry, hfirst, hlast, hexit⟩ := loop.places
  obtain ⟨hnone, -⟩ | ⟨v', stop', step', trail, base, hv, hstop', hstep', hwalk, hvar, hreads⟩ :=
    loop.approaches hset s
  · simp [hstart, hstop, hstep] at hnone
  · rw [hstart] at hv
    rw [hstop] at hstop'
    rw [hstep] at hstep'
    cases hv
    cases hstop'
    cases hstep'
    have hout : Machine.entries loop.first loop.last trail = [] :=
      hwalk.entries_before (show loop.head ≤ loop.first by omega)
        (show loop.head < loop.first by omega)
    exact ⟨base, ⟨trail, hwalk.mono (Nat.le_refl _) (show loop.head ≤ loop.exit by omega), hout⟩,
      hvar, hreads⟩

end

/-- A machine is in the loop, which it has entered with the store `base`. Whatever happens to the
variables, the bounds have their values as long as their temporaries are as in `base`; the body
leaves these and the counter alone, and ends where it ends. -/
structure Entered (m : Machine) (place : Text → Nat) (base : Store) (stop : Int64) (step : Int) :
    Prop where
  executes : m.Executes full place
  kind_eq : m.kind = .int
  step_ne_zero : step ≠ 0
  countsDown : range.step.countsDown = decide (step < 0)
  reads_stop : ∀ s, Keeps scheme vars loop.names₃.lastTemp base s →
    Reads vars s loop.stop (some (.int stop))
  reads_step : ∀ s, Keeps scheme vars loop.names₃.lastTemp base s →
    Reads vars s loop.step (some (.int (Int64.ofInt step)))
  keeps_var : ∀ i ∈ loop.inner, i.action.writes? ≠ some var.text
  keeps_temps : ∀ n ≤ loop.names₃.lastTemp, scheme.temp n ∉ vars →
    ∀ i ∈ loop.inner, i.action.writes? ≠ some (scheme.temp n)
  targets : ∀ t ∈ targetsOf loop.inner,
    t ∈ labelsOf loop.inner ∨ t = scheme.label (loop.names₃.labels + 2)

/-- In a round of the loop the temporaries are as in `base`, and the counter has the value `a`. -/
def Round (base : Store) (a : Int64) (s : Store) : Prop :=
  Keeps scheme vars loop.names₃.lastTemp base s ∧ s.value? var.text = some (.int a)

variable {loop} {base s : Store} {start stop a : Int64} {step : Int}

namespace Entered

variable (h : loop.Entered m place base stop step) (hs : loop.Round base a s)

include h hs in
/-- The test goes on to the body, or behind the loop. -/
theorem steps_test : m.Steps 1 ⟨loop.head + 1, s⟩
    ⟨if (Value.compare (.int a) (.int stop)).satisfies
      (if decide (step < 0) then .lessEqual else .greaterEqual)
      then loop.last + 3 else loop.first, s⟩ := by
  have htest := loop.tests h.executes (h.reads_stop s hs.1) hs.2
  rwa [h.countsDown] at htest

include h hs in
/-- When all elements of the range are passed, the machine leaves the loop. -/
theorem leaves {n : Nat} (ha : a.toInt = start.toInt + n * step)
    (hn : rangeLength start.toInt stop.toInt step ≤ n) :
    loop.Visits m ⟨loop.head, s⟩ [] ⟨loop.exit, s⟩ := by
  refine loop.passes h.executes (h.reads_stop s hs.1) hs.2 ?_
  rw [h.countsDown, Value.compare_exit h.step_ne_zero ha]
  exact decide_eq_true hn

include h hs in
/-- As long as there are elements left, the machine comes into the body. -/
theorem comes_in {n : Nat} (ha : a.toInt = start.toInt + n * step)
    (hn : n < rangeLength start.toInt stop.toInt step) :
    loop.Visits m ⟨loop.head, s⟩ [s] ⟨loop.first, s⟩ := by
  obtain ⟨hentry, hfirst, hlast, hexit⟩ := loop.places
  have hlabel := h.executes.steps_label loop.located_test.head s
  have htest := h.steps_test hs
  rw [Value.compare_exit h.step_ne_zero ha, if_neg (by simpa using hn)] at htest
  exact (Machine.Visits.of_step hlabel (by omega) (by omega) (by omega)).trans
    (.of_step_in htest (by omega) (by omega) (by omega))

include h hs in
/-- The body is walked through, if it comes to its end. It keeps the counter and the bounds. -/
theorem walks_body {k : Nat} {c : Machine.Config} (hsteps : m.Steps k ⟨loop.first, s⟩ c)
    (hend : c.ip = loop.last) :
    ∃ s', loop.Visits m ⟨loop.first, s⟩ [] ⟨loop.last, s'⟩ ∧ loop.Round base a s' := by
  obtain ⟨hentry, hfirst, hlast, hexit⟩ := loop.places
  have htargets := loop.leaves_body h.executes h.targets
  obtain ⟨trail, s', hwalk⟩ := hsteps.walks h.executes loop.located_body htargets
    (Nat.le_refl _) (Nat.le_add_right _ _) hend
  refine ⟨s', ⟨trail, hwalk.mono (by omega) (show loop.last ≤ loop.exit by omega),
    hwalk.entries_inside⟩, fun n hn hnot => ?_, ?_⟩
  · exact (hwalk.get?_eq h.executes loop.located_body (h.keeps_temps n hn hnot)).trans
      (hs.1 n hn hnot)
  · rw [Store.value?, hwalk.get?_eq h.executes loop.located_body h.keeps_var]
    exact hs.2

include h hs in
/-- Behind the body the counter advances by the step. -/
theorem advances : ∃ s', loop.Visits m ⟨loop.last, s⟩ [] ⟨loop.head, s'⟩ ∧
    loop.Round base (a + Int64.ofInt step) s' := by
  obtain ⟨hentry, hfirst, hlast, hexit⟩ := loop.places
  have hagain := loop.located_test.place_eq h.executes
  have hlabel := h.executes.steps_label loop.located_end.head s
  have hadd := loop.adds h.executes (h.reads_step s hs.1) hs.2 rfl
  rw [h.kind_eq] at hadd
  have hjump := h.executes.steps_jump loop.located_end.tail.tail.head
    (s.set var.text (.int (a + Int64.ofInt step)))
  rw [hagain] at hjump
  refine ⟨_, ((Machine.Visits.of_step hlabel (by omega) (by omega) (by omega)).trans
    (.of_step hadd (by omega) (by omega) (by omega))).trans
    (.of_step hjump (by omega) (by omega) (by omega)), hs.1.trans (.set_var loop.var_mem), ?_⟩
  rw [Store.value?_set, if_pos rfl]

include h hs in
/-- One round: the machine comes into the body once, and back to the test with the next element. -/
theorem round {n k : Nat} {c : Machine.Config} (ha : a.toInt = start.toInt + n * step)
    (hn : n < rangeLength start.toInt stop.toInt step)
    (hsteps : m.Steps k ⟨loop.first, s⟩ c) (hend : c.ip = loop.last) :
    ∃ s', loop.Visits m ⟨loop.head, s⟩ [s] ⟨loop.head, s'⟩ ∧
      loop.Round base (a + Int64.ofInt step) s' := by
  obtain ⟨s₁, hbody, hs₁⟩ := h.walks_body hs hsteps hend
  obtain ⟨s₂, hnext, hs₂⟩ := h.advances hs₁
  exact ⟨s₂, ((h.comes_in hs ha hn).trans hbody).trans hnext, hs₂⟩

include h in
/-- The rest of the loop, from the test with element `n` on. -/
theorem rounds {c : Machine.Config}
    (hfits : ∀ n ≤ rangeLength start.toInt stop.toInt step, FitsInt64 (start.toInt + n * step))
    (hbody : ∀ trail s, m.Walks loop.entry loop.exit c trail ⟨loop.first, s⟩ →
      ∃ k s', m.Steps k ⟨loop.first, s⟩ ⟨loop.last, s'⟩)
    (k n : Nat) (hn : n + k = rangeLength start.toInt stop.toInt step) {stores : List Store}
    (hpre : loop.Visits m c stores ⟨loop.head, s⟩)
    (hs : loop.Round base (Int64.ofInt (start.toInt + n * step)) s) :
    ∃ stores' s', loop.Visits m ⟨loop.head, s⟩ stores' ⟨loop.exit, s'⟩ ∧
      stores'.map (·.value? var.text) = (List.range' n k).map
        (fun i => some (.int (Int64.ofInt (start.toInt + i * step)))) ∧
      s'.value? var.text = some (.int (Int64.ofInt
        (start.toInt + rangeLength start.toInt stop.toInt step * step))) := by
  have ha := (hfits n (by omega)).toInt_ofInt
  induction k generalizing n s stores with
  | zero =>
    obtain rfl : n = rangeLength start.toInt stop.toInt step := by omega
    exact ⟨[], s, h.leaves hs ha (Nat.le_refl _), rfl, hs.2⟩
  | succ k ih =>
    have hlt : n < rangeLength start.toInt stop.toInt step := by omega
    obtain ⟨trail, hwalk, -⟩ := hpre.trans (h.comes_in hs ha hlt)
    obtain ⟨k', s', hsteps⟩ := hbody trail s hwalk
    obtain ⟨s₁, hround, hs₁⟩ := h.round hs ha hlt hsteps rfl
    rw [ofInt_add_step] at hs₁
    obtain ⟨stores', s₂, hrest, hvalues, hlast⟩ := ih (n + 1) (by omega) (hpre.trans hround) hs₁
      (hfits (n + 1) (by omega)).toInt_ofInt
    refine ⟨s :: stores', s₂, hround.trans hrest, ?_, hlast⟩
    rw [List.range'_succ, List.map_cons, List.map_cons, hvalues, hs.2]

end Entered

/-- The bounds are computed, and the counter gets its first value. -/
theorem enters (loop : RangeLoop scheme vars full span var range body)
    (hset : Setup m full place scheme vars) (hkind : m.kind = .int)
    (hstart : range.start.eval .int s.value? = some (.int start))
    (hstop : range.stop.eval .int s.value? = some (.int stop)) {d : Int64}
    (hstep : range.step.eval .int s.value? = some (.int d)) :
    ∃ base, loop.Visits m ⟨loop.entry, s⟩ [] ⟨loop.head, base⟩ ∧ loop.Round base start base ∧
      ∀ s', Keeps scheme vars loop.names₃.lastTemp base s' →
        Reads vars s' loop.stop (some (.int stop)) ∧ Reads vars s' loop.step (some (.int d)) := by
  rw [← hkind] at hstart
  have hstop : range.stop.held m.kind s.value? = some (some (.int stop)) := by
    rw [hkind, Expr.held_of_eval_int hstop]
  have hstep : range.step.held m.kind s.value? = some (some (.int d)) := by
    rw [hkind, Expr.held_of_eval_int hstep]
  obtain ⟨base, hvisits, hvar, hreads⟩ := loop.arrives hset hstart hstop hstep
  rw [hkind] at hvar
  exact ⟨base, hvisits, ⟨Keeps.refl scheme vars _ base, hvar⟩, hreads⟩

/-- A machine that has computed the bounds is in the loop. -/
theorem entered (loop : RangeLoop scheme vars full span var range body)
    (hx : m.Executes full place) (hkind : m.kind = .int) (hcounts : CountsBy var range body step)
    (hreads : ∀ s', Keeps scheme vars loop.names₃.lastTemp base s' →
      Reads vars s' loop.stop (some (.int stop)) ∧
        Reads vars s' loop.step (some (.int (Int64.ofInt step)))) :
    loop.Entered m place base stop step where
  executes := hx
  kind_eq := hkind
  step_ne_zero := hcounts.ne_zero
  countsDown := Expr.countsDown_of_signedLiteral loop.range_wellFormed.2.2 hcounts.literal
    hcounts.ne_zero
  reads_stop := fun s' hk => (hreads s' hk).1
  reads_step := fun s' hk => (hreads s' hk).2
  keeps_var := loop.body_code.writes_ne_var loop.body_wellFormed loop.body_names loop.var_mem
    hcounts.keeps
  keeps_temps := fun _ hn hnot => loop.body_code.writes_ne_temp loop.body_names hn hnot
  targets := loop.body_code.targets_of_not_breaks hcounts.stays

/-- The machine comes to the end of the body if the interpreter does, in the plain way or by
`continue`. -/
theorem completes (loop : RangeLoop scheme vars full span var range body)
    (hset : Setup m full place scheme vars) {fuel : Nat} {signal : Signal} {σ : Env}
    (hdone : Stmt.execList m.kind fuel (Stmt.ofBody body) s.value? = .done signal σ)
    (hsignal : signal ≠ .breaks) : ∃ k s', m.Steps k ⟨loop.first, s⟩ ⟨loop.last, s'⟩ := by
  have ha : Agrees vars s.value? s := fun _ _ => rfl
  have hmeets := loop.body_code.simulates hset loop.body_wellFormed loop.body_names loop.first
    s.value? s fuel loop.located_body ha
  rw [hdone] at hmeets
  obtain ⟨ip, k, s', hexit, hsteps, -⟩ := hmeets
  have hnext := loop.located_end.place_eq hset.executes
  have hip : ip = loop.last := by
    cases signal with
    | next => simpa [exitsOf, last, eq_comm] using hexit
    | continues => simpa [exitsOf, hnext, eq_comm] using hexit
    | breaks => exact absurd rfl hsignal
  exact ⟨k, s', hip ▸ hsteps⟩

end RangeLoop

/-- The machine of a compiled program executes its code, in which every statement has a place. -/
theorem compile_setup {settings : Settings} {source : Text} {t : Compilation} {k : NumKind}
    (hcompile : (compile settings source).outcome = .ok t)
    (hk : NumKind.ofType? t.listing.type = some k) (limit : Option Nat)
    (inputs : List (Text × Float)) :
    ∃ m place, Machine.load t.listing limit inputs = .ok m ∧ m.kind = k ∧
      Setup m t.listing.code place settings.scheme.filled (t.program.names.map (·.text)) ∧
      ∀ st ∈ t.program.allStmts, Lowered.Placed settings.scheme.filled
        (settings.scheme.filled.reserved (t.program.names.map (·.text)))
        (t.program.names.map (·.text)) t.listing.code st := by
  obtain ⟨hstem, hparse, hlower⟩ := compile_eq_ok hcompile
  obtain ⟨hne, hliteral⟩ := Operand.isLiteral_of_isIdentifier hstem
  obtain ⟨names, hcode⟩ := Program.lowered_of_lower hlower
  rw [Scheme.filled_filled] at hcode
  obtain ⟨m, place, hload, hkind, -, -, hexec⟩ := hcode.load hk limit inputs
  have hat : Located t.listing.code 0 t.listing.code := List.prefix_rfl
  refine ⟨m, place, hload, hkind, ⟨hexec, hne, hliteral⟩, fun st hst => ?_⟩
  exact hcode.placed_of_mem (Program.wellFormed_of_parse hparse)
    (fun n hn => List.mem_map_of_mem hn) hst hat

/-- A loop over a range of integers visits its elements: the machine comes into the body with the
counter at each of them, in order, and leaves the loop with the counter behind the last. The body
may be any that leaves the counter alone, does not break and comes to its end. -/
theorem range_loop_visits_its_range {settings : Settings} {source : Text} {t : Compilation}
    {span : Span} {var : Name} {range : Range} {body : Option (Block Stmt)} {step : Int}
    (hcompile : (compile settings source).outcome = .ok t)
    (hk : NumKind.ofType? t.listing.type = some .int) (limit : Option Nat)
    (inputs : List (Text × Float)) (hloop : .forLoop span var range body ∈ t.program.allStmts)
    (hcounts : CountsBy var range body step) :
    ∃ m, Machine.load t.listing limit inputs = .ok m ∧
      Nonempty (RangeLoop settings.scheme.filled (t.program.names.map (·.text)) t.listing.code span
        var range body) ∧
      ∀ loop : RangeLoop settings.scheme.filled (t.program.names.map (·.text)) t.listing.code span
          var range body,
        ∀ (s : Store) (start stop : Int64),
          range.start.eval .int s.value? = some (.int start) →
          range.stop.eval .int s.value? = some (.int stop) →
          (∀ n ≤ rangeLength start.toInt stop.toInt step,
            FitsInt64 (start.toInt + n * step)) →
          (∀ trail s', m.Walks loop.entry loop.exit ⟨loop.entry, s⟩ trail ⟨loop.first, s'⟩ →
            ∃ k s'', m.Steps k ⟨loop.first, s'⟩ ⟨loop.last, s''⟩) →
          ∃ trail s', m.Walks loop.entry loop.exit ⟨loop.entry, s⟩ trail ⟨loop.exit, s'⟩ ∧
            (Machine.entries loop.first loop.last trail).map
                (fun c => (c.ip, c.store.value? var.text)) =
              (List.range (rangeLength start.toInt stop.toInt step)).map
                (fun n => (loop.first, some (.int (Int64.ofInt (start.toInt + n * step))))) ∧
            s'.value? var.text = some (.int (Int64.ofInt
              (start.toInt + rangeLength start.toInt stop.toInt step * step))) ∧
            ∀ fuel steps, (∀ most ∈ m.limit, steps + trail.length ≤ most) →
              m.runFor .background (trail.length + fuel) loop.entry ⟨s, steps⟩ =
                m.runFor .background fuel loop.exit ⟨s', steps + trail.length⟩ := by
  obtain ⟨m, place, hload, hkind, hset, hplaced⟩ := compile_setup hcompile hk limit inputs
  refine ⟨m, hload, (hplaced _ hloop).rangeLoop, ?_⟩
  intro loop s start stop hstart hstop hfits hbody
  have hstep := Expr.eval_of_signedLiteral loop.range_wellFormed.2.2 hcounts.literal
    hcounts.ne_zero hcounts.le_max s.value?
  obtain ⟨base, henter, hround, hreads⟩ := loop.enters hset hkind hstart hstop hstep
  have hentered := loop.entered hset.executes hkind hcounts hreads
  have hround : loop.Round base (Int64.ofInt (start.toInt + (0 : Nat) * step)) base := by
    simpa [Int64.ofInt_toInt] using hround
  obtain ⟨stores, s', hrest, hvalues, hlast⟩ :=
    hentered.rounds hfits hbody _ 0 (Nat.zero_add _) henter hround
  obtain ⟨trail, hwalk, hentries⟩ := henter.trans hrest
  refine ⟨trail, s', hwalk, ?_, hlast, hwalk.runFor_eq⟩
  have hpairs := congrArg (List.map (loop.first, ·)) hvalues
  rw [List.map_map, List.map_map] at hpairs
  rw [hentries, List.nil_append, List.map_map, List.range_eq_range']
  exact hpairs

/-- The body changes the bound, and the loop goes on to the old one. -/
theorem bound_is_read_once : ∃ t m entry first last exit trail s',
    (compile ⟨⟨"int", [], []⟩, true, []⟩
      "for v in range(8, n, -3): { n = 9; continue }").outcome = .ok t ∧
      Machine.load t.listing none [] = .ok m ∧
      m.Walks entry exit ⟨entry, Store.set .empty "n" (.int 1)⟩ trail ⟨exit, s'⟩ ∧
      (Machine.entries first last trail).map (fun c => (c.ip, c.store.value? "v")) =
        [(first, some (.int 8)), (first, some (.int 5)), (first, some (.int 2))] ∧
      s'.value? "v" = some (.int (-1)) := by
  have ht : Token.tokenize "for v in range(8, n, -3): { n = 9; continue }" =
      [⟨.keyword .forWord, "for", ⟨1, 1, 0⟩⟩, ⟨.name, "v", ⟨1, 5, 4⟩⟩,
        ⟨.keyword .inWord, "in", ⟨1, 7, 6⟩⟩, ⟨.keyword .rangeWord, "range", ⟨1, 10, 9⟩⟩,
        ⟨.op .lparen, "(", ⟨1, 15, 14⟩⟩, ⟨.number, "8", ⟨1, 16, 15⟩⟩,
        ⟨.op .comma, ",", ⟨1, 17, 16⟩⟩, ⟨.name, "n", ⟨1, 19, 18⟩⟩,
        ⟨.op .comma, ",", ⟨1, 20, 19⟩⟩, ⟨.op .minus, "-", ⟨1, 22, 21⟩⟩,
        ⟨.number, "3", ⟨1, 23, 22⟩⟩, ⟨.op .rparen, ")", ⟨1, 24, 23⟩⟩,
        ⟨.op .colon, ":", ⟨1, 25, 24⟩⟩, ⟨.op .lbrace, Op.lbrace.symbol, ⟨1, 27, 26⟩⟩,
        ⟨.name, "n", ⟨1, 29, 28⟩⟩, ⟨.op .assign, "=", ⟨1, 31, 30⟩⟩,
        ⟨.number, "9", ⟨1, 33, 32⟩⟩, ⟨.op .semicolon, ";", ⟨1, 34, 33⟩⟩,
        ⟨.keyword .continueWord, "continue", ⟨1, 36, 35⟩⟩,
        ⟨.op .rbrace, Op.rbrace.symbol, ⟨1, 45, 44⟩⟩] := by
    decide
  have hp : ∃ p span var range body,
      Program.parse "for v in range(8, n, -3): { n = 9; continue }" = .ok p ∧
      Stmt.forLoop span var range body ∈ p.allStmts ∧ var.text = Text.ofString "v" ∧
      CountsBy var range body (-3) ∧ (∀ σ, range.start.eval .int σ = some (.int 8)) ∧
      (∀ σ, range.stop.eval .int σ = σ "n") ∧
      ∀ σ, ∃ σ', Stmt.execList .int 0 (Stmt.ofBody body) σ = .done .continues σ' := by
    rw [Program.parse, ht]
    refine ⟨_, _, _, _, _, rfl, .head _, rfl, ⟨rfl, by decide, by decide, ?_, rfl⟩, fun σ => ?_,
      fun σ => ?_, fun σ => ?_⟩
    · decide
    · rfl
    · rfl
    · exact ⟨_, rfl⟩
  obtain ⟨p, span, var, range, body, hparse, hmem, hvar, hcounts, hstart, hstop, hbody⟩ := hp
  have hrun : (compile ⟨⟨"int", [], []⟩, true, []⟩
      "for v in range(8, n, -3): { n = 9; continue }").outcome.toOption.map
        (fun t => NumKind.ofType? t.listing.type) = some (some .int) := by
    decide +kernel
  obtain ⟨t, hcompile, hk⟩ := exists_of_map_compile hrun
  obtain rfl : t.program = p := by
    have hparse' := (compile_eq_ok hcompile).2.1
    rw [hparse] at hparse'
    exact (Except.ok.inj hparse').symm
  obtain ⟨m, hload, ⟨loop⟩, hvisits⟩ :=
    range_loop_visits_its_range hcompile hk none [] hmem hcounts
  obtain ⟨m', place, hload', hkind, hset, -⟩ := compile_setup hcompile hk none []
  obtain rfl : m = m' := by simpa [hload] using hload'
  obtain ⟨trail, s', hwalk, hvalues, hlast, -⟩ :=
    hvisits loop (Store.set .empty "n" (.int 1)) 8 1 (hstart _) ((hstop _).trans rfl) (by decide)
      fun _ s _ => by
        obtain ⟨σ, hdone⟩ := hbody s.value?
        exact loop.completes hset (hkind ▸ hdone) (by decide)
  rw [hvar] at hvalues hlast
  exact ⟨t, m, loop.entry, loop.first, loop.last, loop.exit, trail, s', hcompile, hload, hwalk,
    hvalues, hlast⟩

end ThreeAddress
