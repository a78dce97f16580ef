import Mathlib.Data.List.Perm.Subperm
import ThreeAddress.Proofs.DefiniteAssignment
import ThreeAddress.Proofs.GeneratedNames
import ThreeAddress.Proofs.Safety
import ThreeAddress.Proofs.StepBudget

/-! Programs without loops. All their jumps go forward, so that the number of the next instruction
grows from step to step: no instruction is executed twice, and a run takes at most as many steps as
there are instructions. -/
namespace ThreeAddress

open Instr

def Stmt.isLoop : Stmt → Bool
  | .whileLoop .. | .forLoop .. => true
  | _ => false

/-- No statement of the program is a loop, at any depth. -/
def Program.LoopFree (p : Program) : Prop := ∀ s ∈ p.allStmts, s.isLoop = false

namespace Instr

/-- The label that is defined by the instruction with the number `n`. -/
def labelAt? (code : List Instr) (n : Nat) : Option Text := (code[n]?).bind (·.action.label?)

/-- Every jump goes to a label that is defined behind it, or to one of `exits`. -/
def Forward (exits : List Text) : List Instr → Prop
  | [] => True
  | i :: rest =>
    (∀ l, i.action.target? = some l → l ∈ labelsOf rest ∨ l ∈ exits) ∧ Forward exits rest

namespace Forward

variable {exits exits' : List Text} {code codes : List Instr}

theorem mono (h : Forward exits code) (hsub : ∀ l ∈ exits, l ∈ exits') : Forward exits' code := by
  induction code with
  | nil => trivial
  | cons i rest ih => exact ⟨fun l hl => (h.1 l hl).imp_right (hsub l), ih h.2⟩

/-- What the first part jumps to may be defined in the second. -/
theorem append_iff : Forward exits (code ++ codes) ↔
    Forward (labelsOf codes ++ exits) code ∧ Forward exits codes := by
  induction code with
  | nil => simp [Forward]
  | cons i rest ih =>
    simp only [List.cons_append, Forward, ih, labelsOf_append, List.mem_append, or_assoc, and_assoc]

theorem of_straight (h : Straight code) : Forward exits code := by
  induction code with
  | nil => trivial
  | cons i rest ih =>
    obtain ⟨hlabels, htargets⟩ := h
    simp only [labelsOf_cons, targetsOf_cons, List.append_eq_nil_iff] at hlabels htargets
    refine ⟨fun l hl => ?_, ih ⟨hlabels.2, htargets.2⟩⟩
    simp [hl] at htargets

/-- A jump that goes to no exit has its label behind it. -/
theorem exists_labelAt? (h : Forward [] code) {n : Nat} {i : Instr} {l : Text}
    (hi : code[n]? = some i) (hl : i.action.target? = some l) :
    ∃ q, n < q ∧ labelAt? code q = some l := by
  induction code generalizing n with
  | nil => simp at hi
  | cons j rest ih =>
    cases n with
    | zero =>
      obtain rfl : j = i := by simpa using hi
      obtain hmem | hmem := h.1 l hl
      · obtain ⟨b, hb, hlabel⟩ := List.mem_filterMap.1 hmem
        obtain ⟨q, hq⟩ := List.mem_iff_getElem?.1 hb
        exact ⟨q + 1, Nat.succ_pos q, by simp [labelAt?, hq, hlabel]⟩
      · simp at hmem
    | succ n =>
      obtain ⟨q, hlt, hq⟩ := ih h.2 (by simpa using hi)
      exact ⟨q + 1, Nat.succ_lt_succ hlt, by simpa [labelAt?] using hq⟩

end Forward

end Instr

section

variable {scheme : Scheme} {reserved : List Text} {loop : Option Loop} {task : Task}
  {names names' : Names} {code : List Instr}

theorem Lowered.forward (h : Lowered scheme reserved loop task names code names')
    (hloop : loop = none) (hfree : ∀ s ∈ task.all, s.isLoop = false) :
    Forward (task.exits none) code := by
  induction h with
  | nil | chainNil => trivial
  | @cons loop s rest n n₁ n₂ code codes _ _ ih ih' =>
    have hparts := fun s' => (Task.all_cons s rest).mem_iff (a := s')
    have hs := ih hloop fun s' hs' => hfree s' ((hparts s').2 (by simp [hs']))
    have hrest := ih' hloop fun s' hs' => hfree s' ((hparts s').2 (by simp [hs']))
    exact Forward.append_iff.2 ⟨hs.mono (by simp [Task.exits]), hrest⟩
  | assign he hs =>
    exact Forward.append_iff.2 ⟨.of_straight he.straight, .of_straight hs.straight⟩
  | eval he => exact .of_straight he.straight
  | @branch loop span bs otherwise n n₁ n₂ n₃ code clauses last xs _ hc _ _ ih ih' =>
    rw [Task.all_branch span bs otherwise (scheme.label (n₁.labels + 1)) xs] at hfree
    have hclauses := ih hloop fun s hs => hfree s (by simp [hs])
    have hlast := ih' hloop fun s hs => hfree s (by simp [hs])
    simp only [Forward.append_iff]
    refine ⟨⟨⟨.of_straight hc.straight, hclauses.mono ?_⟩, hlast.mono ?_⟩, ?_, trivial⟩
    -- the clauses leave for the label at the end of the chain
    · simp [Task.exits, Action.label?]
    · simp [Task.exits]
    · simp [Action.target?]
  | @chainCons loop stop x xs cond body rest n n₁ n₂ inner clauses _ _ ih ih' =>
    rw [Task.all_chain_cons] at hfree
    have hinner := ih hloop fun s hs => hfree s (by simp [hs])
    have hclauses := ih' hloop fun s hs => hfree s (by simp [hs])
    simp only [Forward.append_iff]
    refine ⟨⟨⟨⟨?_, trivial⟩, hinner.mono ?_⟩, ?_, ?_, trivial⟩, hclauses⟩
    · simp [Action.target?, Action.label?]
    · simp [Task.exits]
    · simp [Action.target?, Task.exits]
    · simp [Action.target?]
  | whileLoop =>
    have := hfree _ (List.mem_cons_self)
    simp [Stmt.isLoop] at this
  | forLoop =>
    have := hfree _ (List.mem_cons_self)
    simp [Stmt.isLoop] at this
  | breakLoop | continueLoop => cases hloop

end

namespace Machine

/-- Every step goes to an instruction with a larger number. -/
def Ascends (m : Machine) : Prop := ∀ c c', m.Moves c c' → c.ip < c'.ip

/-- The numbers of the instructions that a run executes, in order. One that fails is among them. -/
def executed (m : Machine) (ctx : Context) : Nat → Nat → Memory → List Nat
  | 0, _, _ => []
  | fuel + 1, ip, mem =>
    match m.turn ctx ip mem with
    | .stop mem' _ => if mem'.steps = mem.steps then [] else [ip]
    | .go ip' mem' => ip :: executed m ctx fuel ip' mem'

variable {m : Machine} {code : List Instr} {place : Text → Nat} {ctx : Context}
  {fuel ip ip' : Nat} {mem mem' : Memory} {halt : Halt}

theorem Executes.place_eq (hx : m.Executes code place) {n : Nat} {l : Text}
    (h : labelAt? code n = some l) : place l = n := by
  obtain ⟨i, hi, hl⟩ := Option.bind_eq_some_iff.1 h
  exact hx.label n i l hi hl

theorem Executes.size_eq (hx : m.Executes code place) : m.code.size = code.length := by
  have hnone : ∀ n, m.code.size ≤ n ↔ code.length ≤ n := by
    intro n
    rw [← Array.getElem?_eq_none_iff, hx.fetch, Option.map_eq_none_iff, List.getElem?_eq_none_iff]
  exact Nat.le_antisymm ((hnone _).2 (Nat.le_refl _)) ((hnone _).1 (Nat.le_refl _))

theorem Executes.ascends (hx : m.Executes code place) (h : Forward [] code) : m.Ascends := by
  rintro c c' ⟨step, pos, flow, hcode, hexec, hip⟩
  obtain ⟨i, hi, rfl⟩ := hx.fetched hcode
  rcases Step.exec_flow hexec with rfl | ⟨l, htarget, rfl⟩
  · rw [hip]
    exact Nat.lt_succ_self _
  · obtain ⟨q, hlt, hq⟩ := h.exists_labelAt? hi htarget
    rw [hip, follow, hx.place_eq hq]
    exact hlt

theorem moves_of_go (h : m.turn ctx ip mem = .go ip' mem') :
    m.Moves ⟨ip, mem.store⟩ ⟨ip', mem'.store⟩ := by
  have ht := m.turned ctx ip mem
  rw [h] at ht
  cases ht with
  | goes hcode _ _ hexec => exact ⟨_, _, _, hcode, hexec, rfl⟩

theorem lt_size_of_moves {c c' : Config} (h : m.Moves c c') : c.ip < m.code.size := by
  obtain ⟨step, pos, flow, hcode, -⟩ := h
  exact (Array.getElem?_eq_some_iff.1 hcode).1

/-- The steps that a run adds to the count are the instructions that it executes. -/
theorem steps_runFor_eq (m : Machine) (ctx : Context) (fuel ip : Nat) (mem : Memory) :
    (m.runFor ctx fuel ip mem).1.steps =
      mem.steps + (m.executed ctx fuel ip mem).length := by
  induction fuel generalizing ip mem with
  | zero => rfl
  | succ fuel ih =>
    rw [runFor_succ, executed]
    cases hturn : m.turn ctx ip mem with
    | stop mem' halt =>
      rcases steps_of_stop hturn with rfl | ⟨hsteps, -⟩
      · simp [Turn.resume]
      · simp [Turn.resume, hsteps]
    | go ip' mem' =>
      have hsteps := (steps_of_go hturn).1
      simp only [Turn.resume, ih, hsteps, List.length_cons]
      omega

/-- Where control never goes back, the numbers grow, and there is an instruction for each. -/
theorem Ascends.executed (h : m.Ascends) (ctx : Context) (fuel ip : Nat) (mem : Memory) :
    (m.executed ctx fuel ip mem).Pairwise (· < ·) ∧
      ∀ n ∈ m.executed ctx fuel ip mem, ip ≤ n ∧ n < m.code.size := by
  induction fuel generalizing ip mem with
  | zero => exact ⟨.nil, by simp [Machine.executed]⟩
  | succ fuel ih =>
    rw [Machine.executed]
    have ht := m.turned ctx ip mem
    cases hturn : m.turn ctx ip mem with
    | stop mem' halt =>
      rw [hturn] at ht
      cases ht with
      | ends | limited | canceled => simp
      | fails hcode =>
        have hlt := (Array.getElem?_eq_some_iff.1 hcode).1
        simpa using hlt
    | go ip' mem' =>
      have hmoves := moves_of_go hturn
      have hlt : ip < ip' := h _ _ hmoves
      obtain ⟨hpairs, hrange⟩ := ih ip' mem'
      refine ⟨.cons (fun n hn => ?_) hpairs, List.forall_mem_cons.2 ⟨?_, fun n hn => ?_⟩⟩
      · have := (hrange n hn).1
        omega
      · exact ⟨Nat.le_refl ip, lt_size_of_moves hmoves⟩
      · have := hrange n hn
        omega

theorem Ascends.length_executed_le (h : m.Ascends) (ctx : Context) (fuel ip : Nat)
    (mem : Memory) : (m.executed ctx fuel ip mem).length ≤ m.code.size := by
  obtain ⟨hpairs, hrange⟩ := h.executed ctx fuel ip mem
  have hsub : m.executed ctx fuel ip mem ⊆ List.range m.code.size :=
    fun n hn => List.mem_range.2 (hrange n hn).2
  have hnodup : (m.executed ctx fuel ip mem).Nodup := hpairs.imp Nat.ne_of_lt
  simpa using (hnodup.subperm hsub).length_le

/-- A run that has ended does not depend on how much longer it might have been. -/
theorem runFor_mono {fuel' : Nat} (h : m.runFor ctx fuel ip mem = (mem', some halt))
    (hle : fuel ≤ fuel') : m.runFor ctx fuel' ip mem = (mem', some halt) := by
  induction fuel generalizing fuel' ip mem with
  | zero => cases h
  | succ fuel ih =>
    obtain ⟨rest, rfl⟩ : ∃ rest, fuel' = rest + 1 := ⟨fuel' - 1, by omega⟩
    rw [runFor_succ] at h ⊢
    cases hturn : m.turn ctx ip mem with
    | stop mem₁ halt₁ =>
      rw [hturn] at h
      exact h
    | go ip₁ mem₁ =>
      rw [hturn] at h
      exact ih h (by omega)

/-- Every step leaves fewer instructions ahead, so the run comes to an end. -/
theorem Ascends.halts (h : m.Ascends) (hfuel : m.code.size ≤ fuel + ip) (mem : Memory) :
    ∃ mem' halt, m.runFor .background (fuel + 1) ip mem = (mem', some halt) ∧ halt ≠ .canceled := by
  induction fuel generalizing ip mem with
  | zero =>
    have hcode : m.code[ip]? = none := Array.getElem?_eq_none (by omega)
    exact ⟨mem, .finished, by simp [runFor, hcode], by simp⟩
  | succ fuel ih =>
    rw [runFor_succ]
    have ht := m.turned .background ip mem
    cases hturn : m.turn .background ip mem with
    | stop mem' halt =>
      refine ⟨mem', halt, rfl, ?_⟩
      rw [hturn] at ht
      cases ht with
      | canceled _ hcanceled => cases hcanceled
      | ends | limited | fails => simp
    | go ip' mem' =>
      have hlt : ip < ip' := h _ _ (moves_of_go hturn)
      exact ih (by omega) mem'

/-- The count of steps stays behind the number of the next instruction, so that a limit that is no
less than the count of all instructions is not noticed. -/
theorem Ascends.not_stepLimit (h : m.Ascends) (hlimit : ∀ n ∈ m.limit, m.code.size ≤ n)
    (hsteps : mem.steps ≤ ip) {pos : Pos} {f : Fault}
    (hrun : m.runFor ctx fuel ip mem = (mem', some (.failed pos f))) :
    f.isStepLimit = false := by
  induction fuel generalizing ip mem with
  | zero => cases hrun
  | succ fuel ih =>
    rw [runFor_succ] at hrun
    have ht := m.turned ctx ip mem
    cases hturn : m.turn ctx ip mem with
    | stop mem₁ halt =>
      rw [hturn] at hrun ht
      cases hrun
      cases ht with
      | limited hcode hat =>
        have hlt := (Array.getElem?_eq_some_iff.1 hcode).1
        unfold atLimit at hat
        cases hl : m.limit with
        | none => simp [hl] at hat
        | some n =>
          have := hlimit n hl
          simp only [hl, decide_eq_true_eq] at hat
          omega
      | fails _ _ _ hexec => exact Step.not_stepLimit hexec
    | go ip₁ mem₁ =>
      rw [hturn] at hrun
      have hlt : ip < ip₁ := h _ _ (moves_of_go hturn)
      have hcount := (steps_of_go hturn).1
      exact ih (by omega) hrun

/-- A run with a limit ends when it comes to the limit. -/
theorem halts_of_limit {limit : Nat} (hl : m.limit = some limit) (ip : Nat) (mem : Memory)
    (hle : mem.steps ≤ limit) :
    ∃ mem' halt, m.runFor .background (limit - mem.steps + 1) ip mem = (mem', some halt) := by
  have hleft : mem.steps + (limit - mem.steps) = limit := by omega
  rcases @budget_cases m limit hl _ ip mem hleft with
    ⟨mem', halt, hrun, hwithin⟩ | ⟨mem', pos, -, -, hrun⟩
  · exact ⟨mem', halt, runFor_of_unlimited hl hrun hwithin (by omega)⟩
  · exact ⟨mem', _, hrun⟩

/-- The run of a new machine is the one that ends, unless that is longer than any run is given. -/
theorem run_of_halts (h : m.runFor .background fuel 0 m.reset = (mem, some halt))
    (hfuel : m.limit = none → fuel ≤ patience) : m.run .background m.reset = (mem, halt) := by
  refine run_of_runFor ?_
  cases hl : m.limit with
  | none =>
    rw [Machine.fuel, hl]
    exact runFor_mono h (hfuel hl)
  | some limit =>
    rw [Machine.fuel, hl]
    obtain ⟨mem', halt', hrun⟩ := halts_of_limit hl 0 m.reset (Nat.zero_le _)
    have hlong := runFor_mono hrun (Nat.le_max_left _ fuel)
    rw [runFor_mono h (Nat.le_max_right _ fuel)] at hlong
    rw [hlong]
    exact hrun

end Machine

/-- In the code of a program without loops every jump goes forward, to the one place of its label. A
run of a new machine executes instructions with growing numbers, none of them twice. It ends after
at most as many steps as there are instructions, and a limit that is no less is not noticed. -/
theorem loop_free_program_runs_through_once {scheme : Scheme} {p : Program} {listing : Listing}
    {k : NumKind} (hlower : p.lower scheme = .ok listing)
    (hk : NumKind.ofType? listing.type = some k) (hfree : p.LoopFree) (maxSteps : Int)
    (inputs : List (Text × Float)) :
    (∀ n i l, listing.code[n]? = some i → i.action.target? = some l →
      ∃ q, n < q ∧ ∀ j, labelAt? listing.code j = some l ↔ j = q) ∧
    ∃ m mem halt, Machine.load listing (Machine.limitOf maxSteps) inputs = .ok m ∧
      (∀ fuel, (m.executed .background fuel 0 m.reset).Pairwise (· < ·)) ∧
      (∀ fuel, listing.code.length < fuel → m.runFor .background fuel 0 m.reset = (mem, some halt) ∧
        mem.steps = (m.executed .background fuel 0 m.reset).length) ∧
      (0 ≤ maxSteps ∨ listing.code.length < Machine.patience →
        m.run .background m.reset = (mem, halt)) ∧
      mem.steps ≤ listing.code.length ∧ halt ≠ .canceled ∧
      (listing.code.length ≤ maxSteps ∨ maxSteps < 0 →
        ∀ pos f, halt = .failed pos f → f.isStepLimit = false) := by
  obtain ⟨names, hcode⟩ := Program.lowered_of_lower hlower
  have hforward : Forward [] listing.code := hcode.forward rfl hfree
  obtain ⟨m, place, hload, -, hlimit, -, hexec⟩ := hcode.load hk (Machine.limitOf maxSteps) inputs
  have hascends := hexec.ascends hforward
  have hsize := hexec.size_eq
  refine ⟨fun n i l hi hl => ?_, m, ?_⟩
  · obtain ⟨q, hlt, hq⟩ := hforward.exists_labelAt? hi hl
    refine ⟨q, hlt, fun j => ⟨fun hj => ?_, fun hj => hj ▸ hq⟩⟩
    rw [← hexec.place_eq hj, hexec.place_eq hq]
  · have hfuel : m.code.size ≤ m.code.size + 0 := Nat.le_refl _
    obtain ⟨mem, halt, hrun, hcanceled⟩ := hascends.halts hfuel m.reset
    have hruns : ∀ fuel, listing.code.length < fuel →
        m.runFor .background fuel 0 m.reset = (mem, some halt) :=
      fun fuel hfuel => Machine.runFor_mono hrun (by omega)
    have hsteps : ∀ fuel, listing.code.length < fuel →
        mem.steps = (m.executed .background fuel 0 m.reset).length := by
      intro fuel hfuel
      have heq := m.steps_runFor_eq .background fuel 0 m.reset
      rw [hruns fuel hfuel] at heq
      simpa [Machine.reset] using heq
    refine ⟨mem, halt, hload, fun fuel => (hascends.executed .background fuel 0 m.reset).1,
      fun fuel hfuel => ⟨hruns fuel hfuel, hsteps fuel hfuel⟩, fun hends => ?_, ?_, hcanceled, ?_⟩
    · refine Machine.run_of_halts hrun fun hnone => ?_
      rcases Machine.limitOf_cases maxSteps with ⟨hneg, -⟩ | ⟨-, n, hsome, -⟩
      · omega
      · rw [hlimit, hsome] at hnone
        cases hnone
    · rw [hsteps _ (Nat.lt_succ_self _), ← hsize]
      exact hascends.length_executed_le .background _ 0 m.reset
    · rintro hlarge pos f rfl
      refine hascends.not_stepLimit (fun limit hl => ?_) (Nat.zero_le 0) hrun
      rw [hlimit] at hl
      rcases Machine.limitOf_cases maxSteps with ⟨-, hnone⟩ | ⟨hpos, n, hsome, hle⟩
      · rw [hnone] at hl
        cases hl
      · rw [hsome] at hl
        cases hl
        omega

/-- Of the thirteen instructions of these chains nine are executed. -/
theorem chains_are_run_through_once : ∃ t m mem,
    (compile ⟨⟨"int", [], []⟩, true, []⟩
      "if 0: { z = 1 } elif 1: { if 2: { z = 2 } }").outcome = .ok t ∧
      t.program.LoopFree ∧ t.listing.code.length = 13 ∧
      Machine.load t.listing (Machine.limitOf 13) [] = .ok m ∧
      m.run .background m.reset = (mem, .finished) ∧ mem.steps = 9 ∧
      (m.executed .background 14 0 m.reset).Pairwise (· < ·) ∧
      mem.steps = (m.executed .background 14 0 m.reset).length := by
  have hrun : (compile ⟨⟨"int", [], []⟩, true, []⟩
      "if 0: { z = 1 } elif 1: { if 2: { z = 2 } }").outcome.toOption.map
        (fun t => (NumKind.ofType? t.listing.type, t.listing.code.length,
          t.program.allStmts.all (!·.isLoop),
          (Machine.load t.listing (Machine.limitOf 13) []).toOption.map fun m =>
            ((m.run .background m.reset).1.steps, (m.run .background m.reset).2))) =
        some (some .int, 13, true, some (9, .finished)) := by
    decide +kernel
  obtain ⟨t, hcompile, hparts⟩ := exists_of_map_compile hrun
  simp only [Prod.mk.injEq] at hparts
  obtain ⟨hk, hlength, hall, hends⟩ := hparts
  have hfree : t.program.LoopFree := by simpa [Program.LoopFree] using hall
  obtain ⟨-, m, mem, halt, hload, hpairs, hruns, hrun, -⟩ :=
    loop_free_program_runs_through_once (compile_eq_ok hcompile).2.2 hk hfree 13 []
  have hrun := hrun (Or.inl (by decide))
  simp only [hload, Except.toOption, Option.map_some, hrun, Option.some.injEq,
    Prod.mk.injEq] at hends
  obtain ⟨hsteps, rfl⟩ := hends
  exact ⟨t, m, mem, hcompile, hfree, hlength, hload, hrun, hsteps, hpairs 14,
    (hruns 14 (by omega)).2⟩

end ThreeAddress
