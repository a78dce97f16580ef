import ThreeAddress.Compilation
import ThreeAddress.Proofs.Meaning

/-! Compiled programs can be loaded, and when they run they fail only in ways that the source
accounts for: never for want of an operand, an operator or a temporary. -/
namespace ThreeAddress

/-- An instruction that lowering may give to a program over the names `vars`. Temporaries are not
among these, and a store has the operator of an assignment. -/
def Action.Sound (vars : List Text) : Action → Prop
  | .compute _ dest _ => dest ∉ vars
  | .store _ _ op _ => ∃ o : Op, o.isAssign ∧ op = o.symbol
  | .unknown _ => False
  | _ => True

theorem Action.Sound.op_ne_nil {vars : List Text} {type : Option Text} {dest op x : Text}
    (h : (Action.store type dest op x).Sound vars) : op ≠ [] := by
  obtain ⟨o, -, rfl⟩ := h
  cases o <;> decide

section

variable {scheme : Scheme} {vars : List Text} {names names' : Names} {code : List Instr}

theorem ExprCode.sound {e : Expr} {x : Text}
    (h : ExprCode scheme (scheme.reserved vars) e names code x names') :
    ∀ i ∈ code, i.action.Sound vars := by
  induction h with
  | number | boolean | name => simp
  | @binary _ _ _ _ _ _ names₂ _ _ _ _ _ _ ihl ihr =>
    have hnot := Names.temp_nextTemp_not_mem scheme vars names₂
    simp only [List.forall_mem_append, List.forall_mem_singleton]
    exact ⟨⟨ihl, ihr⟩, hnot⟩
  | @unary _ _ _ _ names₁ _ _ _ ih =>
    have hnot := Names.temp_nextTemp_not_mem scheme vars names₁
    simp only [List.forall_mem_append, List.forall_mem_singleton]
    exact ⟨ih, hnot⟩

theorem BoundCode.sound {e : Expr} {x : Text}
    (h : BoundCode scheme (scheme.reserved vars) e names code x names') :
    ∀ i ∈ code, i.action.Sound vars := by
  cases h with
  | plain _ h => exact h.sound
  | copied => exact List.forall_mem_singleton.2 (Names.temp_nextTemp_not_mem scheme vars names)

theorem ConditionsCode.sound {bs : List (Branch Stmt)} {xs : List Text}
    (h : ConditionsCode scheme (scheme.reserved vars) bs names code xs names') :
    ∀ i ∈ code, i.action.Sound vars := by
  induction h with
  | nil => simp
  | cons he _ ih => exact List.forall_mem_append.2 ⟨he.sound, ih⟩

theorem StoreCode.sound {isNew : Bool} {target x : Text} {op : Kind} {pos : Pos}
    (hop : op.isAssign) (h : StoreCode scheme isNew target op x pos code) :
    ∀ i ∈ code, i.action.Sound vars := by
  have ho : ∃ o : Op, o.isAssign ∧ op.symbol = o.symbol := by
    cases op with
    | op o => exact ⟨o, hop, rfl⟩
    | _ => simp [Kind.isAssign] at hop
  cases h <;> simpa [Action.Sound] using ho

def Task.WellFormed : Task → Prop
  | .stmt s => s.WellFormed
  | .list ss => Stmt.WellFormedList ss
  | .chain _ _ bs => Stmt.WellFormedBranches bs

theorem Lowered.sound {loop : Option Loop} {task : Task} (hwf : task.WellFormed)
    (h : Lowered scheme (scheme.reserved vars) loop task names code names') :
    ∀ i ∈ code, i.action.Sound vars := by
  induction h with
  | nil | chainNil => simp
  | cons _ _ ih ih' => exact List.forall_mem_append.2 ⟨ih hwf.1, ih' hwf.2⟩
  | assign he hs => exact List.forall_mem_append.2 ⟨he.sound, hs.sound hwf.2.1⟩
  | eval he => exact he.sound
  | breakLoop | continueLoop => simp [Action.Sound]
  | branch _ hc _ _ ih ih' =>
    have hlast := ih' ((Stmt.wellFormedBody_iff _).1 hwf.2.2)
    simp only [List.forall_mem_append, List.forall_mem_cons]
    exact ⟨⟨⟨hc.sound, ih hwf.2.1⟩, hlast⟩, trivial, by simp⟩
  | chainCons _ _ ih ih' =>
    have hinner := ih ((Stmt.wellFormedBody_iff _).1 hwf.2.1.2)
    simp only [List.forall_mem_append, List.forall_mem_cons]
    exact ⟨⟨⟨⟨trivial, by simp⟩, hinner⟩, trivial, trivial, by simp⟩, ih' hwf.2.2⟩
  | whileLoop he _ ih =>
    have hinner := ih ((Stmt.wellFormedBody_iff _).1 hwf.2.2)
    simp only [List.forall_mem_append, List.forall_mem_cons]
    exact ⟨⟨⟨⟨⟨trivial, by simp⟩, he.sound⟩, trivial, by simp⟩, hinner⟩, trivial, trivial, by simp⟩
  | forLoop h₁ h₂ h₃ _ _ _ ih =>
    have hinner := ih ((Stmt.wellFormedBody_iff _).1 hwf.2.2.2)
    simp only [List.forall_mem_append, List.forall_mem_cons]
    have hbounds := And.intro (And.intro h₁.sound h₂.sound) h₃.sound
    refine ⟨⟨⟨hbounds, ?_, trivial, trivial, by simp⟩, hinner⟩, trivial, ?_, trivial, trivial,
      by simp⟩
    · exact ⟨.assign, rfl, rfl⟩
    · exact ⟨.plusAssign, rfl, rfl⟩

end

theorem Scheme.validate_eq_ok {s s' : Scheme} (h : s.validate = .ok s') :
    s' = s ∧ s.tempStem.isIdentifier := by
  unfold Scheme.validate at h
  split at h
  · cases h
  · split at h
    · cases h
    · split at h
      · cases h
      · rename_i hstem _
        exact ⟨(Except.ok.inj h).symm, by simpa using hstem⟩

theorem Scheme.tempStem_filled {s : Scheme} (h : s.tempStem ≠ []) :
    s.filled.tempStem = s.tempStem := by
  simp [Scheme.filled, h]

theorem Scheme.filled_filled (s : Scheme) : s.filled.filled = s.filled := by
  obtain ⟨type, temp, label⟩ := s
  cases type <;> cases temp <;> cases label <;> rfl

/-- What a compiled program is made of. -/
theorem compile_parts {settings : Settings} {source : Text} {t : Compilation}
    (h : (compile settings source).outcome = .ok t) :
    (settings.scheme.filled.tempStem.isIdentifier ∧ Program.parse source = .ok t.program ∧
      t.program.lower settings.scheme.filled = .ok t.listing) ∧
      t.file = settings.file ∧ t.warnings = t.program.warnings := by
  unfold compile at h
  cases hv : settings.scheme.filled.validate with
  | error e => simp [hv] at h
  | ok scheme =>
    obtain ⟨rfl, hstem⟩ := Scheme.validate_eq_ok hv
    cases hp : Program.parse source with
    | error e => simp [hv, hp] at h
    | ok p =>
      cases hl : p.lower settings.scheme.filled with
      | error e => simp [hv, hp, hl] at h
      | ok listing =>
        simp only [hv, hp, hl, Except.ok.injEq] at h
        subst h
        exact ⟨⟨hstem, rfl, hl⟩, rfl, rfl⟩

/-- What has succeeded when a source is compiled. -/
theorem compile_eq_ok {settings : Settings} {source : Text} {t : Compilation}
    (h : (compile settings source).outcome = .ok t) :
    settings.scheme.filled.tempStem.isIdentifier ∧ Program.parse source = .ok t.program ∧
      t.program.lower settings.scheme.filled = .ok t.listing :=
  (compile_parts h).1

/-- A source of whose compilation something is known has been compiled. -/
theorem exists_of_map_compile {β : Type} {settings : Settings} {source : Text}
    {f : Compilation → β} {b : β}
    (h : (compile settings source).outcome.toOption.map f = some b) :
    ∃ t, (compile settings source).outcome = .ok t ∧ f t = b := by
  cases hc : (compile settings source).outcome with
  | error e => simp [hc, Except.toOption] at h
  | ok t => exact ⟨t, rfl, by simpa [hc, Except.toOption] using h⟩

/-- The ways in which a run over the given names may end. -/
def Halt.Expected (vars : List Text) (ctx : Context) : Halt → Prop
  | .finished => True
  | .canceled => ctx ≠ .background
  | .failed _ f => f.Expected vars

/-- A run that ends does so as expected, if the interpreter comes to some outcome for every number
of rounds. -/
theorem Machine.runFor_expected {m : Machine} {vars : List Text} {mem : Memory} {halt : Halt}
    (h : ∀ rounds, ∃ o, m.Performs vars rounds ⟨0, mem.store⟩ o) {ctx : Context} {fuel : Nat}
    (hrun : (m.runFor ctx fuel 0 mem).2 = some halt) : halt.Expected vars ctx := by
  obtain ⟨n, c, hsteps, hexp, -⟩ := m.runFor_steps ctx fuel 0 mem
  rw [hrun] at hexp
  cases halt with
  | finished => trivial
  | canceled => exact hexp
  | failed pos f =>
    obtain hfault | ⟨-, steps, rfl⟩ := hexp
    · obtain ⟨o, hperforms⟩ := h (n + 1)
      exact (hperforms.of_faults hsteps hfault (Nat.lt_succ_self n)).2
    · trivial

theorem Machine.run_expected {m : Machine} {vars : List Text} {ctx : Context} {mem : Memory}
    (h : ∀ halt, (m.runFor ctx (m.fuel mem) 0 mem).2 = some halt → halt.Expected vars ctx) :
    (m.run ctx mem).2.Expected vars ctx := by
  unfold Machine.run
  rcases hrun : m.runFor ctx (m.fuel mem) 0 mem with ⟨mem', _ | halt⟩
  · trivial
  · exact h halt (by rw [hrun])

/-- A compiled program over an arithmetic type can be loaded. However it is started and however long
it is given, a run that ends does so as expected, and does not fail at a limit if there is none. No
store has an empty operator, and no temporary is a name of the source. -/
theorem compiled_program_fails_only_as_expected {settings : Settings} {source : Text}
    {t : Compilation} {k : NumKind} (hcompile : (compile settings source).outcome = .ok t)
    (hk : NumKind.ofType? t.listing.type = some k) (maxSteps : Int)
    (inputs : List (Text × Float)) :
    (∃ m, Machine.load t.listing (Machine.limitOf maxSteps) inputs = .ok m ∧
      (∀ ctx mem, (m.run ctx mem).2.Expected (t.program.names.map (·.text)) ctx) ∧
      ∀ ctx fuel mem halt, (m.runFor ctx fuel 0 mem).2 = some halt →
        halt.Expected (t.program.names.map (·.text)) ctx ∧
        (maxSteps < 0 → ∀ pos f, halt = .failed pos f → f.isStepLimit = false)) ∧
    (∀ i ∈ t.listing.code, i.action.Sound (t.program.names.map (·.text))) ∧
    ∀ i ∈ t.listing.code, ∀ type dest op x, i.action = .store type dest op x → op ≠ [] := by
  obtain ⟨hstem, hparse, hlower⟩ := compile_eq_ok hcompile
  obtain ⟨hne, hliteral⟩ := Operand.isLiteral_of_isIdentifier hstem
  obtain ⟨m, hload, rfl, -, -, hperforms⟩ :=
    Program.performs hparse hlower (by rwa [Scheme.tempStem_filled hne]) hk
      (Machine.limitOf maxSteps) inputs
  obtain ⟨names, hcode⟩ := Program.lowered_of_lower hlower
  have hwf : Task.WellFormed (.list t.program.stmts) := Program.wellFormed_of_parse hparse
  have hsound := hcode.sound hwf
  have hexpected : ∀ ctx fuel mem halt, (m.runFor ctx fuel 0 mem).2 = some halt →
      halt.Expected (t.program.names.map (·.text)) ctx := by
    -- the values that the memory happens to hold are those of an environment
    intro ctx fuel mem halt hrun
    exact Machine.runFor_expected
      (fun rounds => ⟨_, hperforms mem.store.value? mem.store rounds fun _ _ => rfl⟩) hrun
  refine ⟨⟨m, hload, fun ctx mem => Machine.run_expected (hexpected ctx (m.fuel mem) mem),
    fun ctx fuel mem halt hrun => ⟨hexpected ctx fuel mem halt hrun, ?_⟩⟩, hsound,
    fun i hi type dest op x hact => ?_⟩
  · rintro hneg pos f rfl
    refine Machine.not_stepLimit_of_unlimited ?_ hrun
    rw [(Machine.load_parts hload).2.2.1, Machine.limitOf, if_neg (by simp; omega), if_pos hneg]
  · have hstore := hsound i hi
    rw [hact] at hstore
    exact hstore.op_ne_nil

/-- Nothing gives `y` a value. -/
theorem read_of_nothing_is_expected : ∃ t m,
    (compile ⟨⟨"int", [], []⟩, true, []⟩ "x = y").outcome = .ok t ∧
      Machine.load t.listing (Machine.limitOf 5) [] = .ok m ∧
      (m.run .background m.reset).2 = .failed ⟨1, 1, 0⟩ (.undeclared "y") ∧
      (m.run .background m.reset).2.Expected ["x", "y"] .background := by
  have ht : Token.tokenize "x = y" = [⟨.name, "x", ⟨1, 1, 0⟩⟩, ⟨.op .assign, "=", ⟨1, 3, 2⟩⟩,
      ⟨.name, "y", ⟨1, 5, 4⟩⟩] := by decide
  have hc : ∃ t, (compile ⟨⟨"int", [], []⟩, true, []⟩ "x = y").outcome = .ok t ∧
      NumKind.ofType? t.listing.type = some .int ∧
      t.program.names.map (·.text) = [Text.ofString "x", Text.ofString "y"] ∧
      ∃ m, Machine.load t.listing (Machine.limitOf 5) [] = .ok m ∧
        (m.run .background m.reset).2 = .failed ⟨1, 1, 0⟩ (.undeclared "y") := by
    rw [compile, Program.parse, ht]
    exact ⟨_, rfl, rfl, rfl, _, rfl, rfl⟩
  obtain ⟨t, hcompile, hk, hnames, m, hload, hrun⟩ := hc
  obtain ⟨⟨m', hload', hexpected, -⟩, -⟩ :=
    compiled_program_fails_only_as_expected hcompile hk 5 []
  obtain rfl : m = m' := by simpa [hload] using hload'
  exact ⟨t, m, hcompile, hload, hrun, hnames ▸ hexpected .background m.reset⟩

end ThreeAddress
