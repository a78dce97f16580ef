import ThreeAddress.Proofs.LoopCode

/-! Lowering preserves meaning: a lowered program ends, fails or runs forever just as the
interpreter does, and at the end its names have the same values. -/
namespace ThreeAddress

theorem Scheme.tempStem_filled_ne_nil (scheme : Scheme) : scheme.filled.tempStem ≠ [] := by
  cases h : scheme.tempStem with
  | nil =>
    simp only [Scheme.filled, h]
    decide
  | cons b rest => simp [Scheme.filled, h]

theorem agrees_ofInputs (k : NumKind) (inputs : List (Text × Float)) (vars : List Text) :
    Agrees vars (.ofInputs k inputs) (.ofInputs k inputs) := by
  refine List.foldl_rel (fun x _ => ?_) fun input _ σ s ha => ha.set_var
  simp [Store.value?]

namespace Machine

/-- What a whole run from `c` on does when the interpreter comes to an outcome. -/
def Performs (m : Machine) (vars : List Text) (rounds : Nat) (c : Config) : Outcome → Prop
  | .done signal σ => signal = .next ∧ ∃ n c', m.Steps n c c' ∧ m.Ends c' ∧ Agrees vars σ c'.store
  | .failed => m.Fails vars c
  | .unfinished => ∃ n c', rounds ≤ n ∧ m.Steps n c c'

namespace Performs

variable {m : Machine} {vars : List Text} {rounds n : Nat} {c c' : Config} {o : Outcome}

/-- If the run ends and there were rounds enough, the interpreter is done. -/
theorem of_ends (h : m.Performs vars rounds c o) (hsteps : m.Steps n c c') (hends : m.Ends c')
    (hlt : n < rounds) : ∃ σ, o = .done .next σ := by
  cases o with
  | done signal σ =>
    obtain ⟨rfl, -⟩ := h
    exact ⟨σ, rfl⟩
  | failed =>
    obtain ⟨n', c'', pos, f, hsteps', hfault, -⟩ := h
    obtain ⟨-, rfl⟩ := hsteps.unique_stuck (fun _ => hends.not_moves) hsteps'
      fun _ => hfault.not_moves
    exact absurd hends hfault.not_ends
  | unfinished =>
    obtain ⟨n', c'', hle, hsteps'⟩ := h
    have := hsteps.le_of_stuck (fun _ => hends.not_moves) hsteps'
    omega

/-- If the run fails and there were rounds enough, the interpreter fails, and the fault is one that
is expected. -/
theorem of_faults {pos : Pos} {f : Fault} (h : m.Performs vars rounds c o)
    (hsteps : m.Steps n c c') (hfault : m.Faults c' pos f) (hlt : n < rounds) :
    o = .failed ∧ f.Expected vars := by
  cases o with
  | done signal σ =>
    obtain ⟨-, n', c'', hsteps', hends, -⟩ := h
    obtain ⟨-, rfl⟩ := hsteps.unique_stuck (fun _ => hfault.not_moves) hsteps'
      fun _ => hends.not_moves
    exact absurd hends hfault.not_ends
  | failed =>
    obtain ⟨n', c'', pos', f', hsteps', hfault', hexpected⟩ := h
    obtain ⟨-, rfl⟩ := hsteps.unique_stuck (fun _ => hfault.not_moves) hsteps'
      fun _ => hfault'.not_moves
    exact ⟨rfl, hfault.unique hfault' ▸ hexpected⟩
  | unfinished =>
    obtain ⟨n', c'', hle, hsteps'⟩ := h
    have := hsteps.le_of_stuck (fun _ => hfault.not_moves) hsteps'
    omega

/-- The end of a run has the values of the interpreter. -/
theorem agrees {signal : Signal} {σ : Env} (h : m.Performs vars rounds c (.done signal σ))
    (hsteps : m.Steps n c c') (hends : m.Ends c') : Agrees vars σ c'.store := by
  obtain ⟨-, n', c'', hsteps', hends', ha⟩ := h
  obtain ⟨-, rfl⟩ := hsteps.unique_stuck (fun _ => hends.not_moves) hsteps'
    fun _ => hends'.not_moves
  exact ha

end Performs

end Machine

/-- The code of a program that was read from a source can be loaded, and from any store on it does
what the interpreter says. -/
theorem Program.performs {source : Text} {p : Program} {scheme : Scheme} {listing : Listing}
    {k : NumKind} (hparse : Program.parse source = .ok p) (hlower : p.lower scheme = .ok listing)
    (hstem : Operand.isLiteral scheme.filled.tempStem = false)
    (hk : NumKind.ofType? listing.type = some k) (limit : Option Nat)
    (inputs : List (Text × Float)) :
    ∃ m, Machine.load listing limit inputs = .ok m ∧ m.kind = k ∧ m.limit = limit ∧
      m.inputs = inputs ∧ ∀ σ s fuel, Agrees (p.names.map (·.text)) σ s →
        m.Performs (p.names.map (·.text)) fuel ⟨0, s⟩ (Stmt.execList k fuel p.stmts σ) := by
  obtain ⟨names, hcode⟩ := Program.lowered_of_lower hlower
  obtain ⟨m, place, hload, rfl, hlimit, hinputs, hexec⟩ := hcode.load hk limit inputs
  refine ⟨m, hload, rfl, hlimit, hinputs, fun σ s fuel ha => ?_⟩
  have hset : Setup m listing.code place scheme.filled (p.names.map (·.text)) :=
    ⟨hexec, scheme.tempStem_filled_ne_nil, hstem⟩
  have hv : ∀ n ∈ Stmt.namesOfList p.stmts, n.text ∈ p.names.map (·.text) :=
    fun n hn => List.mem_map_of_mem hn
  have hmeets := hcode.simulates hset (Program.wellFormed_of_parse hparse) hv 0 σ s fuel
    List.prefix_rfl ha
  have hend : ∀ s, m.Ends ⟨0 + listing.code.length, s⟩ := by
    intro s
    rw [Machine.Ends, hexec.fetch]
    simp
  revert hmeets
  cases Stmt.execList m.kind fuel p.stmts σ with
  | failed | unfinished => exact id
  | done signal σ' =>
    rintro ⟨ip, n, s', hexit, hsteps, ha', -⟩
    cases signal with
    | breaks | continues => simp [exitsOf] at hexit
    | next =>
      obtain rfl := Option.some.inj hexit
      exact ⟨rfl, n, _, hsteps, hend s', ha'⟩

/-- A lowered program that is run without a limit ends exactly if the interpreter is done, fails
exactly if the interpreter fails, and otherwise both go on forever. At the end the names of the
program have, or lack, the same values. The temporaries must not look like numbers, and under
settings that are accepted they do not. -/
theorem lowering_preserves_meaning {source : Text} {p : Program} {scheme : Scheme}
    {listing : Listing} {k : NumKind} (hparse : Program.parse source = .ok p)
    (hlower : p.lower scheme = .ok listing)
    (hstem : Operand.isLiteral scheme.filled.tempStem = false)
    (hk : NumKind.ofType? listing.type = some k) (inputs : List (Text × Float)) :
    ∃ m, Machine.load listing none inputs = .ok m ∧
      ((∃ mem, m.HaltsWith mem .finished) ↔ ∃ fuel σ, p.interpret k inputs fuel = .done .next σ) ∧
      (∀ mem fuel σ, m.HaltsWith mem .finished → p.interpret k inputs fuel = .done .next σ →
        ∀ n ∈ p.names, mem.store.value? n.text = σ n.text) ∧
      ((∃ mem pos f, m.HaltsWith mem (.failed pos f)) ↔
        ∃ fuel, p.interpret k inputs fuel = .failed) ∧
      (m.RunsForever ↔ ∀ fuel, p.interpret k inputs fuel = .unfinished) := by
  obtain ⟨m, hload, hkind, hl, hinputs, hperforms⟩ :=
    Program.performs hparse hlower hstem hk none inputs
  have hrun : ∀ fuel, m.Performs (p.names.map (·.text)) fuel ⟨0, m.reset.store⟩
      (p.interpret k inputs fuel) := by
    intro fuel
    refine hperforms _ _ fuel ?_
    rw [Machine.reset, hkind, hinputs]
    exact agrees_ofInputs k inputs _
  refine ⟨m, hload, ⟨?_, ?_⟩, ?_, ⟨?_, ?_⟩, ?_, ?_⟩
  · rintro ⟨mem, hhalt⟩
    obtain ⟨n, c, hsteps, hends, -⟩ := hhalt.ends
    exact ⟨n + 1, (hrun (n + 1)).of_ends hsteps hends (Nat.lt_succ_self n)⟩
  · rintro ⟨fuel, σ, hdone⟩
    obtain ⟨-, n, c, hsteps, hends, -⟩ := hdone ▸ hrun fuel
    exact Machine.haltsWith_of_ends hl hsteps hends
  · intro mem fuel σ hhalt hdone x hx
    obtain ⟨n, c, hsteps, hends, hstore⟩ := hhalt.ends
    have hagrees := (hdone ▸ hrun fuel).agrees hsteps hends
    rw [hstore]
    exact hagrees _ (List.mem_map_of_mem hx)
  · rintro ⟨mem, pos, f, hhalt⟩
    obtain ⟨n, c, hsteps, hfault⟩ := hhalt.faults hl
    exact ⟨n + 1, ((hrun (n + 1)).of_faults hsteps hfault (Nat.lt_succ_self n)).1⟩
  · rintro ⟨fuel, hfailed⟩
    obtain ⟨n, c, pos, f, hsteps, hfault, -⟩ := hfailed ▸ hrun fuel
    exact Machine.haltsWith_of_faults hl hsteps hfault
  · intro hforever fuel
    cases hout : p.interpret k inputs fuel with
    | unfinished => rfl
    | done signal σ =>
      obtain ⟨-, n, c, hsteps, hends, -⟩ := hout ▸ hrun fuel
      obtain ⟨mem, hhalt⟩ := Machine.haltsWith_of_ends hl hsteps hends
      exact absurd hhalt hforever.not_haltsWith
    | failed =>
      obtain ⟨n, c, pos, f, hsteps, hfault, -⟩ := hout ▸ hrun fuel
      obtain ⟨mem, pos, f, hhalt⟩ := Machine.haltsWith_of_faults hl hsteps hfault
      exact absurd hhalt hforever.not_haltsWith
  · intro hunfinished
    refine Machine.runsForever_of_steps hl fun fuel => ?_
    have hsteps := hrun fuel
    rw [hunfinished fuel] at hsteps
    exact hsteps

/-- A loop that runs once. -/
theorem loop_counts_down : ∃ p listing m mem,
    Program.parse "x = True; while x: { x -= True }" = .ok p ∧
      p.lower ⟨"int", "t", "l"⟩ = .ok listing ∧ Machine.load listing none [] = .ok m ∧
      m.HaltsWith mem .finished ∧ mem.store.value? "x" = some (.int 0) := by
  have ht : Token.tokenize "x = True; while x: { x -= True }" =
      [⟨.name, "x", ⟨1, 1, 0⟩⟩, ⟨.op .assign, "=", ⟨1, 3, 2⟩⟩,
        ⟨.keyword .trueWord, "True", ⟨1, 5, 4⟩⟩, ⟨.op .semicolon, ";", ⟨1, 9, 8⟩⟩,
        ⟨.keyword .whileWord, "while", ⟨1, 11, 10⟩⟩, ⟨.name, "x", ⟨1, 17, 16⟩⟩,
        ⟨.op .colon, ":", ⟨1, 18, 17⟩⟩, ⟨.op .lbrace, Op.lbrace.symbol, ⟨1, 20, 19⟩⟩,
        ⟨.name, "x", ⟨1, 22, 21⟩⟩, ⟨.op .minusAssign, "-=", ⟨1, 24, 23⟩⟩,
        ⟨.keyword .trueWord, "True", ⟨1, 27, 26⟩⟩,
        ⟨.op .rbrace, Op.rbrace.symbol, ⟨1, 32, 31⟩⟩] := by
    decide
  have hp : ∃ p, Program.parse "x = True; while x: { x -= True }" = .ok p ∧
      (∃ n ∈ p.names, n.text = "x") ∧
      (∃ σ, p.interpret .int [] 2 = .done .next σ ∧ σ "x" = some (.int 0)) ∧
      ∃ listing, p.lower ⟨"int", "t", "l"⟩ = .ok listing ∧
        NumKind.ofType? listing.type = some .int := by
    rw [Program.parse, ht]
    refine ⟨_, rfl, ?_, ?_, ?_⟩
    · exact ⟨_, List.mem_cons_self, rfl⟩
    · exact ⟨_, rfl, rfl⟩
    · exact ⟨_, rfl, rfl⟩
  obtain ⟨p, hparse, ⟨n, hn, hname⟩, ⟨σ, hdone, hx⟩, listing, hlower, hk⟩ := hp
  obtain ⟨m, hload, hends, hvalues, -⟩ :=
    lowering_preserves_meaning hparse hlower (by decide) hk []
  obtain ⟨mem, hhalt⟩ := hends.2 ⟨2, σ, hdone⟩
  refine ⟨p, listing, m, mem, hparse, hlower, hload, hhalt, ?_⟩
  rw [← hx, ← hname]
  exact hvalues mem 2 σ hhalt hdone n hn

end ThreeAddress
