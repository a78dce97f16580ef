import ThreeAddress.Proofs.ParserCompleteness
import ThreeAddress.Proofs.ParserSoundness

/-! The parser accepts exactly the token streams that spell a program, and returns the only program
that they spell. -/
namespace ThreeAddress.Parser

open Grammar

variable {tokens : List Token} {s s' : State}

theorem State.Runs.took {ts : List Token} {ws : List Word} (hruns : State.Runs s ts s')
    (ht : ∀ t ∈ ts, t.kind ≠ .eof) (h : s.Took ws) : s'.Took (ws ++ ts.map Token.word) := by
  induction hruns generalizing ws with
  | nil => simpa using h
  | cons hstep _ ih =>
    have htook := (State.step_after h hstep).1 (ht _ (by simp))
    simpa using ih (fun u hu => ht u (by simp [hu])) htook

theorem spells_of_parseTokens {pos : Pos} {p : Program} (ht : ∀ t ∈ tokens, t.kind ≠ .eof)
    (h : (parseTokens tokens pos).result = .ok p) :
    Spells (tokens.map Token.word) p.bare := by
  obtain ⟨s, s', hruns, hfinal, rfl⟩ := runs_of_parseTokens ht h
  obtain ⟨simple, hd⟩ := (State.step_after (hruns.took ht State.took_initial) hfinal).2 rfl
  exact ⟨rfl, simple, hd⟩

theorem parseTokens_of_spells {q : Program} (pos : Pos) (ht : ∀ t ∈ tokens, t.kind ≠ .eof)
    (h : Spells (tokens.map Token.word) q) :
    ∃ p, (parseTokens tokens pos).result = .ok p ∧ p.bare = q := by
  obtain ⟨hspan, simple, hd⟩ := h
  obtain ⟨s', ys, hruns, hys, hset⟩ := State.reads_of_derives hd rfl [] []
  have hfinal : Follows simple (finalToken tokens pos) :=
    ⟨Or.inr (Or.inr (Or.inl rfl)), fun _ => rfl⟩
  have hstep : s'.step (finalToken tokens pos) = .ok ⟨[], ys.reverse, .between⟩ := by
    rw [hset _ hfinal]
    simp [State.step, State.between, finalToken, State.enter]
  have hc := consume_complete hruns ht hstep 0
  refine ⟨⟨⟨(tokens.headD (finalToken tokens pos)).pos, (finalToken tokens pos).pos⟩, ys⟩, ?_, ?_⟩
  · have hc' : (consume (finalToken tokens pos) .initial 0 tokens).result =
        .ok (ys, (finalToken tokens pos).pos) := by simpa [State.initial] using hc
    simp [parseTokens, hc', Except.map]
  · obtain ⟨span, stmts⟩ := q
    simp_all [Program.bare]

theorem map_bare_eq_ok {r : Except SyntaxError Program} {q : Program} :
    r.map Program.bare = .ok q ↔ ∃ p, r = .ok p ∧ p.bare = q := by
  cases r <;> simp [Except.map]

/-- On a stream without an end-of-file token the parser succeeds with a tree, positions aside, if
and only if the words of the stream spell that tree; and they spell no other. -/
theorem parser_accepts_exactly_the_grammar (tokens : List Token) (pos : Pos)
    (ht : ∀ t ∈ tokens, t.kind ≠ .eof) (p : Program) :
    ((parseTokens tokens pos).result.map Program.bare = .ok p.bare ↔
      Spells (tokens.map Token.word) p.bare) ∧
    ∀ q, Spells (tokens.map Token.word) p.bare → Spells (tokens.map Token.word) q → q = p.bare := by
  refine ⟨⟨?_, fun h => map_bare_eq_ok.2 (parseTokens_of_spells pos ht h)⟩, ?_⟩
  · intro h
    obtain ⟨q, hq, hb⟩ := map_bare_eq_ok.1 h
    exact hb ▸ spells_of_parseTokens ht hq
  · intro q hp hq
    have h₁ := map_bare_eq_ok.2 (parseTokens_of_spells pos ht hp)
    have h₂ := map_bare_eq_ok.2 (parseTokens_of_spells pos ht hq)
    exact Except.ok.inj (h₂.symm.trans h₁)

/-- Statements side by side: the parenthesis cannot go on with the first, and a semicolon keeps the
sign from the second. -/
theorem parser_accepts_juxtaposed :
    let tokens : List Token := [⟨.name, "x", .unknown⟩, ⟨.op .assign, "=", .unknown⟩,
      ⟨.number, "2", .unknown⟩, ⟨.op .lparen, "(", .unknown⟩, ⟨.name, "y", .unknown⟩,
      ⟨.op .rparen, ")", .unknown⟩, ⟨.op .semicolon, ";", .unknown⟩, ⟨.op .minus, "-", .unknown⟩,
      ⟨.name, "y", .unknown⟩]
    (∀ t ∈ tokens, t.kind ≠ .eof) ∧ Spells (tokens.map Token.word)
      ⟨.nowhere, [.assign .nowhere ⟨.nowhere, "x"⟩ (.op .assign) (.number .nowhere 2 "2"),
        .eval .nowhere (.name ⟨.nowhere, "y"⟩),
        .eval .nowhere (.unary .nowhere (.op .minus) (.name ⟨.nowhere, "y"⟩))]⟩ := by
  intro tokens
  have ht : ∀ t ∈ tokens, t.kind ≠ .eof := by decide
  refine ⟨ht, (parser_accepts_exactly_the_grammar tokens .unknown ht ⟨.nowhere,
    [.assign .nowhere ⟨.nowhere, "x"⟩ (.op .assign) (.number .nowhere 2 "2"),
      .eval .nowhere (.name ⟨.nowhere, "y"⟩),
      .eval .nowhere (.unary .nowhere (.op .minus) (.name ⟨.nowhere, "y"⟩))]⟩).1.1 rfl⟩

end ThreeAddress.Parser
