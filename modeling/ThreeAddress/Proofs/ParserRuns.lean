import ThreeAddress.Syntax.Parser

/-! The tokens that lead from one state of the parser to another. Reading a list of tokens is such a
run up to its end or up to the first token that the state does not take, so that what every step
keeps is proved along a run. -/
namespace ThreeAddress.Parser

namespace State

/-- The tokens lead from one state to another. -/
inductive Runs : State → List Token → State → Prop
  | nil {s : State} : Runs s [] s
  | cons {s s' s'' : State} {t : Token} {ts : List Token} :
      s.step t = .ok s' → Runs s' ts s'' → Runs s (t :: ts) s''

variable {s s' s'' base : State} {t : Token} {ts us : List Token}

theorem Runs.append (h : Runs s ts s') (h' : Runs s' us s'') : Runs s (ts ++ us) s'' := by
  induction h with
  | nil => exact h'
  | cons hs _ ih => exact .cons hs (ih h')

theorem Runs.single (h : s.step t = .ok s') : Runs s [t] s' := .cons h .nil

/-- Only the first token can tell two states apart. -/
theorem Runs.of_step_eq (hs : s.step t = base.step t) (h : Runs base (t :: ts) s') :
    Runs s (t :: ts) s' := by
  cases h with
  | cons hb h => exact .cons (hs.trans hb) h

end State

variable {tokens : List Token} {final : Token} {s s' : State}

theorem consume_append {ts : List Token} (hruns : State.Runs s ts s')
    (ht : ∀ t ∈ ts, t.kind ≠ .eof) (pulls : Nat) (rest : List Token) :
    consume final s pulls (ts ++ rest) = consume final s' (pulls + ts.length) rest := by
  induction hruns generalizing pulls with
  | nil => rfl
  | @cons s₀ s₁ s₂ t ts hstep _ ih =>
    have hne := ht t (by simp)
    rw [List.cons_append, consume]
    simp only [hstep, hne, if_false]
    rw [ih (fun u hu => ht u (by simp [hu])), List.length_cons, Nat.add_assoc, Nat.add_comm 1]

theorem consume_complete (hr : State.Runs s tokens s') (ht : ∀ t ∈ tokens, t.kind ≠ .eof)
    {s'' : State} (hs : s'.step final = .ok s'') (pulls : Nat) :
    (consume final s pulls tokens).result = .ok (s''.stmts.reverse, final.pos) := by
  have happend : consume final s pulls (tokens ++ []) = _ := consume_append hr ht pulls []
  rw [List.append_nil] at happend
  simp [happend, consume, hs, Except.map]

theorem runs_of_consume (ht : ∀ t ∈ tokens, t.kind ≠ .eof) {pulls : Nat} {out : List Stmt × Pos}
    (h : (consume final s pulls tokens).result = .ok out) : ∃ s' s'', State.Runs s tokens s' ∧
      s'.step final = .ok s'' ∧ out = (s''.stmts.reverse, final.pos) := by
  induction tokens generalizing s pulls with
  | nil =>
    unfold consume at h
    cases hstep : s.step final with
    | error e => simp [hstep, Except.map] at h
    | ok s' =>
      simp only [hstep, Except.map, Except.ok.injEq] at h
      exact ⟨s, s', .nil, hstep, h.symm⟩
  | cons t rest ih =>
    unfold consume at h
    cases hstep : s.step t with
    | error e => simp [hstep] at h
    | ok s₁ =>
      simp only [hstep, ht t List.mem_cons_self, if_false] at h
      obtain ⟨s', s'', hruns, hfinal, hout⟩ := ih (fun u hu => ht u (List.mem_cons_of_mem t hu)) h
      exact ⟨s', s'', .cons hstep hruns, hfinal, hout⟩

/-- Reading fails at one token, or at the end, after all tokens before it were taken in. -/
theorem consume_error {e : SyntaxError} (ht : ∀ t ∈ tokens, t.kind ≠ .eof) (pulls : Nat)
    (h : (consume final s pulls tokens).result = .error e) : ∃ k s', k ≤ tokens.length ∧
      (consume final s pulls tokens).pulls = pulls + k + 1 ∧
      State.Runs s (tokens.take k) s' ∧ s'.step (tokens[k]?.getD final) = .error e := by
  induction tokens generalizing s pulls with
  | nil =>
    unfold consume at h
    cases hstep : s.step final with
    | ok s' => simp [hstep, Except.map] at h
    | error f =>
      simp only [hstep, Except.map, Except.error.injEq] at h
      subst h
      exact ⟨0, s, Nat.le_refl _, rfl, .nil, hstep⟩
  | cons t rest ih =>
    have hne := ht t (by simp)
    unfold consume at h ⊢
    cases hstep : s.step t with
    | error f =>
      simp only [hstep, Except.error.injEq] at h
      subst h
      exact ⟨0, s, Nat.zero_le _, rfl, .nil, hstep⟩
    | ok s' =>
      simp only [hstep, hne, if_false] at h ⊢
      obtain ⟨k, s'', hle, hpulls, hruns, herror⟩ :=
        ih (fun u hu => ht u (by simp [hu])) (pulls + 1) h
      refine ⟨k + 1, s'', by simpa using hle, by omega, .cons hstep hruns, ?_⟩
      simpa using herror

/-- The tokens of a program lead from the initial state to one that the end completes. -/
theorem runs_of_parseTokens {pos : Pos} {p : Program} (ht : ∀ t ∈ tokens, t.kind ≠ .eof)
    (h : (parseTokens tokens pos).result = .ok p) : ∃ s s', State.Runs .initial tokens s ∧
      s.step (finalToken tokens pos) = .ok s' ∧
      p = ⟨⟨(tokens.headD (finalToken tokens pos)).pos, (finalToken tokens pos).pos⟩,
        s'.stmts.reverse⟩ := by
  unfold parseTokens at h
  cases hc : (consume (finalToken tokens pos) .initial 0 tokens).result with
  | error e => simp [hc, Except.map] at h
  | ok out =>
    simp only [hc, Except.map, Except.ok.injEq] at h
    obtain ⟨s, s', hruns, hfinal, rfl⟩ := runs_of_consume ht hc
    exact ⟨s, s', hruns, hfinal, h.symm⟩

end ThreeAddress.Parser
