import ThreeAddress.Syntax.Parser

/-! The parser that goes from state to state, fed by a source that is asked for one token after the
other. What it results in depends on nothing but the answers that it got. -/
namespace ThreeAddress.Parser

/-- What a source answers when it is asked for a token: one, or the place where it ends. -/
inductive Delivery where
  | token (t : Token)
  | ended (pos : Pos)

/-- The parser between two questions. -/
structure Session where
  state : State
  /-- Where the first token stands, if there was one. -/
  start : Option Pos
  /-- The end of the last token. -/
  last : Pos

/-- What an answer of the source leads to: another question, or the result. -/
inductive Verdict where
  | more (s : Session)
  | done (result : Except SyntaxError Program)

namespace Session

def initial : Session := ⟨.initial, none, .unknown⟩

/-- An answer as a token. An end whose place is unknown is that of the last token. -/
def read (s : Session) : Delivery → Token
  | .token t => t
  | .ended pos => ⟨.eof, [], if pos.isKnown then pos else s.last⟩

/-- Takes in one answer. -/
def take (s : Session) (d : Delivery) : Verdict :=
  let t := s.read d
  let start := s.start.getD t.pos
  match s.state.step t with
  | .error e => .done (.error e)
  | .ok state =>
    if t.kind = .eof then .done (.ok ⟨⟨start, t.pos⟩, state.stmts.reverse⟩)
    else .more ⟨state, some start, t.stop⟩

end Session

/-- The session after `n` answers of the source, if the parser still has a question. -/
def sessionAfter (source : Nat → Delivery) : Nat → Option Session
  | 0 => some .initial
  | n + 1 => (sessionAfter source n).bind fun s =>
    match s.take (source n) with
    | .more s' => some s'
    | .done _ => none

/-- The parser asks the source exactly `calls` times, and then has the result. -/
def Answers (source : Nat → Delivery) (calls : Nat) (result : Except SyntaxError Program) : Prop :=
  ∃ n s, calls = n + 1 ∧ sessionAfter source n = some s ∧ s.take (source n) = .done result

/-- From question number `n` on, the source delivers the tokens and then its end at `pos`. What it
would answer after that is open. -/
def Delivers (source : Nat → Delivery) (pos : Pos) : Nat → List Token → Prop
  | n, [] => source n = .ended pos
  | n, t :: rest => source n = .token t ∧ Delivers source pos (n + 1) rest

section

variable {source source' : Nat → Delivery} {calls calls' n i : Nat} {pos : Pos}
  {result result' : Except SyntaxError Program} {s s' : Session}

theorem sessionAfter_succ (h : sessionAfter source n = some s) :
    sessionAfter source (n + 1) = match s.take (source n) with
      | .more s' => some s'
      | .done _ => none := by
  rw [sessionAfter, h]
  rfl

/-- A parser that has a question had one before. -/
theorem sessionAfter_mono (h : sessionAfter source n = some s) (hi : i ≤ n) :
    ∃ s', sessionAfter source i = some s' := by
  induction n generalizing s with
  | zero =>
    obtain rfl : i = 0 := by omega
    exact ⟨s, h⟩
  | succ n ih =>
    rcases Nat.lt_or_ge n i with hlt | hge
    · obtain rfl : i = n + 1 := by omega
      exact ⟨s, h⟩
    · obtain ⟨s₀, hs₀, -⟩ := Option.bind_eq_some_iff.1 h
      exact ih hs₀ hge

theorem sessionAfter_congr (h : ∀ i < n, source' i = source i) :
    sessionAfter source' n = sessionAfter source n := by
  induction n with
  | zero => rfl
  | succ n ih =>
    rw [sessionAfter, sessionAfter, ih fun i hi => h i (by omega), h n (Nat.lt_succ_self n)]

/-- The result is that of the answers the parser has got. -/
theorem Answers.congr (h : Answers source calls result)
    (heq : ∀ i < calls, source' i = source i) : Answers source' calls result := by
  obtain ⟨n, s, rfl, hs, htake⟩ := h
  refine ⟨n, s, rfl, ?_, ?_⟩
  · rw [sessionAfter_congr fun i hi => heq i (by omega), hs]
  · rw [heq n (Nat.lt_succ_self n), htake]

/-- After the result there is no question. -/
theorem Answers.sessionAfter_eq_none (h : Answers source calls result) (hn : calls ≤ n) :
    sessionAfter source n = none := by
  obtain ⟨m, s, rfl, hs, htake⟩ := h
  have hnone : sessionAfter source (m + 1) = none := by rw [sessionAfter_succ hs, htake]
  cases hafter : sessionAfter source n with
  | none => rfl
  | some s' =>
    obtain ⟨s₁, hs₁⟩ := sessionAfter_mono hafter hn
    rw [hnone] at hs₁
    cases hs₁

theorem Answers.le (h : Answers source calls result) (h' : Answers source calls' result') :
    calls ≤ calls' := by
  obtain ⟨n, s, rfl, hs, -⟩ := h
  refine Nat.succ_le_of_lt (Nat.lt_of_not_le fun hle => ?_)
  rw [h'.sessionAfter_eq_none hle] at hs
  cases hs

theorem Answers.unique (h : Answers source calls result) (h' : Answers source calls' result') :
    calls = calls' ∧ result = result' := by
  obtain rfl : calls = calls' := Nat.le_antisymm (h.le h') (h'.le h)
  obtain ⟨n, s, rfl, hs, htake⟩ := h
  obtain ⟨n', s', hn, hs', htake'⟩ := h'
  obtain rfl : n = n' := Nat.succ.inj hn
  obtain rfl : s = s' := Option.some.inj (hs.symm.trans hs')
  exact ⟨rfl, Verdict.done.inj (htake.symm.trans htake')⟩

/-- The token that ends the session after the tokens `rest`, when the source ends at `pos`. -/
def Session.finalAfter (s : Session) (rest : List Token) (pos : Pos) : Token :=
  ⟨.eof, [], if pos.isKnown then pos else (rest.getLast?.map Token.stop).getD s.last⟩

/-- Asking the source is reading the list of what it delivers, from any session on. -/
theorem answers_consume {rest : List Token} (hs : sessionAfter source n = some s)
    (hrest : Delivers source pos n rest) :
    let final := s.finalAfter rest pos
    let outcome := consume final s.state n rest
    Answers source outcome.pulls (outcome.result.map fun (stmts, stop) =>
      ⟨⟨s.start.getD (rest.headD final).pos, stop⟩, stmts⟩) := by
  induction rest generalizing n s with
  | nil =>
    refine ⟨n, s, rfl, hs, ?_⟩
    rw [show source n = .ended pos from hrest]
    simp only [Session.take, Session.read, Session.finalAfter, consume, List.getLast?_nil,
      Option.map_none, Option.getD_none, List.headD_nil, if_true]
    split <;> rename_i hstep <;> rw [hstep] <;> rfl
  | cons t rest ih =>
    obtain ⟨hnow, hlater⟩ := hrest
    simp only [consume, List.headD_cons]
    have htake : s.take (source n) = match s.state.step t with
        | .error e => .done (.error e)
        | .ok state =>
          if t.kind = .eof then .done (.ok ⟨⟨s.start.getD t.pos, t.pos⟩, state.stmts.reverse⟩)
          else .more ⟨state, some (s.start.getD t.pos), t.stop⟩ := by
      rw [hnow]
      rfl
    cases hstep : s.state.step t with
    | error e => exact ⟨n, s, rfl, hs, by rw [htake, hstep]; rfl⟩
    | ok state =>
      by_cases hkind : t.kind = .eof
      · simp only [hkind, if_true]
        exact ⟨n, s, rfl, hs, by rw [htake, hstep]; simp only [hkind, if_true]; rfl⟩
      · simp only [hkind, if_false]
        rw [hstep] at htake
        simp only [hkind, if_false] at htake
        have hnext := (sessionAfter_succ hs).trans (by rw [htake])
        have hfinal : s.finalAfter (t :: rest) pos =
            Session.finalAfter ⟨state, some (s.start.getD t.pos), t.stop⟩ rest pos := by
          cases rest with
          | nil => rfl
          | cons u rest => simp [Session.finalAfter, List.getLast?_cons]
        rw [hfinal]
        exact ih hnext hlater

/-- Asking a source is reading the list of what it delivers. -/
theorem answers_parseTokens {tokens : List Token} (h : Delivers source pos 0 tokens) :
    Answers source (parseTokens tokens pos).pulls (parseTokens tokens pos).result := by
  have hfinal : Session.initial.finalAfter tokens pos = finalToken tokens pos := by
    unfold Session.finalAfter finalToken
    cases tokens.getLast? <;> rfl
  have hanswers := answers_consume (s := .initial) rfl h
  rw [hfinal] at hanswers
  exact hanswers

theorem parseTokens_of_answers {tokens : List Token} (h : Delivers source pos 0 tokens)
    (hanswers : Answers source calls result) : parseTokens tokens pos = ⟨result, calls⟩ := by
  obtain ⟨hcalls, hresult⟩ := (answers_parseTokens h).unique hanswers
  rw [← hcalls, ← hresult]

theorem Delivers.source_end {tokens : List Token} (h : Delivers source pos n tokens) :
    source (n + tokens.length) = .ended pos := by
  induction tokens generalizing n with
  | nil => exact h
  | cons t rest ih =>
    have := ih h.2
    rwa [List.length_cons, ← Nat.add_assoc, Nat.add_right_comm]

theorem Delivers.source_token {tokens : List Token} (h : Delivers source pos n tokens)
    (hi : i < tokens.length) : ∃ t ∈ tokens, source (n + i) = .token t := by
  induction tokens generalizing n i with
  | nil => cases hi
  | cons t rest ih =>
    cases i with
    | zero => exact ⟨t, List.mem_cons_self, h.1⟩
    | succ i =>
      obtain ⟨u, hu, hsource⟩ := ih h.2 (Nat.lt_of_succ_lt_succ hi)
      refine ⟨u, List.mem_cons_of_mem t hu, ?_⟩
      rw [← hsource, Nat.add_right_comm, Nat.add_assoc]

/-- A program is complete only with a token of the kind `eof`. -/
theorem Session.kind_of_take_ok {d : Delivery} {p : Program} (h : s.take d = .done (.ok p)) :
    (s.read d).kind = .eof := by
  unfold Session.take at h
  simp only at h
  split at h
  · cases h
  · split at h
    · assumption
    · cases h

/-- A program is complete only when the source has ended. -/
theorem Answers.length_lt_calls {tokens : List Token} {p : Program}
    (h : Answers source calls (.ok p)) (ht : ∀ t ∈ tokens, t.kind ≠ .eof)
    (hsource : Delivers source pos 0 tokens) : tokens.length < calls := by
  obtain ⟨n, s, rfl, -, htake⟩ := h
  refine Nat.succ_le_succ (Nat.le_of_not_lt fun hlt => ?_)
  obtain ⟨t, hmem, hn⟩ := hsource.source_token hlt
  rw [Nat.zero_add] at hn
  have hkind := Session.kind_of_take_ok htake
  rw [hn] at hkind
  exact ht t hmem hkind

end

end ThreeAddress.Parser
