import ThreeAddress.Proofs.Independence
import ThreeAddress.Proofs.Lines

/-! Programs one behind the other. The parser keeps what it has read and looks at it no more, so
behind a semicolon it goes on as it would start. -/
namespace ThreeAddress

/-- Where a program may end, an expression ends at a semicolon too. -/
theorem Reading.step_semicolon {r : Reading} {final t : Token} {progress : Progress}
    (hfinal : final.kind = .eof) (ht : t.kind = .op .semicolon)
    (h : r.step final = .ok progress) :
    ∃ e, progress = .whole e ∧ r.step t = .ok (.whole e) := by
  obtain ⟨outer, inner, operand⟩ := r
  cases operand with
  | none => simp [step, takeOperand, hfinal, Except.map] at h
  | some e =>
    cases outer with
    | nil =>
      refine ⟨inner.whole e, ?_, ?_⟩
      · simpa [step, takeOperator, leave, hfinal, eq_comm] using h
      · simp [step, takeOperator, leave, ht, Op.isMultiplicative, Op.isAdditive, Op.isRelational]
    | cons p outer => simp [step, takeOperator, leave, hfinal] at h

namespace Parser

/-- The open blocks, when the statements `base` stand before the outermost one. -/
def blocksBehind (base : List Stmt) : List Open → List Open
  | [] => []
  | [b] => [{ b with before := b.before ++ base }]
  | b :: c :: rest => b :: blocksBehind base (c :: rest)

namespace State

/-- The state that also has the statements `base`, in reverse, before all that it has read. -/
def behind (base : List Stmt) : State → State
  | ⟨[], stmts, phase⟩ => ⟨[], stmts ++ base, phase⟩
  | ⟨b :: blocks, stmts, phase⟩ => ⟨blocksBehind base (b :: blocks), stmts, phase⟩

variable {base : List Stmt} {s s' : State} {t final : Token}

theorem phase_behind (s : State) : (s.behind base).phase = s.phase := by
  obtain ⟨_ | ⟨b, blocks⟩, stmts, phase⟩ := s <;> rfl

theorem enter_behind (s : State) (phase : Phase) :
    (s.behind base).enter phase = (s.enter phase).behind base := by
  obtain ⟨_ | ⟨b, blocks⟩, stmts, phase'⟩ := s <;> rfl

theorem push_behind (s : State) (stmt : Stmt) :
    (s.behind base).push stmt = (s.push stmt).behind base := by
  obtain ⟨_ | ⟨b, blocks⟩, stmts, phase⟩ := s <;> rfl

theorem expect_behind (s : State) (kind : Kind) (t : Token) (phase : Phase) :
    (s.behind base).expect kind t phase = (s.expect kind t phase).map (behind base) := by
  unfold expect
  rw [enter_behind, apply_ite (Except.map (behind base))]
  rfl

theorem begin_behind (s : State) (purpose : Purpose) (t : Token) :
    (s.behind base).begin purpose t = (s.begin purpose t).map (behind base) := by
  unfold begin
  cases Reading.start.takeOperand t with
  | error e => rfl
  | ok r => exact congrArg Except.ok (enter_behind s _)

/-- Closing a block that is not the outermost one, or the outermost one. -/
theorem close_behind (base : List Stmt) (s : State) (b : Open) (blocks : List Open)
    (hs : s.blocks = b :: blocks) (t : Token) : ∃ b' blocks',
      (s.behind base).blocks = b' :: blocks' ∧
      (s.behind base).close b' blocks' t = (s.close b blocks t).behind base := by
  obtain ⟨_, stmts, phase⟩ := s
  subst hs
  obtain ⟨owner, opens, before⟩ := b
  cases blocks with
  | nil =>
    refine ⟨⟨owner, opens, before ++ base⟩, [], rfl, ?_⟩
    cases owner <;> rfl
  | cons c rest =>
    refine ⟨⟨owner, opens, before⟩, blocksBehind base (c :: rest), rfl, ?_⟩
    cases owner <;> rfl

theorem between_behind (s : State) (t : Token) :
    (s.behind base).between t = (s.between t).map (behind base) := by
  unfold between
  split
  · exact congrArg Except.ok (enter_behind s _)
  · exact congrArg Except.ok (enter_behind s _)
  · exact congrArg Except.ok (enter_behind s _)
  · exact congrArg Except.ok (enter_behind s _)
  · exact congrArg Except.ok (push_behind s _)
  · exact congrArg Except.ok (push_behind s _)
  · cases hblocks : s.blocks with
    | nil =>
      have hbehind : (s.behind base).blocks = [] := by
        obtain ⟨_, stmts, phase⟩ := s
        subst hblocks
        rfl
      simp only [hbehind, apply_ite (Except.map (behind base)), enter_behind, begin_behind]
      rfl
    | cons b blocks =>
      obtain ⟨b', blocks', hbehind, hclose⟩ := close_behind base s b blocks hblocks t
      simp only [hbehind, apply_ite (Except.map (behind base)), hclose, begin_behind]
      rfl

theorem closeRange_behind (s : State) (start word : Pos) (var : Name) (args : List Expr)
    (t : Token) : (s.behind base).closeRange start var word args t =
      (s.closeRange start var word args t).map (behind base) := by
  unfold closeRange
  simp only [expect_behind]
  split <;> rfl

theorem complete_behind (s : State) (purpose : Purpose) (e : Expr) (t : Token) :
    (s.behind base).complete purpose e t = (s.complete purpose e t).map (behind base) := by
  cases purpose with
  | simple =>
    simp only [complete, push_behind, between_behind, apply_ite (Except.map (behind base))]
    refine ite_congr rfl (fun _ => ?_) fun _ => rfl
    cases e.name? with
    | none => rfl
    | some target => exact congrArg Except.ok (enter_behind s _)
  | assigned target op => simp only [complete, push_behind, between_behind]
  | guard start done => exact expect_behind s _ t _
  | loopGuard start => exact expect_behind s _ t _
  | bound start var word args =>
    simp only [complete, closeRange_behind, apply_ite (Except.map (behind base))]
    exact ite_congr rfl (fun _ => congrArg Except.ok (enter_behind s _)) fun _ => rfl

/-- The parser takes a token in without a look at the statements that it has. -/
theorem step_behind (s : State) (t : Token) :
    (s.behind base).step t = (s.step t).map (behind base) := by
  unfold step
  rw [phase_behind, apply_ite (Except.map (behind base))]
  refine ite_congr rfl (fun _ => rfl) fun _ => ?_
  cases s.phase with
  | between => exact between_behind s t
  | expr purpose reading =>
    simp only
    cases reading.step t with
    | error e => rfl
    | ok progress =>
      cases progress with
      | more r => exact congrArg Except.ok (enter_behind s _)
      | whole e => exact complete_behind s purpose e t
  | loopName start => exact expect_behind s _ t _
  | loopIn start var => exact expect_behind s _ t _
  | loopRange start var => exact expect_behind s _ t _
  | rangeOpen start var word => exact expect_behind s _ t _
  | firstBound start var word =>
    simp only [begin_behind, apply_ite (Except.map (behind base))]
    rfl
  | loopColon start var range => exact expect_behind s _ t _
  | elseColon start done => exact expect_behind s _ t _
  | brace owner =>
    simp only [apply_ite (Except.map (behind base))]
    refine ite_congr rfl (fun _ => ?_) fun _ => rfl
    obtain ⟨_ | ⟨b, blocks⟩, stmts, phase⟩ := s <;> rfl
  | afterBranch start done stop =>
    simp only [push_behind, between_behind, apply_ite (Except.map (behind base))]
    exact ite_congr rfl (fun _ => congrArg Except.ok (enter_behind s _)) fun _ =>
      ite_congr rfl (fun _ => congrArg Except.ok (enter_behind s _)) fun _ => rfl

theorem Runs.behind {ts : List Token} (h : Runs s ts s') (base : List Stmt) :
    Runs (s.behind base) ts (s'.behind base) := by
  induction h with
  | nil => exact .nil
  | cons hstep _ ih => exact .cons (by rw [step_behind, hstep]; rfl) ih

theorem Runs.relocate {f : Pos → Pos} (hf : Pos.Rigid f) {ts : List Token} (h : Runs s ts s')
    (hs : s.phase.Present) :
    Runs (s.relocate f) (ts.map (Token.relocate f)) (s'.relocate f) ∧ s'.phase.Present := by
  induction h with
  | nil => exact ⟨.nil, hs⟩
  | cons hstep _ ih =>
    obtain ⟨hruns, hpresent⟩ := ih (present_step hs hstep)
    exact ⟨.cons (by rw [step_relocate hf hs, hstep]; rfl) hruns, hpresent⟩

theorem between_semicolon (hfinal : final.kind = .eof) (ht : t.kind = .op .semicolon)
    (h : s.between final = .ok s') :
    s.between t = .ok s' ∧ s' = State.initial.behind s'.stmts := by
  obtain ⟨blocks, stmts, phase⟩ := s
  cases blocks with
  | nil =>
    have hs' : s' = ⟨[], stmts, .between⟩ := by
      simpa [between, hfinal, enter, eq_comm] using h
    subst hs'
    exact ⟨by simp [between, ht, enter], rfl⟩
  | cons b blocks => simp [between, hfinal] at h

/-- Where a program may end, a semicolon may come; the parser is then where it started, but for the
statements of the program. -/
theorem step_semicolon (hfinal : final.kind = .eof) (ht : t.kind = .op .semicolon)
    (h : s.step final = .ok s') : s.step t = .ok s' ∧ s' = State.initial.behind s'.stmts := by
  obtain ⟨blocks, stmts, phase⟩ := s
  cases phase with
  | between =>
    simp only [step, hfinal, reduceCtorEq, if_false] at h
    simp only [step, ht, reduceCtorEq, if_false]
    exact between_semicolon hfinal ht h
  | expr purpose reading =>
    simp only [step, hfinal, reduceCtorEq, if_false] at h
    cases hreading : reading.step final with
    | error e => simp [hreading] at h
    | ok progress =>
      obtain ⟨e, rfl, hsemicolon⟩ := Reading.step_semicolon hfinal ht hreading
      simp only [hreading] at h
      simp only [step, ht, reduceCtorEq, if_false, hsemicolon]
      cases purpose with
      | simple =>
        simp only [complete, hfinal, Kind.isAssign, Bool.false_eq_true, if_false] at h
        simp only [complete, ht, Kind.isAssign, Op.isAssign, Bool.false_eq_true, if_false]
        exact between_semicolon hfinal ht h
      | assigned target op => exact between_semicolon hfinal ht h
      | guard start done => simp [complete, expect, hfinal] at h
      | loopGuard start => simp [complete, expect, hfinal] at h
      | bound start var word args =>
        have hclose : ∀ phase, State.expect ⟨blocks, stmts, .expr (.bound start var word args)
            reading⟩ (.op .rparen) final phase ≠ .ok s' := by simp [expect, hfinal]
        simp only [complete, hfinal, reduceCtorEq, if_false, closeRange] at h
        split at h <;> first | exact absurd h (hclose _) | cases h
  | afterBranch start done stop =>
    simp only [step, hfinal, reduceCtorEq, if_false] at h
    simp only [step, ht, reduceCtorEq, if_false]
    exact between_semicolon hfinal ht h
  | _ => simp [step, expect, begin, hfinal, Reading.takeOperand, Except.map] at h

end State

end Parser

open ThreeAddress.Parser Text

theorem Program.runs_of_parse {source : Text} {p : Program} (h : Program.parse source = .ok p) :
    ∃ s s', State.Runs .initial (Token.tokenize source) s ∧
      s.step (Token.endOf source) = .ok s' ∧ p.stmts = s'.stmts.reverse := by
  have ht : ∀ t ∈ Token.tokenize source, t.kind ≠ .eof :=
    fun t ht => (Token.tokenize_lexed source t ht).kind_ne_eof
  obtain ⟨s, s', hruns, hfinal, rfl⟩ := runs_of_parseTokens ht h
  rw [finalToken_endOf] at hfinal
  exact ⟨s, s', hruns, hfinal, rfl⟩

theorem Program.parse_of_runs {source : Text} {s s' : State}
    (hruns : State.Runs .initial (Token.tokenize source) s)
    (hfinal : s.step (Token.endOf source) = .ok s') :
    ∃ p, Program.parse source = .ok p ∧ p.stmts = s'.stmts.reverse := by
  have ht : ∀ t ∈ Token.tokenize source, t.kind ≠ .eof :=
    fun t ht => (Token.tokenize_lexed source t ht).kind_ne_eof
  have hc := consume_complete hruns ht hfinal 0
  unfold Program.parse parseTokens
  simp only [finalToken_endOf, hc]
  exact ⟨_, rfl, rfl⟩

theorem Token.relocate_line (a : Text) (t : Token) :
    (t.relocate (Pos.shift 1 2)).relocate (Pos.shift (a.count lineFeed + 1) (a.length + 1)) =
      t.relocate (Pos.shift (a.count lineFeed + 2) (a.length + 3)) :=
  congrArg (Token.mk t.kind t.text) (Pos.shift_shift _ _ _ _ _)

/-- The line with the semicolon is one token. -/
theorem Token.tokenize_joined (a b : Text) : ∃ pos,
    Token.tokenize (a ++ lineFeed :: ascii ';' :: lineFeed :: b) = Token.tokenize a ++
      ⟨.op .semicolon, [ascii ';'], pos⟩ :: (Token.tokenize b).map
        (Token.relocate (Pos.shift (a.count lineFeed + 2) (a.length + 3))) := by
  have hline : Token.tokenize (ascii ';' :: lineFeed :: b) =
      ⟨.op .semicolon, [ascii ';'], Pos.first⟩ ::
        (Token.tokenize b).map (Token.relocate (Pos.shift 1 2)) :=
    Token.tokenize_lineFeed [ascii ';'] b
  refine ⟨Pos.shift (a.count lineFeed + 1) (a.length + 1) Pos.first, ?_⟩
  rw [Token.tokenize_lineFeed, hline, List.map_cons, List.map_map,
    ← List.map_congr_left fun t _ => Token.relocate_line a t]
  rfl

theorem Token.endOf_joined (a b : Text) :
    Token.endOf (a ++ lineFeed :: ascii ';' :: lineFeed :: b) =
      (Token.endOf b).relocate (Pos.shift (a.count lineFeed + 2) (a.length + 3)) := by
  have hline : Token.endOf (ascii ';' :: lineFeed :: b) =
      (Token.endOf b).relocate (Pos.shift 1 2) := Token.endOf_lineFeed [ascii ';'] b
  rw [Token.endOf_lineFeed, hline, Token.relocate_line]

/-- Two programs with a line between them that is a semicolon are one program: its statements are
those of the first, and behind them those of the second, so many lines and bytes further on. -/
theorem programs_concatenate (a b : Text) (p q : Program) (ha : Program.parse a = .ok p)
    (hb : Program.parse b = .ok q) :
    ∃ r, Program.parse (a ++ lineFeed :: ascii ';' :: lineFeed :: b) = .ok r ∧
      r.stmts = p.stmts ++
        q.stmts.map (Stmt.relocate (Pos.shift (a.count lineFeed + 2) (a.length + 3))) := by
  obtain ⟨pos, htokens⟩ := Token.tokenize_joined a b
  have hend := Token.endOf_joined a b
  have hrigid := Pos.rigid_shift (a.count lineFeed + 2) (a.length + 3)
  generalize Pos.shift (a.count lineFeed + 2) (a.length + 3) = move at *
  obtain ⟨s₁, s₁', hruns₁, hfinal₁, hp⟩ := Program.runs_of_parse ha
  obtain ⟨s₂, s₂', hruns₂, hfinal₂, hq⟩ := Program.runs_of_parse hb
  -- after the semicolon the state is the initial one, behind the statements of the first program
  have hkind : Token.kind ⟨.op .semicolon, [ascii ';'], pos⟩ = .op .semicolon := rfl
  obtain ⟨hsemicolon, hbehind⟩ := State.step_semicolon rfl hkind hfinal₁
  obtain ⟨-, htop⟩ := State.step_semicolon rfl hkind hfinal₂
  obtain ⟨hmoved, hpresent⟩ := hruns₂.relocate hrigid trivial
  have hruns : State.Runs .initial (Token.tokenize (a ++ lineFeed :: ascii ';' :: lineFeed :: b))
      ((s₂.relocate move).behind s₁'.stmts) := by
    rw [htokens]
    refine hruns₁.append (.cons hsemicolon ?_)
    rw [hbehind]
    exact hmoved.behind s₁'.stmts
  have hfinal : ((s₂.relocate move).behind s₁'.stmts).step
      (Token.endOf (a ++ lineFeed :: ascii ';' :: lineFeed :: b)) =
        .ok ((s₂'.relocate move).behind s₁'.stmts) := by
    rw [hend, State.step_behind, State.step_relocate hrigid hpresent, hfinal₂]
    rfl
  obtain ⟨r, hr, hstmts⟩ := Program.parse_of_runs hruns hfinal
  refine ⟨r, hr, ?_⟩
  have hlast : ((s₂'.relocate move).behind s₁'.stmts).stmts =
      s₂'.stmts.map (Stmt.relocate move) ++ s₁'.stmts := by
    rw [htop]
    simp [State.initial, State.behind, State.relocate]
  rw [hstmts, hlast, hp, hq, List.reverse_append, List.map_reverse]

/-- A comment at the end of the first program does not reach the semicolon, and a line feed at the
start of the second still counts. -/
theorem comment_ends_before_next_program : ∃ p q r, Program.parse "x = y # z" = .ok p ∧
    Program.parse "\nbreak" = .ok q ∧ Program.parse "x = y # z\n;\n\nbreak" = .ok r ∧
      r.stmts = p.stmts ++ q.stmts.map (Stmt.relocate (Pos.shift 2 12)) ∧
      r.stmts.map Stmt.span = [⟨⟨1, 1, 0⟩, ⟨1, 6, 5⟩⟩, ⟨⟨4, 1, 13⟩, ⟨4, 6, 18⟩⟩] := by
  have hp : Program.parse "x = y # z" = .ok ⟨⟨⟨1, 1, 0⟩, ⟨1, 10, 9⟩⟩,
      [.assign ⟨⟨1, 1, 0⟩, ⟨1, 6, 5⟩⟩ ⟨⟨⟨1, 1, 0⟩, ⟨1, 2, 1⟩⟩, "x"⟩ (.op .assign)
        (.name ⟨⟨⟨1, 5, 4⟩, ⟨1, 6, 5⟩⟩, "y"⟩)]⟩ := rfl
  have hq : Program.parse "\nbreak" = .ok ⟨⟨⟨2, 1, 1⟩, ⟨2, 6, 6⟩⟩,
      [.breakLoop ⟨⟨2, 1, 1⟩, ⟨2, 6, 6⟩⟩]⟩ := rfl
  obtain ⟨r, hr, hstmts⟩ := programs_concatenate "x = y # z" "\nbreak" _ _ hp hq
  exact ⟨_, _, r, hp, hq, hr, hstmts, by rw [hstmts]; rfl⟩

end ThreeAddress
