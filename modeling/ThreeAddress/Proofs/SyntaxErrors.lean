import ThreeAddress.Proofs.Parsing

/-! A syntax error stands at the first token with which no program goes on, and each kind that it
lists as expected is one with which some program does. Both come from one fact: from every state of
the parser some tokens lead to the end of a program, unless `range` has more than three arguments,
which is noticed only when they are complete. -/
namespace ThreeAddress

namespace Grammar

/-- Somewhere in the words there are arguments of `range` with a third comma. -/
inductive ThirdComma : List Word → Prop
  | mk {before vs₁ vs₂ vs₃ after : List Word} {r o c₁ c₂ c₃ : Word} {e₁ e₂ e₃ : Expr} :
      r.kind = .keyword .rangeWord → o.kind = .op .lparen →
      Expression .expr vs₁ e₁ → c₁.kind = .op .comma →
      Expression .expr vs₂ e₂ → c₂.kind = .op .comma →
      Expression .expr vs₃ e₃ → c₃.kind = .op .comma →
      ThirdComma (before ++ r :: o :: (vs₁ ++ c₁ :: (vs₂ ++ c₂ :: (vs₃ ++ c₃ :: after))))

theorem ThirdComma.mem {ws : List Word} (h : ThirdComma ws) :
    ∃ w ∈ ws, w.kind = .keyword .rangeWord := by
  cases h with
  | @mk _ _ _ _ _ r _ _ _ _ _ _ _ hr => exact ⟨r, by simp, hr⟩

end Grammar

namespace Parser

open Grammar

/-- A token of the given kind that is accepted wherever the kind is. -/
def sample : Kind → Token
  | .number => ⟨.number, "0", .unknown⟩
  | kind => ⟨kind, kind.describe, .unknown⟩

@[simp] theorem sample_kind (kind : Kind) : (sample kind).kind = kind := by
  cases kind <;> rfl

/-- The token is of the kind that messages call `w`; any that starts a statement may stand for
"statement". -/
def Meant (w : Text) (t : Token) : Prop :=
  t.kind.describe = w ∨ (w = Text.ofString "statement" ∧ startsStmt t.kind)

theorem meant_sample (kind : Kind) : Meant kind.describe (sample kind) :=
  Or.inl (by rw [sample_kind])

end Parser

namespace Reading

open ThreeAddress.Parser

variable {r r' : Reading} {t : Token} {e : SyntaxError} {w : Text}

theorem Reads.kind_ne_eof {ts : List Token} (h : Reads r ts r') : ∀ t ∈ ts, t.kind ≠ .eof := by
  induction h with
  | nil => simp
  | cons hstep _ ih =>
    intro t ht
    rcases List.mem_cons.1 ht with rfl | ht
    · exact (kind_of_more hstep).1
    · exact ih t ht

/-- The parentheses that are open can be closed. -/
theorem reads_closing (outer : List Pending) (inner : Pending) (o : Expr) :
    ∃ ts r' o', Reads ⟨outer, inner, some o⟩ ts r' ∧ r'.operand = some o' ∧ r'.outer = [] := by
  induction outer generalizing inner o with
  | nil => exact ⟨[], _, o, .nil, rfl, rfl⟩
  | cons p outer ih =>
    have hstep := step_close (r := ⟨p :: outer, inner, some o⟩) rfl rfl
      (sample_kind (.op .rparen))
    obtain ⟨ts, r', o', hreads, ho', hout⟩ := ih p (inner.whole o)
    exact ⟨_ :: ts, r', o', .cons hstep hreads, ho', hout⟩

/-- Some tokens go on to where the expression may end. -/
theorem reads_completion (r : Reading) :
    ∃ ts r' o, Reads r ts r' ∧ r'.operand = some o ∧ r'.outer = [] := by
  obtain ⟨outer, inner, operand⟩ := r
  cases operand with
  | some o => exact reads_closing outer inner o
  | none =>
    have hstep : step ⟨outer, inner, none⟩ (sample .name) =
        .ok (.more ⟨outer, inner, some (.name ⟨(sample .name).span, (sample .name).text⟩)⟩) := rfl
    obtain ⟨ts, r', o, hreads, ho, hout⟩ := reads_closing outer inner
      (.name ⟨(sample .name).span, (sample .name).text⟩)
    exact ⟨_ :: ts, r', o, .cons hstep hreads, ho, hout⟩

/-- Each of the kinds that messages list as the start of an expression is one. -/
theorem takeOperand_of_mem (r : Reading) (hw : w ∈ operandStarts) :
    ∃ u r', u.kind.describe = w ∧ u.kind.startsOperand ∧ r.takeOperand u = .ok r' := by
  have hkinds : operandStarts = [Kind.number, .name, .keyword .trueWord, .keyword .falseWord,
      .op .lparen, .op .plus, .op .minus, .op .not].map Kind.describe := by decide
  rw [hkinds] at hw
  obtain ⟨kind, hmem, rfl⟩ := List.mem_map.1 hw
  refine ⟨sample kind, ?_⟩
  simp only [List.mem_cons, List.not_mem_nil, or_false] at hmem
  rcases hmem with rfl | rfl | rfl | rfl | rfl | rfl | rfl | rfl
  all_goals exact ⟨_, rfl, rfl, rfl⟩

theorem numberLeaf_error (h : numberLeaf t = .error e) : e.pos = t.pos ∧ e.want = [] := by
  unfold numberLeaf at h
  split at h
  · cases h
    exact ⟨rfl, rfl⟩
  · split at h
    · cases h
      exact ⟨rfl, rfl⟩
    · cases h

/-- A token that is no operand may be of a kind that is none, or a number that cannot be read. -/
theorem takeOperand_error (h : r.takeOperand t = .error e) : e.pos = t.pos ∧
    (e.want = [] ∨ (e.want = operandStarts ∧ t.kind.startsOperand = false)) := by
  unfold takeOperand at h
  split at h
  · cases hleaf : numberLeaf t with
    | ok o => simp [hleaf, Except.map] at h
    | error f =>
      simp only [hleaf, Except.map, Except.error.injEq] at h
      subst h
      obtain ⟨hpos, hwant⟩ := numberLeaf_error hleaf
      exact ⟨hpos, Or.inl hwant⟩
  · cases h
  · cases h
  · cases h
  · cases h
  · rename_i o hne hk
    split at h
    · cases h
    · rename_i hsign
      cases h
      refine ⟨rfl, Or.inr ⟨rfl, ?_⟩⟩
      have hparen : o ≠ .lparen := hne
      simpa [hk, Kind.startsOperand, hparen] using hsign
  · rename_i hnumber hname htrue hfalse hparen hop
    cases h
    refine ⟨rfl, Or.inr ⟨rfl, ?_⟩⟩
    cases hk : t.kind with
    | keyword k => cases k <;> simp_all [Kind.startsOperand]
    | _ => simp_all [Kind.startsOperand]

theorem leave_error {o : Expr} (ho : r.operand = some o) (h : r.leave o t = .error e) :
    e.pos = t.pos ∧ ∀ w ∈ e.want, ∃ u r', u.kind.describe = w ∧ r.step u = .ok (.more r') := by
  unfold leave at h
  split at h
  · cases h
  · rename_i p outer hout
    split at h
    · cases h
    · cases h
      refine ⟨rfl, ?_⟩
      intro w hw
      obtain rfl : w = Kind.describe (.op .rparen) := List.mem_singleton.1 hw
      exact ⟨sample (.op .rparen), _, rfl, step_close ho hout rfl⟩

theorem step_error (h : r.step t = .error e) : e.pos = t.pos ∧
    ∀ w ∈ e.want, ∃ u r', u.kind.describe = w ∧ r.step u = .ok (.more r') := by
  unfold step at h
  split at h
  · rename_i hnone
    cases htake : r.takeOperand t with
    | ok r' => simp [htake, Except.map] at h
    | error f =>
      simp only [htake, Except.map, Except.error.injEq] at h
      subst h
      obtain ⟨hpos, hwant | ⟨hwant, -⟩⟩ := takeOperand_error htake
      · exact ⟨hpos, by simp [hwant]⟩
      · refine ⟨hpos, fun w hw => ?_⟩
        obtain ⟨u, r', hu, -, hr'⟩ := takeOperand_of_mem r (hwant ▸ hw)
        exact ⟨u, r', hu, by simp [step, hnone, hr', Except.map]⟩
  · rename_i o ho
    unfold takeOperator at h
    split at h
    · split at h
      · cases h
      · split at h
        · cases h
        · split at h
          · split at h
            · cases h
              exact ⟨rfl, by simp [SyntaxError.want]⟩
            · cases h
          · exact leave_error ho h
    · exact leave_error ho h

/-- What is known when a token shows the expression to be complete. -/
theorem operand_of_whole {e : Expr} (h : r.step t = .ok (.whole e)) :
    ∃ o, r.operand = some o ∧ r.outer = [] ∧ e = r.inner.whole o := by
  unfold step at h
  split at h
  · cases htake : r.takeOperand t <;> simp [htake, Except.map] at h
  · rename_i o ho
    have hleave : ∀ {t : Token}, r.leave o t = .ok (.whole e) →
        r.outer = [] ∧ e = r.inner.whole o := by
      intro t hl
      unfold leave at hl
      split at hl
      · rename_i hout
        cases hl
        exact ⟨hout, rfl⟩
      · split at hl <;> cases hl
    refine ⟨o, ho, ?_⟩
    unfold takeOperator at h
    split at h
    · split at h
      · cases h
      · split at h
        · cases h
        · split at h
          · split at h <;> cases h
          · exact hleave h
    · exact hleave h

end Reading

namespace Parser

open Grammar

/-- What may follow a statement is no further clause of a chain. -/
theorem Follows.not_clause {simple : Bool} {t : Token} (h : Follows simple t) :
    t.kind ≠ .keyword .elifWord ∧ t.kind ≠ .keyword .elseWord := by
  constructor
  all_goals
    intro hk
    obtain ⟨h | h | h | h, -⟩ := h <;> simp [hk, startsStmt, Kind.startsOperand] at h

/-- No more than two arguments of `range` are complete when another is read. -/
def Purpose.Small : Purpose → Prop
  | .bound _ _ _ args => args.length ≤ 2
  | _ => True

def Phase.Small : Phase → Prop
  | .expr purpose _ => purpose.Small
  | _ => True

namespace State

/-- Some tokens lead from the state to the end of a program. -/
def Completable (s : State) : Prop :=
  ∃ rest stmts, (∀ t ∈ rest, t.kind ≠ .eof) ∧ Runs s rest ⟨[], stmts, .between⟩

variable {s s' : State} {t : Token} {e : SyntaxError}

theorem Completable.of_runs {ts : List Token} (hruns : Runs s ts s') (ht : ∀ t ∈ ts, t.kind ≠ .eof)
    (h : s'.Completable) : s.Completable := by
  obtain ⟨rest, stmts, hrest, hend⟩ := h
  refine ⟨ts ++ rest, stmts, ?_, hruns.append hend⟩
  intro u hu
  rcases List.mem_append.1 hu with hu | hu
  · exact ht u hu
  · exact hrest u hu

theorem Completable.of_step (kind : Kind) (hkind : kind ≠ .eof)
    (hstep : s.step (sample kind) = .ok s') (h : s'.Completable) : s.Completable :=
  h.of_runs (.single hstep) (by simp [hkind])

/-- The open blocks can be closed. After a branch a semicolon tells that the chain ends. -/
theorem completable_between (blocks : List Open) (stmts : List Stmt) :
    Completable ⟨blocks, stmts, .between⟩ := by
  induction blocks generalizing stmts with
  | nil => exact ⟨[], stmts, by simp, .nil⟩
  | cons b blocks ih =>
    have hclose : step ⟨b :: blocks, stmts, .between⟩ (sample (.op .rbrace)) =
        .ok (close ⟨b :: blocks, stmts, .between⟩ b blocks (sample (.op .rbrace))) := rfl
    refine .of_step (.op .rbrace) (by simp) hclose ?_
    unfold close
    cases b.owner with
    | branch => exact .of_step (.op .semicolon) (by simp) rfl (ih _)
    | otherwise | whileBody | forBody => exact ih _

theorem completable_brace (s : State) (owner : Owner) : (s.enter (.brace owner)).Completable :=
  .of_step (.op .lbrace) (by simp) rfl (completable_between _ _)

theorem completable_loopColon (s : State) (start : Pos) (var : Name) (range : Range) :
    (s.enter (.loopColon start var range)).Completable :=
  .of_step (.op .colon) (by simp) rfl (completable_brace _ _)

/-- Up to three arguments of `range` may be followed by the parenthesis that closes them. -/
theorem closeRange_eq (s : State) (start word : Pos) (var : Name) {args : List Expr}
    (hne : args ≠ []) (hlen : args.length ≤ 3) : ∃ range, ∀ t,
      s.closeRange start var word args t =
        s.expect (.op .rparen) t (.loopColon start var range) := by
  unfold closeRange
  split
  · exact ⟨_, fun t => rfl⟩
  · exact ⟨_, fun t => rfl⟩
  · exact ⟨_, fun t => rfl⟩
  · rename_i hargs
    have hcount := congrArg List.length hargs
    simp only [List.length_reverse, List.length_cons] at hcount
    omega
  · rename_i hargs
    exact absurd (List.reverse_eq_nil_iff.1 hargs) hne

theorem complete_bound (s : State) (start word : Pos) (var : Name) {args : List Expr} (x : Expr)
    (hlen : args.length ≤ 2) : ∃ range, ∀ t, t.kind ≠ .op .comma →
      s.complete (.bound start var word args) x t =
        s.expect (.op .rparen) t (.loopColon start var range) := by
  have hargs : (x :: args).length ≤ 3 := by
    rw [List.length_cons]
    omega
  obtain ⟨range, hrange⟩ := s.closeRange_eq start word var (List.cons_ne_nil x args) hargs
  refine ⟨range, fun t ht => ?_⟩
  rw [complete, if_neg ht]
  exact hrange t

/-- Whatever an expression is read for, some token may follow it. -/
theorem completable_complete (s : State) (purpose : Purpose) (hsmall : purpose.Small) (x : Expr) :
    ∃ kind s', kind ≠ .eof ∧ Ends (sample kind) ∧ s.complete purpose x (sample kind) = .ok s' ∧
      s'.Completable := by
  cases purpose with
  | simple | assigned =>
    exact ⟨.op .semicolon, _, by simp, ends_of_kind rfl rfl, rfl, completable_between _ _⟩
  | guard | loopGuard =>
    exact ⟨.op .colon, _, by simp, ends_of_kind rfl rfl, rfl, completable_brace _ _⟩
  | bound start var word args =>
    obtain ⟨range, hrange⟩ := s.complete_bound start word var x hsmall
    refine ⟨.op .rparen, s.enter (.loopColon start var range), by simp, ends_of_kind rfl rfl, ?_,
      completable_loopColon _ _ _ _⟩
    rw [hrange _ (by simp)]
    rfl

theorem completable_expr (s : State) (purpose : Purpose) (hsmall : purpose.Small) (r : Reading) :
    (s.enter (.expr purpose r)).Completable := by
  obtain ⟨ts, r', o, hreads, ho, hout⟩ := r.reads_completion
  obtain ⟨kind, s', hkind, hends, hcomplete, hs'⟩ :=
    (s.enter (.expr purpose r')).completable_complete purpose hsmall (r'.inner.whole o)
  have hstep := (step_expr rfl ho hout hends).trans hcomplete
  exact (Completable.of_step kind hkind hstep hs').of_runs (runs_reading hreads purpose s)
    hreads.kind_ne_eof

/-- From every state some tokens lead to the end of a program. -/
theorem completable_of_small (h : s.phase.Small) : s.Completable := by
  obtain ⟨blocks, stmts, phase⟩ := s
  let s : State := ⟨blocks, stmts, .between⟩
  -- the phases in the head of a loop, from the last to the first
  have hbound : ∀ start var word, (s.enter (.firstBound start var word)).Completable := by
    intro start var word
    exact .of_step .name (by simp) rfl
      (s.completable_expr (.bound start var word []) (Nat.zero_le 2) _)
  have hopen : ∀ start var word, (s.enter (.rangeOpen start var word)).Completable :=
    fun _ _ _ => .of_step (.op .lparen) (by simp) rfl (hbound _ _ _)
  have hrange : ∀ start var, (s.enter (.loopRange start var)).Completable :=
    fun _ _ => .of_step (.keyword .rangeWord) (by simp) rfl (hopen _ _ _)
  have hin : ∀ start var, (s.enter (.loopIn start var)).Completable :=
    fun _ _ => .of_step (.keyword .inWord) (by simp) rfl (hrange _ _)
  cases phase with
  | between => exact completable_between blocks stmts
  | expr purpose r => exact s.completable_expr purpose h r
  | loopName start => exact .of_step .name (by simp) rfl (hin _ _)
  | loopIn start var => exact hin start var
  | loopRange start var => exact hrange start var
  | rangeOpen start var word => exact hopen start var word
  | firstBound start var word => exact hbound start var word
  | loopColon start var range => exact s.completable_loopColon start var range
  | elseColon start done => exact .of_step (.op .colon) (by simp) rfl (s.completable_brace _)
  | brace owner => exact s.completable_brace owner
  | afterBranch start done stop =>
    exact .of_step (.op .semicolon) (by simp) rfl (completable_between _ _)

/-- The error is at the token `t`, and in its place a token of any of the kinds that are listed
would have been taken in. -/
def Honest (s : State) (t : Token) (e : SyntaxError) : Prop :=
  e.pos = t.pos ∧ ∀ w ∈ e.want, ∃ u s', Meant w u ∧ u.kind ≠ .eof ∧ s.step u = .ok s' ∧
    s'.phase.Small

theorem Honest.of_want_nil (hpos : e.pos = t.pos) (hwant : e.want = []) : s.Honest t e :=
  ⟨hpos, by simp [hwant]⟩

/-- Where only the kind `kind` is accepted, it is also the one that is listed. -/
theorem honest_expect {base : State} {kind : Kind} {phase : Phase}
    (h : base.expect kind t phase = .error e) (hkind : kind ≠ .eof)
    (hstep : s.step (sample kind) = .ok s') (hsmall : s'.phase.Small) : s.Honest t e := by
  unfold expect at h
  split at h
  · cases h
  · cases h
    refine ⟨rfl, ?_⟩
    intro w hw
    obtain rfl : w = kind.describe := List.mem_singleton.1 hw
    exact ⟨sample kind, s', meant_sample kind, by simpa using hkind, hstep, hsmall⟩

theorem begin_error {purpose : Purpose} (h : s.begin purpose t = .error e) :
    Reading.start.takeOperand t = .error e := by
  unfold begin at h
  cases htake : Reading.start.takeOperand t with
  | ok r => simp [htake, Except.map] at h
  | error f =>
    simp only [htake, Except.map, Except.error.injEq] at h
    rw [h]

theorem between_rbrace {b : Open} {blocks : List Open} (hb : s.blocks = b :: blocks) :
    ∃ s', s.between (sample (.op .rbrace)) = .ok s' ∧ s'.phase.Small := by
  refine ⟨s.close b blocks (sample (.op .rbrace)), ?_, ?_⟩
  · simp [between, hb]
  · unfold close
    cases b.owner <;> exact True.intro

theorem between_name (s : State) :
    ∃ s', s.between (sample .name) = .ok s' ∧ s'.phase.Small := by
  obtain ⟨blocks, stmts, phase⟩ := s
  cases blocks <;> exact ⟨_, rfl, True.intro⟩

/-- Between two statements there are two errors, and both list what may come. -/
theorem between_error (h : s.between t = .error e) : e.pos = t.pos ∧ ∀ w ∈ e.want, ∃ u s',
    Meant w u ∧ u.kind ≠ .eof ∧ Follows true u ∧ s.between u = .ok s' ∧ s'.phase.Small := by
  have hbegin : t.kind.startsOperand → s.begin .simple t = .error e →
      e.pos = t.pos ∧ e.want = [] := by
    intro hstart hbegin
    obtain ⟨hpos, hwant | ⟨-, hnot⟩⟩ := Reading.takeOperand_error (begin_error hbegin)
    · exact ⟨hpos, hwant⟩
    · rw [hstart] at hnot
      cases hnot
  have hstmt : ∀ w ∈ [Text.ofString "statement"], ∃ u s',
      Meant w u ∧ u.kind ≠ .eof ∧ Follows true u ∧ s.between u = .ok s' ∧ s'.phase.Small := by
    intro w hw
    obtain rfl := List.mem_singleton.1 hw
    obtain ⟨s', hs', hsmall⟩ := s.between_name
    refine ⟨sample .name, s', Or.inr ⟨rfl, rfl⟩, by simp, ⟨?_, fun _ => rfl⟩, hs', hsmall⟩
    exact Or.inr (Or.inr (Or.inr rfl))
  unfold between at h
  split at h
  · cases h
  · cases h
  · cases h
  · cases h
  · cases h
  · cases h
  · split at h
    · split at h
      · cases h
      · split at h
        · rename_i hstart
          obtain ⟨hpos, hwant⟩ := hbegin hstart h
          exact ⟨hpos, by simp [hwant]⟩
        · cases h
          exact ⟨rfl, hstmt⟩
    · rename_i b blocks hb
      split at h
      · cases h
      · split at h
        · cases h
          refine ⟨rfl, ?_⟩
          intro w hw
          obtain rfl : w = Kind.describe (.op .rbrace) := List.mem_singleton.1 hw
          obtain ⟨s', hs', hsmall⟩ := between_rbrace hb
          exact ⟨sample (.op .rbrace), s', meant_sample _, by simp,
            ⟨Or.inr (Or.inl rfl), fun _ => rfl⟩, hs', hsmall⟩
        · split at h
          · rename_i hstart
            obtain ⟨hpos, hwant⟩ := hbegin hstart h
            exact ⟨hpos, by simp [hwant]⟩
          · cases h
            exact ⟨rfl, hstmt⟩

/-- The same where the state is about to be between two statements. -/
theorem honest_between {base : State}
    (hstep : ∀ u, Follows true u → s.step u = base.between u) (h : base.between t = .error e) :
    s.Honest t e := by
  obtain ⟨hpos, hwant⟩ := between_error h
  refine ⟨hpos, fun w hw => ?_⟩
  obtain ⟨u, s', hmeant, hne, hfollows, hs', hsmall⟩ := hwant w hw
  exact ⟨u, s', hmeant, hne, (hstep u hfollows).trans hs', hsmall⟩

/-- The token `t` shows the expression to be complete, but may not come after it. -/
theorem honest_complete {purpose : Purpose} {r : Reading} {x : Expr}
    (hphase : s.phase = .expr purpose r) (hsmall : purpose.Small)
    (hr : r.step t = .ok (.whole x)) (h : s.complete purpose x t = .error e) : s.Honest t e := by
  obtain ⟨o, ho, hout, rfl⟩ := Reading.operand_of_whole hr
  have hstep : ∀ {u : Token}, Ends u → s.step u = s.complete purpose (r.inner.whole o) u :=
    fun hu => step_expr hphase ho hout hu
  cases purpose with
  | simple =>
    simp only [complete] at h
    split at h
    · split at h
      · cases h
      · cases h
        exact .of_want_nil rfl rfl
    · refine honest_between (fun u hu => ?_) h
      rw [hstep hu.ends]
      simp [complete, hu.not_assign]
  | assigned target op =>
    exact honest_between (fun u hu => hstep hu.ends) h
  | guard | loopGuard =>
    exact honest_expect h (by simp) (hstep (ends_of_kind rfl rfl)) True.intro
  | bound start var word args =>
    obtain ⟨range, hrange⟩ := s.complete_bound start word var (r.inner.whole o) hsmall
    have hcomma : t.kind ≠ .op .comma := by
      intro hk
      simp [complete, hk] at h
    rw [hrange t hcomma] at h
    have hclose : s.step (sample (.op .rparen)) = .ok (s.enter (.loopColon start var range)) := by
      rw [hstep (ends_of_kind rfl rfl), hrange _ (by simp)]
      rfl
    exact honest_expect h (by simp) hclose True.intro

/-- Every error is honest about its place and about what would have been taken in. -/
theorem honest_of_step_error (hsmall : s.phase.Small) (h : s.step t = .error e) :
    s.Honest t e := by
  obtain ⟨blocks, stmts, phase⟩ := s
  unfold step at h
  split at h
  · cases h
    exact .of_want_nil rfl rfl
  cases phase with
  | between =>
    refine honest_between (fun u hu => ?_) h
    simp [step, hu.kind_ne_illegal]
  | expr purpose r =>
    simp only at h
    split at h
    · rename_i f hr
      cases h
      obtain ⟨hpos, hwant⟩ := Reading.step_error hr
      refine ⟨hpos, fun w hw => ?_⟩
      obtain ⟨u, r', hu, hr'⟩ := hwant w hw
      obtain ⟨hne, hillegal⟩ := Reading.kind_of_more hr'
      refine ⟨u, ⟨blocks, stmts, .expr purpose r'⟩, Or.inl hu, hne, ?_, hsmall⟩
      simp [step, hillegal, hr', enter]
    · cases h
    · rename_i x hr
      exact honest_complete rfl hsmall hr h
  | loopName | loopIn | loopRange | rangeOpen | loopColon | elseColon =>
    exact honest_expect h (by simp) rfl True.intro
  | firstBound start var word =>
    simp only at h
    split at h
    · cases h
      exact .of_want_nil rfl rfl
    · obtain ⟨hpos, hwant | ⟨hwant, -⟩⟩ := Reading.takeOperand_error (begin_error h)
      · exact .of_want_nil hpos hwant
      · refine ⟨hpos, fun w hw => ?_⟩
        obtain ⟨u, r, hu, hstart, hr⟩ := Reading.takeOperand_of_mem .start (hwant ▸ hw)
        refine ⟨u, ⟨blocks, stmts, .expr (.bound start var word []) r⟩, Or.inl hu, ?_, ?_,
          Nat.zero_le 2⟩
        · intro hk
          simp [hk, Kind.startsOperand] at hstart
        · have hbegin : step ⟨blocks, stmts, .firstBound start var word⟩ u =
              begin ⟨blocks, stmts, .firstBound start var word⟩ (.bound start var word []) u :=
            firstBound_begin (s := ⟨blocks, stmts, .between⟩) hstart
          simp [hbegin, begin, hr, Except.map, enter]
  | brace owner =>
    simp only at h
    split at h
    · cases h
    · cases h
      refine ⟨rfl, ?_⟩
      intro w hw
      obtain rfl : w = Kind.describe (.op .lbrace) := List.mem_singleton.1 hw
      exact ⟨sample (.op .lbrace), _, meant_sample _, by simp, rfl, True.intro⟩
  | afterBranch start done stop =>
    simp only at h
    split at h
    · cases h
    · split at h
      · cases h
      · refine honest_between (fun u hu => ?_) h
        obtain ⟨helif, helse⟩ := hu.not_clause
        simp [step, hu.kind_ne_illegal, helif, helse]

/-- The first three of more than two complete arguments, each with the comma after it. -/
theorem thirdComma_of_argsTook {args : List Expr} {ws : List Word} (h : ArgsTook args ws)
    (hlen : 3 ≤ args.length) {r o : Word} (hr : r.kind = .keyword .rangeWord)
    (ho : o.kind = .op .lparen) (before after : List Word) :
    ThirdComma (before ++ r :: o :: (ws ++ after)) := by
  induction args generalizing ws after with
  | nil => simp at hlen
  | cons x args ih =>
    obtain ⟨us, vs, c, rfl, hargs, hx, hc⟩ := h
    by_cases hmore : 3 ≤ args.length
    · simpa using ih hargs hmore (vs ++ c :: after)
    · have htwo : args.length = 2 := by
        rw [List.length_cons] at hlen
        omega
      rcases args with _ | ⟨x₂, _ | ⟨x₁, _ | ⟨x₀, args⟩⟩⟩ <;> simp at htwo
      obtain ⟨us₂, vs₂, c₂, rfl, ⟨us₁, vs₁, c₁, rfl, rfl, hx₁, hc₁⟩, hx₂, hc₂⟩ := hargs
      have hthird : ThirdComma
          (before ++ r :: o :: (vs₁ ++ c₁ :: (vs₂ ++ c₂ :: (vs ++ c :: after)))) :=
        .mk hr ho hx₁ hc₁ hx₂ hc₂ hx hc
      simpa using hthird

theorem small_of_took {ws : List Word} (h : s.Took ws) (hws : ¬ ThirdComma ws) :
    s.phase.Small := by
  obtain ⟨os, ss, vs, simple, rfl, -, -, hphase, -⟩ := h
  cases hp : s.phase with
  | expr purpose r =>
    rw [hp] at hphase
    obtain ⟨us, vs, rfl, hpurpose, -⟩ := hphase
    cases purpose with
    | bound start var word args =>
      obtain ⟨_, as, rfl, ⟨f, v, i, r, o, rfl, -, -, -, -, hr, ho⟩, hargs⟩ := hpurpose
      refine Nat.le_of_lt_succ (Nat.lt_of_not_le fun hlen => hws ?_)
      simpa using thirdComma_of_argsTook hargs hlen hr ho (os ++ (ss ++ [f, v, i])) vs
    | _ => exact True.intro
  | _ => exact True.intro

end State

variable {tokens : List Token} {final : Token} {s s' : State}

/-- The tokens are the beginning of a stream that spells a program, wherever that ends. -/
def Viable (tokens : List Token) : Prop :=
  ∃ rest, (∀ t ∈ rest, t.kind ≠ .eof) ∧
    ∀ pos, ∃ p, (parseTokens (tokens ++ rest) pos).result = .ok p

theorem viable_of_runs (ht : ∀ t ∈ tokens, t.kind ≠ .eof) (hruns : State.Runs .initial tokens s)
    (hs : s.Completable) : Viable tokens := by
  obtain ⟨rest, stmts, hrest, hend⟩ := hs
  refine ⟨rest, hrest, fun pos => ?_⟩
  have hall : ∀ t ∈ tokens ++ rest, t.kind ≠ .eof := by
    intro t hmem
    rcases List.mem_append.1 hmem with hmem | hmem
    · exact ht t hmem
    · exact hrest t hmem
  have hfinal : State.step ⟨[], stmts, .between⟩ (finalToken (tokens ++ rest) pos) =
      .ok ⟨[], stmts, .between⟩ := rfl
  have hconsume := consume_complete (hruns.append hend) hall hfinal 0
  exact ⟨_, by rw [parseTokens, hconsume]; rfl⟩

/-- No stream goes on with a token that is refused. -/
theorem not_viable_of_step_error {t : Token} {e : SyntaxError}
    (ht : ∀ t ∈ tokens, t.kind ≠ .eof) (hruns : State.Runs .initial tokens s)
    (hstep : s.step t = .error e) : ¬ Viable (tokens ++ [t]) := by
  rintro ⟨rest, -, haccept⟩
  obtain ⟨p, hp⟩ := haccept .unknown
  simp only [parseTokens, List.append_assoc, consume_append hruns ht, List.singleton_append,
    consume, hstep, Except.map] at hp
  cases hp

/-- A stream that is refused after `k + 1` tokens were asked for, the end counted as one, is refused
because of the last of them: it is what the position of the error tells, and the first token with
which no program goes on. Every kind that the error lists as expected is one with which some program
does. This leaves out that `range` has too many arguments, which shows only behind them. -/
theorem errors_tell_where_and_what (tokens : List Token) (pos : Pos) (e : SyntaxError) (k : Nat)
    (ht : ∀ t ∈ tokens, t.kind ≠ .eof) (h : (parseTokens tokens pos).result = .error e)
    (hk : (parseTokens tokens pos).pulls = k + 1)
    (hcomma : ¬ ThirdComma ((tokens.take k).map Token.word)) :
    e.pos = (tokens[k]?.getD (finalToken tokens pos)).pos ∧
      Viable (tokens.take k) ∧ (∀ t ∈ tokens[k]?, ¬ Viable (tokens.take k ++ [t])) ∧
      ∀ w ∈ e.want, ∃ u, Meant w u ∧ Viable (tokens.take k ++ [u]) := by
  have hconsume : (consume (finalToken tokens pos) .initial 0 tokens).result = .error e := by
    unfold parseTokens at h
    cases hc : (consume (finalToken tokens pos) .initial 0 tokens).result with
    | ok out => simp [hc, Except.map] at h
    | error f => simpa [hc, Except.map] using h
  obtain ⟨k', s, -, hpulls, hruns, hstep⟩ := consume_error ht 0 hconsume
  obtain rfl : k = k' := by
    have : (consume (finalToken tokens pos) .initial 0 tokens).pulls = k + 1 := hk
    omega
  have hfront : ∀ t ∈ tokens.take k, t.kind ≠ .eof := fun t hmem => ht t (List.mem_of_mem_take hmem)
  have htook := hruns.took hfront State.took_initial
  have hsmall := State.small_of_took htook (by simpa using hcomma)
  obtain ⟨hpos, hwant⟩ := State.honest_of_step_error hsmall hstep
  refine ⟨hpos, viable_of_runs hfront hruns (State.completable_of_small hsmall), ?_, ?_⟩
  · intro t hmem
    rw [Option.mem_def.1 hmem] at hstep
    exact not_viable_of_step_error hfront hruns hstep
  · intro w hw
    obtain ⟨u, s', hmeant, hne, hs', hsmall'⟩ := hwant w hw
    refine ⟨u, hmeant, viable_of_runs ?_ (hruns.append (.single hs'))
      (State.completable_of_small hsmall')⟩
    intro t hmem
    rcases List.mem_append.1 hmem with hmem | hmem
    · exact hfront t hmem
    · rwa [List.mem_singleton.1 hmem]

/-- In `if (x;` the semicolon is the first token that cannot be, and a parenthesis can. -/
theorem unclosed_parenthesis_is_told :
    let tokens : List Token := [sample (.keyword .ifWord), sample (.op .lparen), sample .name,
      ⟨.op .semicolon, ";", ⟨1, 6, 5⟩⟩]
    (∀ t ∈ tokens, t.kind ≠ .eof) ∧ (parseTokens tokens .unknown).pulls = 3 + 1 ∧
      ¬ ThirdComma ((tokens.take 3).map Token.word) ∧
      ∃ e, (parseTokens tokens .unknown).result = .error e ∧ e.pos = ⟨1, 6, 5⟩ ∧
        e.want = [Kind.describe (.op .rparen)] ∧
        ∀ w ∈ e.want, ∃ u, Meant w u ∧ Viable (tokens.take 3 ++ [u]) := by
  intro tokens
  have ht : ∀ t ∈ tokens, t.kind ≠ .eof := by decide
  have hpulls : (parseTokens tokens .unknown).pulls = 3 + 1 := rfl
  have hcomma : ¬ ThirdComma ((tokens.take 3).map Token.word) := by
    intro h
    have hnone : ∀ w ∈ (tokens.take 3).map Token.word, w.kind ≠ .keyword .rangeWord := by decide
    obtain ⟨w, hw, hrange⟩ := h.mem
    exact hnone w hw hrange
  refine ⟨ht, hpulls, hcomma, _, rfl, rfl, rfl, ?_⟩
  exact (errors_tell_where_and_what tokens .unknown _ 3 ht rfl hpulls hcomma).2.2.2

end Parser

end ThreeAddress
