import ThreeAddress.Proofs.ParserCompleteness
import ThreeAddress.Proofs.RecursiveDescent

/-! The descent and the parser that takes one token after the other go in step: whenever the descent
takes a token, the state before it takes the same token, and they fail at the same one. So they
ask the source equally often and give the same result. -/
namespace ThreeAddress

namespace Reading

variable {outer : List Pending} {inner inner' : Pending} {e e' : Expr} {t : Token}

/-- Signs and factors before the operand count only by what they make of it. -/
theorem step_eq_of_factor (hcomparison : inner'.comparison = inner.comparison)
    (hsum : inner'.sum = inner.sum) (h : inner'.factor e' = inner.factor e) :
    step ⟨outer, inner', some e'⟩ t = step ⟨outer, inner, some e⟩ t := by
  have hterm : inner'.term e' = inner.term e := by simp [Pending.term, hsum, h]
  have hwhole : inner'.whole e' = inner.whole e := by simp [Pending.whole, hcomparison, hterm]
  simp [step, takeOperator, leave, hcomparison, hsum, h, hterm, hwhole]

/-- Before a token that is no factor's, summands count only by what they make of the operand. -/
theorem step_eq_of_term (hcomparison : inner'.comparison = inner.comparison)
    (h : inner'.term e' = inner.term e) (ht : t.kind.isOp Op.isMultiplicative = false) :
    step ⟨outer, inner', some e'⟩ t = step ⟨outer, inner, some e⟩ t := by
  have hwhole : inner'.whole e' = inner.whole e := by simp [Pending.whole, hcomparison, h]
  cases hk : t.kind with
  | op o => simp_all [step, takeOperator, leave, Kind.isOp]
  | _ => simp [step, takeOperator, leave, hk, hwhole]

/-- Before a token that goes on with no operand, only the whole expression counts. -/
theorem step_eq_of_whole (h : inner'.whole e' = inner.whole e) (ht : continues t.kind = false) :
    step ⟨outer, inner', some e'⟩ t = step ⟨outer, inner, some e⟩ t := by
  cases hk : t.kind with
  | op o =>
    rw [hk] at ht
    simp_all [step, takeOperator, leave, continues]
  | _ => simp [step, takeOperator, leave, hk, h]

theorem continues_eq_false (hmult : ¬ t.kind.isOp Op.isMultiplicative)
    (hadd : ¬ t.kind.isOp Op.isAdditive) (hrel : ¬ t.kind.isRelational) :
    continues t.kind = false := by
  cases hk : t.kind with
  | op o => simp_all [Kind.isOp, Kind.isRelational, continues]
  | _ => rfl

/-- Comparisons do not chain. -/
theorem step_chained {left : Expr} {op : Kind} (hcomparison : inner.comparison = some (left, op))
    (ht : t.kind.isRelational) : step ⟨outer, inner, some e⟩ t =
      .error ⟨t.pos, t.describe, .chained t.describe op⟩ := by
  cases hk : t.kind with
  | op o =>
    have ho : o.isRelational := by simpa [hk, Kind.isRelational] using ht
    cases o <;> simp_all [step, takeOperator, Op.isMultiplicative, Op.isAdditive, Op.isRelational]
  | _ => simp [hk, Kind.isRelational] at ht

/-- After a whole expression in parentheses, only the one that closes them may come. -/
theorem step_close_or_fail {p : Pending} (ht : continues t.kind = false) :
    step ⟨p :: outer, .none, some e⟩ t = if t.kind = .op .rparen then .ok (.more ⟨outer, p, some e⟩)
      else .error (.expected t [Op.rparen.symbol]) := by
  cases hk : t.kind with
  | op o =>
    rw [hk] at ht
    simp_all [step, takeOperator, leave, continues]
    rfl
  | _ => simp [step, takeOperator, leave, hk]

/-- What is neither a sign nor the beginning of an operand. -/
theorem takeOperand_eq_error (r : Reading) (hnumber : t.kind ≠ .number) (hname : t.kind ≠ .name)
    (htrue : t.kind ≠ .keyword .trueWord) (hfalse : t.kind ≠ .keyword .falseWord)
    (hparen : t.kind ≠ .op .lparen) (hsign : ¬ t.kind.isOp Op.isSign) :
    r.takeOperand t = .error (.expected t operandStarts) := by
  cases hk : t.kind with
  | op o =>
    rw [hk] at hparen hsign
    have ho : o.isSign = false := by simpa [Kind.isOp] using hsign
    cases o <;> simp_all [takeOperand]
  | keyword k => cases k <;> simp_all [takeOperand]
  | _ => simp_all [takeOperand]

end Reading

namespace Parser

/-- The state after the block of `owner`, which ended at `stop`. -/
def State.finish (s : State) (owner : Owner) (block : Block Stmt) (stop : Pos) : State :=
  match owner with
  | .branch start done cond => s.enter (.afterBranch start (⟨cond, block⟩ :: done) stop)
  | .otherwise start done => s.push (.branch ⟨start, stop⟩ done.reverse (some block))
  | .whileBody start cond => s.push (.whileLoop ⟨start, stop⟩ cond (some block))
  | .forBody start var range => s.push (.forLoop ⟨start, stop⟩ var range (some block))

theorem State.close_eq_finish (s : State) (b : Open) (blocks : List Open) (t : Token) :
    s.close b blocks t = State.finish ⟨blocks, b.before, .between⟩ b.owner
      ⟨b.opens, t.pos, s.stmts.reverse⟩ t.stop := by
  unfold close finish
  cases b.owner <;> rfl

/-- The parser that takes one token after the other has asked the source as often as the descent,
and the token in view leads it to `r`. -/
structure InStep (source : Nat → Delivery) (start : Pos) (c : Cursor)
    (r : Except SyntaxError State) : Prop where
  legal : c.token.kind ≠ .illegal
  ended : c.ended = true → c.token.kind = .eof
  session : ∃ n s, c.calls = n + 1 ∧ sessionAfter source n = some s ∧ s.read (source n) = c.token ∧
    s.start.getD c.token.pos = start ∧ s.state.step c.token = r

theorem State.step_of_between {blocks : List Open} {stmts : List Stmt} {t : Token}
    (ht : t.kind ≠ .illegal) : (State.mk blocks stmts .between).step t =
      (State.mk blocks stmts .between).between t := by
  simp only [step, ht, if_false]

/-- Where a statement has to come, a token that is no word of its own starts an expression. -/
theorem State.between_other {blocks : List Open} {before : List Stmt} {t : Token}
    (hsemi : t.kind ≠ .op .semicolon) (hif : t.kind ≠ .keyword .ifWord)
    (hwhile : t.kind ≠ .keyword .whileWord) (hfor : t.kind ≠ .keyword .forWord)
    (hbreak : t.kind ≠ .keyword .breakWord) (hcontinue : t.kind ≠ .keyword .continueWord)
    (heof : t.kind ≠ .eof) (hbrace : blocks ≠ [] → t.kind ≠ .op .rbrace) :
    (State.mk blocks before .between).between t =
      if t.kind.startsOperand then (State.mk blocks before .between).begin .simple t
      else .error (.expected t ["statement"]) := by
  unfold between
  split
  all_goals first | contradiction | skip
  cases blocks with
  | nil => simp only [heof, if_false]
  | cons b blocks => simp only [hbrace (List.cons_ne_nil _ _), heof, if_false]

theorem InStep.of_between {source : Nat → Delivery} {start : Pos} {c : Cursor} {blocks : List Open}
    {stmts : List Stmt}
    (h : InStep source start c ((State.mk blocks stmts .between).between c.token)) :
    InStep source start c ((State.mk blocks stmts .between).step c.token) := by
  rw [State.step_of_between h.legal]
  exact h

/-- A failure of the descent is one of the other parser, after as many questions. Where the fuel
runs out the other parser is not done either. -/
def Answered (source : Nat → Delivery) : Stop → Cursor → Prop
  | .failed e, c => Answers source c.calls (.error e)
  | .exhausted, c => ∃ n s, c.calls = n + 1 ∧ sessionAfter source n = some s

/-- The token in view goes on with an expression of which `r` is read. -/
def ReadsExpr (source : Nat → Delivery) (start : Pos) (s : State) (purpose : Purpose) (r : Reading)
    (c : Cursor) : Prop :=
  InStep source start c ((s.enter (.expr purpose r)).step c.token)

namespace Descent

variable {α : Type} {source : Nat → Delivery} {start : Pos} {c : Cursor} {s s' : State}
  {e : SyntaxError} {Q : α → Cursor → Prop}

theorem exhausted_inStep {r : Except SyntaxError State} (h : InStep source start c r) :
    Post (throw .exhausted : Descent α) Q (Answered source) c := by
  obtain ⟨n, σ, hcalls, hσ, -⟩ := h.session
  exact ⟨n, σ, hcalls, hσ⟩

theorem fail_inStep (h : InStep source start c (.error e)) :
    Post (fail e : Descent α) Q (Answered source) c := by
  obtain ⟨n, σ, hcalls, hσ, hread, -, hstep⟩ := h.session
  refine ⟨n, σ, hcalls, hσ, ?_⟩
  simp only [Session.take, hread, hstep]

/-- What the source answers next is taken in by both parsers. -/
theorem ask_inStep {n : Nat} {σ : Session} (hσ : sessionAfter source n = some σ)
    (hopen : c.ended = false) (hcalls : c.calls = n) (hlast : σ.last = c.token.stop) :
    Post (next source) (fun _ c' => c'.last = c.token.stop ∧
      InStep source (σ.start.getD c'.token.pos) c' (σ.state.step c'.token))
      (Answered source) c := by
  unfold Post next
  simp only [hopen, Bool.false_eq_true, if_false, hcalls]
  cases hanswer : source n with
  | ended pos =>
    have hread : σ.read (source n) = ⟨.eof, [], if pos.isKnown then pos else c.token.stop⟩ := by
      rw [hanswer, ← hlast]
      rfl
    exact ⟨rfl, by simp, by simp, n, σ, rfl, hσ, hread, rfl, rfl⟩
  | token t =>
    have hread : σ.read (source n) = t := by rw [hanswer]; rfl
    by_cases ht : t.kind = .illegal
    · simp only [ht, if_true]
      refine ⟨n, σ, rfl, hσ, ?_⟩
      simp only [Session.take, hread, State.step, ht, if_true]
    · simp only [ht, if_false]
      exact ⟨trivial, ht, by simp, n, σ, rfl, hσ, hread, rfl, rfl⟩

theorem next_inStep (h : InStep source start c (.ok s)) (ht : c.token.kind ≠ .eof) :
    Post (next source) (fun _ c' => c'.last = c.token.stop ∧
      InStep source start c' (s.step c'.token)) (Answered source) c := by
  obtain ⟨n, σ, hcalls, hσ, hread, hstart, hstep⟩ := h.session
  have hopen : c.ended = false := by
    cases hended : c.ended with
    | false => rfl
    | true => exact absurd (h.ended hended) ht
  have htake : σ.take (source n) = .more ⟨s, some start, c.token.stop⟩ := by
    simp only [Session.take, hread, hstep, ht, if_false, hstart]
  have hnext : sessionAfter source (n + 1) = some ⟨s, some start, c.token.stop⟩ := by
    rw [sessionAfter_succ hσ, htake]
  exact ask_inStep hnext hopen hcalls rfl

theorem expect_inStep {kind : Kind} (hkind : kind ≠ .eof)
    (h : InStep source start c
      (if c.token.kind = kind then .ok s else .error (.expected c.token [kind.describe]))) :
    Post (expect source kind) (fun pos c' => pos = c.token.pos ∧ c'.last = c.token.stop ∧
      InStep source start c' (s.step c'.token)) (Answered source) c := by
  rw [expect, post_peek_bind]
  split
  · next ht =>
    rw [if_pos ht] at h
    apply (next_inStep h (ht ▸ hkind)).bind
    rintro - c' ⟨hlast, h'⟩
    exact ⟨rfl, hlast, h'⟩
  · next ht =>
    rw [if_neg ht] at h
    exact fail_inStep h

end Descent

section

variable {source : Nat → Delivery} {start : Pos} {c : Cursor} {s : State} {purpose : Purpose}
  {r r' : Reading} {x : Expr} {e : SyntaxError}

theorem ReadsExpr.congr (h : ReadsExpr source start s purpose r c)
    (hr : r'.step c.token = r.step c.token) : ReadsExpr source start s purpose r' c := by
  have hstep : (s.enter (.expr purpose r')).step c.token =
      (s.enter (.expr purpose r)).step c.token := by
    simp only [State.step, State.enter, hr]
    rfl
  unfold ReadsExpr at *
  rw [hstep]
  exact h

/-- The token in view belongs to the expression. -/
theorem ReadsExpr.next (h : ReadsExpr source start s purpose r c)
    (hr : r.step c.token = .ok (.more r')) :
    Post (Descent.next source) (fun _ c' => c'.last = c.token.stop ∧
      ReadsExpr source start s purpose r' c') (Answered source) c := by
  have hstep : (s.enter (.expr purpose r)).step c.token = .ok (s.enter (.expr purpose r')) := by
    simp only [State.step, h.legal, if_false, State.enter, hr]
  unfold ReadsExpr at h
  rw [hstep] at h
  exact Descent.next_inStep h (Reading.kind_of_more hr).1

theorem ReadsExpr.fail {α : Type} {Q : α → Cursor → Prop} (h : ReadsExpr source start s purpose r c)
    (hr : r.step c.token = .error e) : Post (Descent.fail e) Q (Answered source) c := by
  have hstep : (s.enter (.expr purpose r)).step c.token = .error e := by
    simp only [State.step, h.legal, if_false, State.enter, hr]
  unfold ReadsExpr at h
  rw [hstep] at h
  exact Descent.fail_inStep h

/-- The token in view should close the parentheses around the expression. -/
theorem ReadsExpr.close {p : Pending} {outer : List Pending}
    (h : ReadsExpr source start s purpose ⟨p :: outer, .none, some x⟩ c)
    (ht : Reading.continues c.token.kind = false) :
    InStep source start c (if c.token.kind = .op .rparen then
      .ok (s.enter (.expr purpose ⟨outer, p, some x⟩))
      else .error (.expected c.token [Kind.describe (.op .rparen)])) := by
  have hstep : (s.enter (.expr purpose ⟨p :: outer, .none, some x⟩)).step c.token =
      if c.token.kind = .op .rparen then .ok (s.enter (.expr purpose ⟨outer, p, some x⟩))
      else .error (.expected c.token [Kind.describe (.op .rparen)]) := by
    simp only [State.step, h.legal, if_false, State.enter, Reading.step_close_or_fail ht]
    by_cases hk : c.token.kind = .op .rparen
    · simp only [hk, if_true]
    · simp only [hk, if_false]
      rfl
  rw [← hstep]
  exact h

/-- The token in view is the first one after the expression. -/
theorem ReadsExpr.complete (h : ReadsExpr source start s purpose ⟨[], .none, some x⟩ c)
    (ht : Reading.continues c.token.kind = false) :
    InStep source start c (s.complete purpose x c.token) := by
  have hstep := State.step_expr (s := s.enter (.expr purpose ⟨[], .none, some x⟩)) rfl rfl rfl
    ⟨h.legal, ht⟩
  unfold ReadsExpr at h
  rw [hstep, State.complete_enter] at h
  exact h

end

namespace Descent

section

variable {source : Nat → Delivery} {start : Pos} {c : Cursor} {s : State} {purpose : Purpose}
  {outer : List Pending} {inner : Pending} {nested operand : Descent Expr} {level : Op → Bool}
  {fuel rounds : Nat} {x : Expr}

/-- A part that reads an expression up to a token with the property `Tight`, after the operands and
signs in `inner`. -/
def Yields (source : Nat → Delivery) (start : Pos) (s : State) (purpose : Purpose)
    (outer : List Pending) (inner : Pending) (Tight : Token → Prop) (p : Descent Expr) : Prop :=
  ∀ c, ReadsExpr source start s purpose ⟨outer, inner, none⟩ c →
    Post p (fun x c' => ReadsExpr source start s purpose ⟨outer, inner, some x⟩ c' ∧ Tight c'.token)
      (Answered source) c

/-- The token does not go on with an expression outside parentheses. -/
def Closes (t : Token) : Prop := Reading.continues t.kind = false

theorem primary_inStep
    (hnested : ∀ outer, Yields source start s purpose outer .none Closes nested)
    (h : ReadsExpr source start s purpose ⟨outer, inner, none⟩ c)
    (hsign : ¬ c.token.kind.isOp Op.isSign) :
    Post (primary source nested)
      (fun x c' => ReadsExpr source start s purpose ⟨outer, inner, some x⟩ c') (Answered source)
      c := by
  rw [primary, post_peek_bind]
  have hleaf (f : Pos → Expr) (hf : Reading.step ⟨outer, inner, none⟩ c.token =
      .ok (.more ⟨outer, inner, some (f c.token.stop)⟩)) :
      Post (do next source; return f (← last))
        (fun x c' => ReadsExpr source start s purpose ⟨outer, inner, some x⟩ c') (Answered source)
        c := by
    apply (h.next hf).bind
    rintro - c' ⟨hlast, h'⟩
    rw [post_last_bind, hlast]
    exact h'
  split
  · next ht =>
    split
    · next e he => exact h.fail (by simp [Reading.step, Reading.takeOperand, ht, he, Except.map])
    · next x hx =>
      have hr : Reading.step ⟨outer, inner, none⟩ c.token = .ok (.more ⟨outer, inner, some x⟩) := by
        simp [Reading.step, Reading.takeOperand, ht, hx, Except.map]
      apply (h.next hr).bind
      rintro - c' ⟨-, h'⟩
      exact h'
  · next ht =>
    exact hleaf (fun stop => .name ⟨⟨c.token.pos, stop⟩, c.token.text⟩)
      (by simp [Reading.step, Reading.takeOperand, ht, Except.map, Token.span])
  · next ht =>
    exact hleaf (fun stop => .boolean ⟨c.token.pos, stop⟩ true)
      (by simp [Reading.step, Reading.takeOperand, ht, Except.map, Token.span])
  · next ht =>
    exact hleaf (fun stop => .boolean ⟨c.token.pos, stop⟩ false)
      (by simp [Reading.step, Reading.takeOperand, ht, Except.map, Token.span])
  · next ht =>
    apply (h.next (Reading.step_open rfl ht)).bind
    rintro - c' ⟨-, h'⟩
    apply (hnested _ c' h').bind
    rintro x c'' ⟨hx, hcloses⟩
    apply (expect_inStep (by simp) (hx.close hcloses)).bind
    rintro - c₃ ⟨-, -, h₃⟩
    exact h₃
  · next hnumber hname htrue hfalse hparen =>
    refine h.fail ?_
    have herror := Reading.takeOperand_eq_error ⟨outer, inner, none⟩ hnumber hname htrue hfalse
      hparen hsign
    simp only [Reading.step, herror, Except.map]

theorem unary_inStep
    (hnested : ∀ outer, Yields source start s purpose outer .none Closes nested) :
    Yields source start s purpose outer inner (fun _ => True) (unary source nested rounds) := by
  induction rounds generalizing inner with
  | zero => exact fun c h => exhausted_inStep h
  | succ rounds ih =>
    intro c h
    rw [unary, post_peek_bind]
    split
    · next ht =>
      obtain ⟨o, hk, ho⟩ := Kind.exists_of_isOp ht
      apply (h.next (Reading.step_sign rfl hk ho)).bind
      rintro - c' ⟨-, h'⟩
      apply (ih c' h').bind
      rintro x c'' ⟨hx, -⟩
      exact ⟨hx.congr (Reading.step_eq_of_factor rfl rfl rfl), trivial⟩
    · next ht => exact (primary_inStep hnested h ht).imp fun x c' hx => ⟨hx, trivial⟩

/-- A loop over the operators of one level. The left operand waits in `wait`, which is `inner` with
the operand and its operator; with the right operand it is one operand after `inner`. -/
theorem binaryLeft_inStep {Tight : Token → Prop} (wait : Expr → Kind → Pending)
    (hfirst : Yields source start s purpose outer inner Tight operand)
    (hright : ∀ left op, Yields source start s purpose outer (wait left op) Tight operand)
    (htake : ∀ left t, Tight t → t.kind.isOp level →
      Reading.step ⟨outer, inner, some left⟩ t = .ok (.more ⟨outer, wait left t.kind, none⟩))
    (hjoin : ∀ left op right t, Tight t → Reading.step ⟨outer, wait left op, some right⟩ t =
      Reading.step ⟨outer, inner, some (.binary ⟨left.start, right.stop⟩ op left right)⟩ t) :
    Yields source start s purpose outer inner
      (fun t => Tight t ∧ ¬ t.kind.isOp level) (binaryLeft source operand level fuel) := by
  have hloop : ∀ rounds left c, ReadsExpr source start s purpose ⟨outer, inner, some left⟩ c →
      Tight c.token → Post (operations source operand level rounds left) (fun x c' =>
        ReadsExpr source start s purpose ⟨outer, inner, some x⟩ c' ∧ Tight c'.token ∧
          ¬ c'.token.kind.isOp level) (Answered source) c := by
    intro rounds
    induction rounds with
    | zero => exact fun left c h ht => exhausted_inStep h
    | succ rounds ih =>
      intro left c h htight
      rw [operations, post_peek_bind]
      split
      · next ht =>
        apply (h.next (htake left c.token htight ht)).bind
        rintro - c' ⟨-, h'⟩
        apply (hright left c.token.kind c' h').bind
        rintro right c'' ⟨hx, htight'⟩
        exact ih _ c'' (hx.congr (hjoin _ _ _ _ htight').symm) htight'
      · next ht => exact ⟨h, htight, ht⟩
  intro c h
  apply (hfirst c h).bind
  rintro left c' ⟨hleft, htight⟩
  exact hloop fuel left c' hleft htight

theorem product_inStep
    (hnested : ∀ outer, Yields source start s purpose outer .none Closes nested)
    (hproduct : inner.product = none) (hsigns : inner.signs = []) :
    Yields source start s purpose outer inner (fun t => ¬ t.kind.isOp Op.isMultiplicative)
      (product source nested fuel) := by
  have hfactor (e : Expr) : inner.factor e = e := by
    simp [Pending.factor, Pending.signed, hproduct, hsigns, Pending.join]
  intro c h
  refine (binaryLeft_inStep (fun left op => { inner with product := some (left, op), signs := [] })
    (unary_inStep hnested) (fun left op => unary_inStep hnested) ?_ ?_ c h).imp
    fun x c' hx => ⟨hx.1, hx.2.2⟩
  · intro left t _ ht
    obtain ⟨o, hk, ho⟩ := Kind.exists_of_isOp ht
    rw [Reading.step_multiply rfl hk ho, hfactor]
  · intro left op right t _
    refine Reading.step_eq_of_factor rfl rfl ?_
    rw [hfactor]
    rfl

theorem sum_inStep (hnested : ∀ outer, Yields source start s purpose outer .none Closes nested)
    (hsum : inner.sum = none) (hproduct : inner.product = none) (hsigns : inner.signs = []) :
    Yields source start s purpose outer inner (fun t => ¬ t.kind.isOp Op.isMultiplicative ∧
      ¬ t.kind.isOp Op.isAdditive) (sum source nested fuel) := by
  have hterm (e : Expr) : inner.term e = e := by
    simp [Pending.term, Pending.factor, Pending.signed, hsum, hproduct, hsigns, Pending.join]
  refine binaryLeft_inStep (fun left op => ⟨inner.comparison, some (left, op), none, []⟩)
    (product_inStep hnested hproduct hsigns) (fun left op => product_inStep hnested rfl rfl) ?_ ?_
  · intro left t _ ht
    obtain ⟨o, hk, ho⟩ := Kind.exists_of_isOp ht
    rw [Reading.step_add rfl hk ho, hterm]
  · intro left op right t ht
    refine Reading.step_eq_of_term rfl ?_ (by simpa using ht)
    rw [hterm]
    rfl

theorem comparison_inStep
    (hnested : ∀ outer, Yields source start s purpose outer .none Closes nested) :
    Yields source start s purpose outer .none Closes (comparison source nested fuel) := by
  intro c h
  apply (sum_inStep hnested rfl rfl rfl c h).bind
  rintro left c' ⟨hleft, hmult, hadd⟩
  rw [post_peek_bind]
  split
  · next ht =>
    have hrel : c'.token.kind.isOp Op.isRelational := ht
    obtain ⟨o, hk, ho⟩ := Kind.exists_of_isOp hrel
    apply (hleft.next (Reading.step_compare rfl rfl hk ho)).bind
    rintro - c₂ ⟨-, h₂⟩
    apply (sum_inStep hnested rfl rfl rfl c₂ h₂).bind
    rintro right c₃ ⟨hright, hmult', hadd'⟩
    rw [post_peek_bind]
    split
    · next ht' => exact hright.fail (Reading.step_chained rfl ht')
    · next ht' =>
      have hcloses := Reading.continues_eq_false hmult' hadd' ht'
      refine ⟨hright.congr ?_, hcloses⟩
      exact Reading.step_eq_of_whole rfl hcloses
  · next ht => exact ⟨hleft, Reading.continues_eq_false hmult hadd ht⟩

theorem expr_inStep : Yields source start s purpose outer .none Closes (expr source fuel) := by
  induction fuel generalizing outer with
  | zero => exact fun c h => exhausted_inStep h
  | succ fuel ih => exact comparison_inStep fun outer => ih

/-- An expression that stands in no parentheses is read up to the token that completes it. -/
theorem expr_completes (h : InStep source start c ((s.read purpose).step c.token)) :
    Post (expr source fuel) (fun x c' => InStep source start c' (s.complete purpose x c'.token))
      (Answered source) c := by
  apply (expr_inStep c h).imp
  rintro x c' ⟨hx, hcloses⟩
  exact hx.complete hcloses

end

section

variable {source : Nat → Delivery} {start : Pos} {c : Cursor} {s : State} {loop word : Pos}
  {var : Name} {first : Expr} {fuel rounds : Nat}

/-- The arguments of `range` are the same list, which one parser keeps in reverse. -/
theorem bounds_inStep {last : Expr} {args more : List Expr} (hargs : last :: args = more ++ [first])
    (h : InStep source start c (s.complete (.bound loop var word args) last c.token)) :
    Post (bounds source (expr source fuel) rounds more) (fun rest c' =>
      InStep source start c' (s.closeRange loop var word (first :: rest).reverse c'.token))
      (Answered source) c := by
  induction rounds generalizing c last args more with
  | zero => exact exhausted_inStep h
  | succ rounds ih =>
    rw [bounds, post_peek_bind]
    split
    · next ht =>
      have hstep : s.complete (.bound loop var word args) last c.token =
          .ok (s.read (.bound loop var word (last :: args))) := by simp [State.complete, ht]
      rw [hstep] at h
      apply (next_inStep h (by simp [ht])).bind
      rintro - c' ⟨-, h'⟩
      apply (expr_completes h').bind
      intro x c'' hx
      exact ih (by rw [hargs]; rfl) hx
    · next ht =>
      have hstep : s.complete (.bound loop var word args) last c.token =
          s.closeRange loop var word (first :: more.reverse).reverse c.token := by
        simp [State.complete, ht, hargs]
      rw [hstep] at h
      exact h

theorem closeRange_inStep {more : List Expr}
    (h : InStep source start c (s.closeRange loop var word (first :: more).reverse c.token)) :
    Post (closeRange source word first more) (fun range c' =>
      InStep source start c' ((s.enter (.loopColon loop var range)).step c'.token))
      (Answered source) c := by
  have hclose {range : Range}
      (h : InStep source start c (s.expect (.op .rparen) c.token (.loopColon loop var range))) :
      Post (do let _ ← expect source (.op .rparen); return range) (fun range c' =>
        InStep source start c' ((s.enter (.loopColon loop var range)).step c'.token))
        (Answered source) c := by
    apply (expect_inStep (by simp) h).bind
    rintro - c' ⟨-, -, h'⟩
    exact h'
  unfold State.closeRange at h
  rw [List.reverse_reverse] at h
  unfold closeRange
  match more with
  | [] => exact hclose h
  | [stop] => exact hclose h
  | [stop, step] => exact hclose h
  | _ :: _ :: extra :: _ =>
    simp only [List.length_reverse, List.length_cons] at h
    exact fail_inStep h

theorem range_inStep
    (h : InStep source start c ((s.enter (.rangeOpen loop var word)).step c.token)) :
    Post (range source fuel word) (fun range c' =>
      InStep source start c' ((s.enter (.loopColon loop var range)).step c'.token))
      (Answered source) c := by
  have hopen : (s.enter (.rangeOpen loop var word)).step c.token =
      s.expect (.op .lparen) c.token (.firstBound loop var word) := by
    simp only [State.step, h.legal, if_false]
    rfl
  rw [hopen] at h
  apply (expect_inStep (by simp) h).bind
  rintro - c' ⟨-, -, h'⟩
  have hfirst : (s.enter (.firstBound loop var word)).step c'.token =
      if c'.token.kind = .op .rparen then
        .error ⟨c'.token.pos, c'.token.describe, .rangeCount 0⟩
      else (s.read (.bound loop var word [])).step c'.token := by
    rw [← State.begin_eq_step _ h'.legal]
    simp only [State.step, h'.legal, if_false]
    rfl
  rw [hfirst] at h'
  rw [post_peek_bind]
  split
  · next ht =>
    rw [if_pos ht] at h'
    exact fail_inStep h'
  · next ht =>
    rw [if_neg ht] at h'
    apply (expr_completes h').bind
    intro x c₂ h₂
    apply (bounds_inStep rfl h₂).bind
    intro more c₃ h₃
    exact closeRange_inStep h₃

end

/-- A part that reads one statement, where one has to come. -/
def YieldsStmt (source : Nat → Delivery) (start : Pos) (p : Descent Stmt) : Prop :=
  ∀ blocks stmts c, InStep source start c ((State.mk blocks stmts .between).step c.token) →
    c.token.kind ≠ .op .semicolon → c.token.kind ≠ .eof →
    (blocks ≠ [] → c.token.kind ≠ .op .rbrace) →
    Post p (fun x c' => InStep source start c'
      ((State.mk blocks (x :: stmts) .between).step c'.token)) (Answered source) c

section

variable {source : Nat → Delivery} {start : Pos} {c : Cursor} {s : State} {stmt : Descent Stmt}
  {fuel rounds : Nat} {blocks : List Open} {before : List Stmt}

theorem between_semicolon_ok (ht : c.token.kind = .op .semicolon) :
    (State.mk blocks before .between).step c.token = .ok ⟨blocks, before, .between⟩ := by
  simp [State.step, State.between, ht, State.enter]

theorem blockStmts_inStep {b : Open} {done : List Stmt} (hstmt : YieldsStmt source start stmt)
    (h : InStep source start c ((State.mk (b :: blocks) done .between).step c.token)) :
    Post (blockStmts source stmt rounds done) (fun body c' => c'.token.kind = .op .rbrace ∧
      InStep source start c' ((State.mk (b :: blocks) body.reverse .between).step c'.token))
      (Answered source) c := by
  induction rounds generalizing c done with
  | zero => exact exhausted_inStep h
  | succ rounds ih =>
    rw [blockStmts, post_peek_bind]
    split
    · next ht => exact ⟨ht, by rwa [List.reverse_reverse]⟩
    · next hbrace =>
      split
      · next ht =>
        have hstep : (State.mk (b :: blocks) done .between).step c.token =
            .error (.expected c.token [Op.rbrace.symbol]) := by
          simp [State.step, State.between, ht]
        rw [hstep] at h
        exact fail_inStep h
      · next heof =>
        split
        · next ht =>
          rw [between_semicolon_ok ht] at h
          apply (next_inStep h heof).bind
          rintro - c' ⟨-, h'⟩
          exact ih h'
        · next hsemi =>
          apply (hstmt _ _ c h hsemi heof fun _ => hbrace).bind
          intro x c' h'
          exact ih h'

/-- A block is read up to the token after it. -/
theorem block_inStep {owner : Owner} (hstmt : YieldsStmt source start stmt)
    (h : InStep source start c ((s.enter (.brace owner)).step c.token)) :
    Post (block source stmt fuel) (fun body c' => InStep source start c'
      ((s.finish owner body c'.last).step c'.token)) (Answered source) c := by
  have hopen : (s.enter (.brace owner)).step c.token = if c.token.kind = .op .lbrace then
      .ok ⟨⟨owner, c.token.pos, s.stmts⟩ :: s.blocks, [], .between⟩
      else .error (.expected c.token [Kind.describe (.op .lbrace)]) := by
    simp only [State.step, h.legal, if_false]
    rfl
  rw [hopen] at h
  apply (expect_inStep (by simp) h).bind
  rintro opens c₁ ⟨rfl, -, h₁⟩
  apply (blockStmts_inStep hstmt h₁).bind
  rintro body c₂ ⟨ht, h₂⟩
  have hclose : (State.mk (⟨owner, c.token.pos, s.stmts⟩ :: s.blocks) body.reverse .between).step
      c₂.token = .ok (s.finish owner ⟨c.token.pos, c₂.token.pos, body⟩ c₂.token.stop) := by
    simp only [State.step, State.between, ht, if_true, State.close_eq_finish, List.reverse_reverse]
    cases owner <;> rfl
  have hbrace : InStep source start c₂ (if c₂.token.kind = .op .rbrace then
      .ok (s.finish owner ⟨c.token.pos, c₂.token.pos, body⟩ c₂.token.stop)
      else .error (.expected c₂.token [Kind.describe (.op .rbrace)])) := by
    rw [if_pos ht, ← hclose]
    exact h₂
  apply (expect_inStep (by simp) hbrace).bind
  rintro closes c₃ ⟨rfl, hlast, h₃⟩
  rw [← hlast] at h₃
  exact h₃

/-- What every compound statement ends with: a colon and a block. -/
theorem body_inStep {α : Type} {owner : Owner} {f : Block Stmt → Descent α}
    {R : α → Cursor → Prop} (hstmt : YieldsStmt source start stmt)
    (h : InStep source start c (s.expect (.op .colon) c.token (.brace owner)))
    (hf : ∀ body c', InStep source start c' ((s.finish owner body c'.last).step c'.token) →
      Post (f body) R (Answered source) c') :
    Post (do
      let _ ← expect source (.op .colon)
      let body ← block source stmt fuel
      f body) R (Answered source) c := by
  apply (expect_inStep (by simp) h).bind
  rintro - c₁ ⟨-, -, h₁⟩
  exact (block_inStep hstmt h₁).bind hf

variable {place : Pos} {done : List (Branch Stmt)}

theorem branch_inStep (hstmt : YieldsStmt source start stmt)
    (h : InStep source start c ((s.read (.guard place done)).step c.token)) :
    Post (branch source stmt fuel) (fun b c' => InStep source start c'
      ((s.enter (.afterBranch place (b :: done) c'.last)).step c'.token)) (Answered source) c := by
  apply (expr_completes h).bind
  intro cond c₁ h₁
  exact body_inStep hstmt h₁ fun body c₂ h₂ => h₂

theorem elifs_inStep (hstmt : YieldsStmt source start stmt)
    (h : InStep source start c ((s.enter (.afterBranch place done c.last)).step c.token)) :
    Post (elifs source (branch source stmt fuel) rounds done) (fun branches c' =>
      c'.token.kind ≠ .keyword .elifWord ∧ InStep source start c'
        ((s.enter (.afterBranch place branches.reverse c'.last)).step c'.token))
      (Answered source) c := by
  induction rounds generalizing c done with
  | zero => exact exhausted_inStep h
  | succ rounds ih =>
    rw [elifs, post_peek_bind]
    split
    · next ht =>
      have hstep : (s.enter (.afterBranch place done c.last)).step c.token =
          .ok (s.read (.guard place done)) := by
        simp [State.step, ht, State.enter, State.read]
      rw [hstep] at h
      apply (next_inStep h (by simp [ht])).bind
      rintro - c₁ ⟨-, h₁⟩
      apply (branch_inStep hstmt h₁).bind
      intro b c₂ h₂
      exact ih h₂
    · next ht => exact ⟨ht, by rwa [List.reverse_reverse]⟩

theorem chain_inStep (hstmt : YieldsStmt source start stmt)
    (h : InStep source start c ((s.read (.guard place [])).step c.token)) :
    Post (chain source stmt fuel place) (fun x c' =>
      InStep source start c' ((s.push x).step c'.token)) (Answered source) c := by
  apply (branch_inStep hstmt h).bind
  intro first c₁ h₁
  apply (elifs_inStep hstmt h₁).bind
  rintro branches c₂ ⟨helif, h₂⟩
  rw [post_peek_bind]
  split
  · next ht =>
    have hstep : (s.enter (.afterBranch place branches.reverse c₂.last)).step c₂.token =
        .ok (s.enter (.elseColon place branches.reverse)) := by
      simp [State.step, ht, State.enter]
    rw [hstep] at h₂
    apply (next_inStep h₂ (by simp [ht])).bind
    rintro - c₃ ⟨-, h₃⟩
    have hcolon : (s.enter (.elseColon place branches.reverse)).step c₃.token =
        s.expect (.op .colon) c₃.token (.brace (.otherwise place branches.reverse)) := by
      simp only [State.step, h₃.legal, if_false]
      rfl
    rw [hcolon] at h₃
    apply body_inStep hstmt h₃
    intro body c₄ h₄
    simp only [State.finish, List.reverse_reverse] at h₄
    exact h₄
  · next ht =>
    have hstep : (s.enter (.afterBranch place branches.reverse c₂.last)).step c₂.token =
        (s.push (.branch ⟨place, c₂.last⟩ branches none)).step c₂.token := by
      simp [State.step, h₂.legal, State.enter, State.push, helif, ht]
    rw [hstep] at h₂
    exact h₂

theorem whileLoop_inStep (hstmt : YieldsStmt source start stmt)
    (h : InStep source start c ((s.read (.loopGuard place)).step c.token)) :
    Post (whileLoop source stmt fuel place) (fun x c' =>
      InStep source start c' ((s.push x).step c'.token)) (Answered source) c := by
  apply (expr_completes h).bind
  intro cond c₁ h₁
  exact body_inStep hstmt h₁ fun body c₂ h₂ => h₂

theorem forLoop_inStep (hstmt : YieldsStmt source start stmt)
    (h : InStep source start c ((s.enter (.loopName place)).step c.token)) :
    Post (forLoop source stmt fuel place) (fun x c' =>
      InStep source start c' ((s.push x).step c'.token)) (Answered source) c := by
  -- Each word of the head leads to one phase, in which only one kind of token may come.
  have hword {kind : Kind} {phase phase' : Phase} {c : Cursor} (hkind : kind ≠ .eof)
      (h : InStep source start c ((s.enter phase).step c.token))
      (hstep : c.token.kind ≠ .illegal →
        (s.enter phase).step c.token = s.expect kind c.token phase') :
      Post (expect source kind) (fun pos c' => pos = c.token.pos ∧ c'.last = c.token.stop ∧
        InStep source start c' ((s.enter phase').step c'.token)) (Answered source) c := by
    rw [hstep h.legal] at h
    exact expect_inStep hkind h
  rw [forLoop, post_peek_bind]
  apply (hword (by simp) h fun hi => by simp only [State.step, hi, if_false]; rfl).bind
  rintro - c₁ ⟨rfl, hlast, h₁⟩
  rw [post_last_bind, hlast]
  apply (hword (by simp) h₁ fun hi => by simp only [State.step, hi, if_false]; rfl).bind
  rintro - c₂ ⟨-, -, h₂⟩
  apply (hword (by simp) h₂ fun hi => by simp only [State.step, hi, if_false]; rfl).bind
  rintro - c₃ ⟨rfl, -, h₃⟩
  apply (range_inStep h₃).bind
  intro bounds c₄ h₄
  have hcolon : (s.enter (.loopColon place ⟨c.token.span, c.token.text⟩ bounds)).step c₄.token =
      s.expect (.op .colon) c₄.token
        (.brace (.forBody place ⟨c.token.span, c.token.text⟩ bounds)) := by
    simp only [State.step, h₄.legal, if_false]
    rfl
  rw [hcolon] at h₄
  exact body_inStep hstmt h₄ fun body c₅ h₅ => h₅

theorem simple_inStep
    (h : InStep source start c (((State.mk blocks before .between).read .simple).step c.token)) :
    Post (simple source fuel) (fun x c' => InStep source start c'
      ((State.mk blocks (x :: before) .between).step c'.token)) (Answered source) c := by
  apply (expr_completes h).bind
  intro e c₁ h₁
  rw [post_peek_bind]
  split
  · next ht =>
    simp only [State.complete, ht, if_true] at h₁
    split
    · next hname =>
      rw [hname] at h₁
      exact fail_inStep h₁
    · next target hname =>
      rw [hname] at h₁
      have hne : c₁.token.kind ≠ .eof := by
        intro heof
        simp [heof, Kind.isAssign] at ht
      apply (next_inStep h₁ hne).bind
      rintro - c₂ ⟨-, h₂⟩
      apply (expr_completes h₂).bind
      intro value c₃ h₃
      exact InStep.of_between h₃
  · next ht =>
    have hnot : c₁.token.kind.isAssign = false := by simpa using ht
    simp only [State.complete, hnot, Bool.false_eq_true, if_false] at h₁
    exact InStep.of_between h₁

end

section

variable {source : Nat → Delivery} {start : Pos} {c : Cursor} {fuel rounds : Nat}

/-- A statement is read up to the token after it. -/
theorem stmt_inStep : YieldsStmt source start (stmt source fuel) := by
  induction fuel with
  | zero => exact fun _ _ _ h _ _ _ => exhausted_inStep h
  | succ fuel ih =>
    intro blocks before c h hsemi heof hbrace
    rw [stmt, post_peek_bind]
    -- A word of its own starts every compound statement and every jump.
    have hword {p : Descent Stmt} (s : State)
        (hs : (State.mk blocks before .between).between c.token = .ok s)
        (hp : ∀ c', c'.last = c.token.stop → InStep source start c' (s.step c'.token) →
          Post p (fun x c' => InStep source start c'
            ((State.mk blocks (x :: before) .between).step c'.token)) (Answered source) c') :
        Post (next source >>= fun _ => p) (fun x c' => InStep source start c'
          ((State.mk blocks (x :: before) .between).step c'.token)) (Answered source) c := by
      rw [State.step_of_between h.legal, hs] at h
      apply (next_inStep h heof).bind
      rintro - c' ⟨hlast, h'⟩
      exact hp c' hlast h'
    split
    · next ht =>
      apply hword ((State.mk blocks before .between).read (.guard c.token.pos []))
        (by simp [State.between, ht])
      exact fun c' _ => chain_inStep ih
    · next ht =>
      apply hword ((State.mk blocks before .between).read (.loopGuard c.token.pos))
        (by simp [State.between, ht])
      exact fun c' _ => whileLoop_inStep ih
    · next ht =>
      apply hword ((State.mk blocks before .between).enter (.loopName c.token.pos))
        (by simp [State.between, ht])
      exact fun c' _ => forLoop_inStep ih
    · next ht =>
      apply hword ((State.mk blocks before .between).push (.breakLoop c.token.span))
        (by simp [State.between, ht])
      intro c' hlast h'
      rw [post_last_bind, hlast]
      exact h'
    · next ht =>
      apply hword ((State.mk blocks before .between).push (.continueLoop c.token.span))
        (by simp [State.between, ht])
      intro c' hlast h'
      rw [post_last_bind, hlast]
      exact h'
    · next hif hwhile hfor hbreak hcontinue =>
      rw [State.step_of_between h.legal,
        State.between_other hsemi hif hwhile hfor hbreak hcontinue heof hbrace] at h
      split
      · next ht =>
        rw [if_pos ht, State.begin_eq_step _ h.legal] at h
        exact simple_inStep h
      · next ht =>
        rw [if_neg ht] at h
        exact fail_inStep h

theorem stmts_inStep {stmt : Descent Stmt} {done : List Stmt} (hstmt : YieldsStmt source start stmt)
    (h : InStep source start c ((State.mk [] done .between).step c.token)) :
    Post (stmts source stmt rounds done) (fun body c' => c'.token.kind = .eof ∧
      InStep source start c' ((State.mk [] body.reverse .between).step c'.token))
      (Answered source) c := by
  induction rounds generalizing c done with
  | zero => exact exhausted_inStep h
  | succ rounds ih =>
    rw [stmts, post_peek_bind]
    split
    · next ht => exact ⟨ht, by rwa [List.reverse_reverse]⟩
    · next heof =>
      split
      · next ht =>
        rw [between_semicolon_ok ht] at h
        apply (next_inStep h heof).bind
        rintro - c' ⟨-, h'⟩
        exact ih h'
      · next hsemi =>
        apply (hstmt _ _ c h hsemi heof fun hne => absurd rfl hne).bind
        intro x c' h'
        exact ih h'

/-- Whatever the descent results in is the result of the other parser, after as many questions. -/
theorem program_inStep : Post (program source fuel)
    (fun p c => Answers source c.calls (.ok p)) (Answered source) .initial := by
  rw [program]
  apply (ask_inStep (n := 0) (σ := .initial) rfl rfl rfl rfl).bind
  rintro - c ⟨-, h⟩
  rw [post_peek_bind]
  apply (stmts_inStep stmt_inStep h).bind
  rintro body c' ⟨ht, h'⟩
  have hfinal : (State.mk [] body.reverse .between).step c'.token =
      .ok ⟨[], body.reverse, .between⟩ := by
    simp [State.step, State.between, ht, State.enter]
  obtain ⟨n, σ, hcalls, hσ, hread, hstart, hstep⟩ := h'.session
  refine ⟨n, σ, hcalls, hσ, ?_⟩
  simp only [Session.take, hread, hstep, hfinal, ht, if_true, hstart, List.reverse_reverse]
  rfl

end

end Descent

section

variable {source : Nat → Delivery} {fuel calls : Nat} {result : Except SyntaxError Program}

theorem answers_of_descend (h : descend source fuel = some ⟨result, calls⟩) :
    Answers source calls result := by
  have hpost := @Descent.program_inStep source fuel
  unfold Post at hpost
  unfold descend at h
  cases hrun : Descent.program source fuel .initial with
  | ok p c =>
    rw [hrun] at hpost h
    cases h
    exact hpost
  | error stop c =>
    rw [hrun] at hpost h
    cases stop with
    | failed e =>
      cases h
      exact hpost
    | exhausted => cases h

/-- Fuel for the questions of the other parser is enough, also where the source never ends. -/
theorem descend_of_answers (h : Answers source calls result) (hfuel : calls ≤ fuel) :
    descend source fuel = some ⟨result, calls⟩ := by
  cases hdescend : descend source fuel with
  | some outcome =>
    obtain ⟨hcalls, hresult⟩ := (answers_of_descend hdescend).unique h
    rw [← hcalls, ← hresult]
  | none =>
    have hpost := @Descent.program_inStep source fuel
    have hadvances := @Descent.program_advances source fuel
    unfold Post at hpost hadvances
    unfold descend at hdescend
    cases hrun : Descent.program source fuel .initial with
    | ok p c =>
      rw [hrun] at hdescend
      cases hdescend
    | error stop c =>
      rw [hrun] at hdescend hpost hadvances
      cases stop with
      | failed e => cases hdescend
      | exhausted =>
        obtain ⟨n, s, hcalls, hs⟩ := hpost
        have hmore := hadvances.1 rfl
        rw [h.sessionAfter_eq_none (by omega)] at hs
        cases hs

end

/-- Parsing by recursive descent ends on every finite stream of tokens, however malformed, with the
result of the parser that takes one token after the other. It asks once for each token and once for
the end when it succeeds, at most as often when it fails, and never after the end. A failure is
settled by the answers up to it: every source that begins with them, also one without an end, fails
with the same error after as many questions. -/
theorem parser_asks_once_for_each_token (tokens : List Token) (pos : Pos) (source : Nat → Delivery)
    (ht : ∀ t ∈ tokens, t.kind ≠ .eof) (hsource : Delivers source pos 0 tokens) :
    ∃ calls result, calls ≤ tokens.length + 1 ∧
      (∀ fuel, calls ≤ fuel → descend source fuel = some ⟨result, calls⟩) ∧
      parseTokens tokens pos = ⟨result, calls⟩ ∧
      (∀ i, i + 1 < calls → ∃ t, source i = .token t) ∧
      (∀ p, result = .ok p → calls = tokens.length + 1) ∧
      ∀ e, result = .error e → ∀ source', (∀ i < calls, source' i = source i) →
        (∀ fuel, calls ≤ fuel → descend source' fuel = some ⟨.error e, calls⟩) ∧
        ∀ tokens' pos', Delivers source' pos' 0 tokens' →
          parseTokens tokens' pos' = ⟨.error e, calls⟩ := by
  have hend : source tokens.length = .ended pos := by
    have := hsource.source_end
    rwa [Nat.zero_add] at this
  obtain ⟨result, calls, hdescend, hasked⟩ := descend_ends hend (Nat.lt_succ_self _)
  have hanswers := answers_of_descend hdescend
  have hcalls : calls ≤ tokens.length + 1 := by
    refine Nat.le_of_not_lt fun hlt => ?_
    obtain ⟨t, htoken⟩ := hasked _ hlt
    rw [hend] at htoken
    cases htoken
  refine ⟨calls, result, hcalls, fun fuel => descend_of_answers hanswers,
    parseTokens_of_answers hsource hanswers, hasked, ?_, ?_⟩
  · rintro p rfl
    exact Nat.le_antisymm hcalls (hanswers.length_lt_calls ht hsource)
  · rintro e rfl source' heq
    have hanswers' := hanswers.congr heq
    exact ⟨fun fuel => descend_of_answers hanswers',
      fun tokens' pos' hsource' => parseTokens_of_answers hsource' hanswers'⟩

/-- `x = = y`, from a source that has another token after its end. The parser asks three times. -/
theorem second_equals_sign_is_asked_for_last :
    let place (column : Nat) : Pos := ⟨1, column, column - 1⟩
    let tokens : List Token := [⟨.name, "x", place 1⟩, ⟨.op .assign, "=", place 3⟩,
      ⟨.op .assign, "=", place 5⟩, ⟨.name, "y", place 7⟩]
    let source (n : Nat) : Delivery := (tokens[n]?.map Delivery.token).getD
      (if n = 4 then .ended (place 8) else .token ⟨.illegal, "?", place 9⟩)
    (∀ t ∈ tokens, t.kind ≠ .eof) ∧ Delivers source (place 8) 0 tokens ∧
      ∃ e, parseTokens tokens (place 8) = ⟨.error e, 3⟩ ∧
        ∀ source', (∀ i < 3, source' i = source i) →
          ∀ fuel, 3 ≤ fuel → descend source' fuel = some ⟨.error e, 3⟩ := by
  intro place tokens source
  have ht : ∀ t ∈ tokens, t.kind ≠ .eof := by decide
  have hsource : Delivers source (place 8) 0 tokens := ⟨rfl, rfl, rfl, rfl, rfl⟩
  obtain ⟨calls, result, -, -, hparse, -, -, herror⟩ :=
    parser_asks_once_for_each_token tokens (place 8) source ht hsource
  have hcalls : (parseTokens tokens (place 8)).pulls = 3 := rfl
  obtain rfl : calls = 3 := by rw [← hcalls, hparse]
  cases result with
  | ok p =>
    have hfails : (parseTokens tokens (place 8)).result.isOk = false := rfl
    rw [hparse] at hfails
    cases hfails
  | error e => exact ⟨ht, hsource, e, hparse, fun source' heq => (herror e rfl source' heq).1⟩

end Parser

end ThreeAddress
