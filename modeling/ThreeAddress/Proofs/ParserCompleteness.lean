import ThreeAddress.Proofs.ExpressionCompleteness
import ThreeAddress.Proofs.ParserRuns

/-! Whatever words spell a program are read as that program. The parser completes a statement only
when it sees the token after it, so what is said of a statement is how the state after it treats
every token that may follow. -/
namespace ThreeAddress.Parser

open Grammar

/-- The kinds that can start a statement. -/
def startsStmt (k : Kind) : Bool :=
  match k with
  | .keyword .ifWord | .keyword .whileWord | .keyword .forWord
  | .keyword .breakWord | .keyword .continueWord => true
  | _ => k.startsOperand

/-- The token may come after statements; a sign may not come after a simple one. -/
def Follows (simple : Bool) (t : Token) : Prop :=
  (t.kind = .op .semicolon ∨ t.kind = .op .rbrace ∨ t.kind = .eof ∨ startsStmt t.kind) ∧
    (simple → isSumSign t.word = false)

variable {t : Token} {simple : Bool}

theorem startsStmt_of_startsOperand {k : Kind} (h : k.startsOperand) : startsStmt k := by
  unfold startsStmt
  split
  all_goals first | rfl | exact h

theorem Follows.kind_ne_illegal (h : Follows simple t) : t.kind ≠ .illegal := by
  intro hk
  obtain ⟨h | h | h | h, -⟩ := h <;> simp_all [startsStmt, Kind.startsOperand]

theorem Follows.not_continues (h : Follows true t) : Reading.continues t.kind = false := by
  obtain ⟨h | h | h | h, hsign⟩ := h
  · simp [h, Reading.continues, Op.isMultiplicative, Op.isAdditive, Op.isRelational]
  · simp [h, Reading.continues, Op.isMultiplicative, Op.isAdditive, Op.isRelational]
  · simp [h, Reading.continues]
  · cases hk : t.kind with
    | op o =>
      have hadd : o.isAdditive = false := by simpa [isSumSign, Token.word, hk] using hsign rfl
      cases o <;> simp_all [startsStmt, Kind.startsOperand, Reading.continues, Op.isMultiplicative,
        Op.isAdditive, Op.isRelational, Op.isSign]
    | _ => rfl

theorem Follows.not_assign (h : Follows simple t) : t.kind.isAssign = false := by
  obtain ⟨h | h | h | h, -⟩ := h
  · simp [h, Kind.isAssign, Op.isAssign]
  · simp [h, Kind.isAssign, Op.isAssign]
  · simp [h, Kind.isAssign]
  · cases hk : t.kind with
    | op o => cases o <;> simp_all [startsStmt, Kind.startsOperand, Kind.isAssign, Op.isAssign,
        Op.isSign]
    | _ => rfl

/-- The token ends an expression that stands in no parentheses. -/
def Ends (t : Token) : Prop := t.kind ≠ .illegal ∧ Reading.continues t.kind = false

theorem ends_of_kind {o : Op} (ht : t.kind = .op o) (ho : Reading.continues (.op o) = false) :
    Ends t := by
  simp [Ends, ht, ho]

theorem Follows.ends (h : Follows true t) : Ends t := ⟨h.kind_ne_illegal, h.not_continues⟩

namespace State

/-- The state treats every token that may follow as the state `base` does. -/
def Settles (s base : State) (simple : Bool) : Prop :=
  ∀ t, Follows simple t → s.step t = base.step t

variable {s s' s'' base : State} {ts us : List Token} {ws vs : List Word} {e : Expr}

theorem settles_refl (s : State) (simple : Bool) : Settles s s simple := fun _ _ => rfl

theorem runs_reading {r r' : Reading} (h : Reading.Reads r ts r') (purpose : Purpose) (s : State) :
    Runs (s.enter (.expr purpose r)) ts (s.enter (.expr purpose r')) := by
  induction h with
  | nil => exact .nil
  | cons hs _ ih =>
    refine .cons ?_ ih
    simp [step, enter, hs, (Reading.kind_of_more hs).2]

theorem complete_enter (s : State) (phase : Phase) (purpose : Purpose) (e : Expr) (t : Token) :
    (s.enter phase).complete purpose e t = s.complete purpose e t := by
  cases purpose <;> rfl

/-- Where an expression is complete in the state `s`, a token after it is taken in like this. -/
theorem step_expr {purpose : Purpose} {r : Reading} {o : Expr} (hphase : s.phase = .expr purpose r)
    (ho : r.operand = some o) (hout : r.outer = []) (ht : Ends t) :
    s.step t = s.complete purpose (r.inner.whole o) t := by
  simp [step, ht.1, hphase, Reading.step_whole ho hout ht.2]

/-- An expression is read, and completed by any token that does not go on with it. -/
theorem runs_expression (h : Expression .expr ws e) (hts : ts.map Token.word = ws)
    (purpose : Purpose) (s : State) :
    ∃ s' e', Runs (s.read purpose) ts s' ∧ e'.bare = e ∧
      ∀ t, Ends t → s'.step t = s.complete purpose e' t := by
  obtain ⟨r, hr, hout, o, ho, he⟩ := Reading.reads_expression h hts (r := .start) ⟨rfl, rfl⟩
  refine ⟨_, r.inner.whole o, runs_reading hr purpose s, he.trans h.bare_eq, ?_⟩
  intro t ht
  rw [← complete_enter s (.expr purpose r)]
  exact step_expr rfl ho hout ht

theorem ne_illegal_of_startsOperand {k : Kind} (h : k.startsOperand) : k ≠ .illegal := by
  rintro rfl
  cases h

theorem begin_eq_step (purpose : Purpose) (hi : t.kind ≠ .illegal) :
    s.begin purpose t = (s.read purpose).step t := by
  simp only [step, hi, if_false, read, enter, begin, Reading.step, Reading.start]
  cases Reading.takeOperand ⟨[], .none, none⟩ t <;> rfl

/-- The same, where the first token decides that there is an expression at all. -/
theorem runs_begun_expression (h : Expression .expr ws e) (hts : ts.map Token.word = ws)
    (purpose : Purpose) (s : State)
    (hs : ∀ t, t.kind.startsOperand → s.step t = s.begin purpose t) :
    ∃ s' e', Runs s ts s' ∧ e'.bare = e ∧
      ∀ t, Ends t → s'.step t = s.complete purpose e' t := by
  obtain ⟨s', e', hruns, he, hstep⟩ := runs_expression h hts purpose s
  obtain ⟨w, vs, rfl, hw⟩ := h.startsOperand
  obtain ⟨t, us, rfl, rfl, -⟩ := List.map_eq_cons_iff.1 hts
  have hbegin := begin_eq_step (s := s) purpose (ne_illegal_of_startsOperand hw)
  exact ⟨s', e', hruns.of_step_eq ((hs t hw).trans hbegin), he, hstep⟩

theorem between_begin {blocks : List Open} {stmts : List Stmt} (ht : t.kind.startsOperand) :
    (State.mk blocks stmts .between).step t = (State.mk blocks stmts .between).begin .simple t := by
  cases hk : t.kind with
  | op o => cases o <;> cases blocks <;> simp_all [step, between, Kind.startsOperand, Op.isSign]
  | keyword k => cases k <;> cases blocks <;> simp_all [step, between, Kind.startsOperand]
  | _ => cases blocks <;> simp_all [step, between, Kind.startsOperand]

theorem firstBound_begin {start word : Pos} {var : Name} (ht : t.kind.startsOperand) :
    (s.enter (.firstBound start var word)).step t =
      (s.enter (.firstBound start var word)).begin (.bound start var word []) t := by
  have hi := ne_illegal_of_startsOperand ht
  have hp : t.kind ≠ .op .rparen := by
    intro h
    simp [h, Kind.startsOperand, Op.isSign] at ht
  simp [step, hi, enter, hp]

/-- A comma goes on with the next argument, which the last token of all completes. -/
theorem runs_bound (h : Expression .expr ws e) (hts : ts.map Token.word = ws)
    (start word : Pos) (var : Name) (args : List Expr) (s : State) (ht : t.kind = .op .comma)
    {e₁ : Expr} (hs : s'.step t = s.complete (.bound start var word args) e₁ t) :
    ∃ s'' e', Runs s' (t :: ts) s'' ∧ e'.bare = e ∧
      ∀ t, Ends t → s''.step t = s.complete (.bound start var word (e₁ :: args)) e' t := by
  obtain ⟨s'', e', hruns, he, hstep⟩ := runs_expression h hts (.bound start var word (e₁ :: args)) s
  refine ⟨s'', e', .cons ?_ hruns, he, hstep⟩
  simp [hs, complete, ht]

/-- Arguments of `range` are read up to the parenthesis that closes them. -/
theorem runs_arguments {range : Range} (h : Arguments ws range) (hts : ts.map Token.word = ws)
    (start word : Pos) (var : Name) (s : State) :
    ∃ s' range', Runs (s.enter (.firstBound start var word)) ts s' ∧ range'.bare = range ∧
      ∀ t, t.kind = .op .rparen → s'.step t = .ok (s.enter (.loopColon start var range')) := by
  cases h with
  | one h₁ =>
    obtain ⟨s₁, e₁, hr₁, rfl, hs₁⟩ := runs_begun_expression h₁ hts (.bound start var word [])
      (s.enter (.firstBound start var word)) (fun t => firstBound_begin)
    refine ⟨s₁, ⟨implicit word 0, e₁, implicit word 1⟩, hr₁, rfl, ?_⟩
    intro t ht
    rw [hs₁ t (ends_of_kind ht rfl)]
    simp [complete, closeRange, expect, ht, enter]
  | two h₁ hk h₂ =>
    obtain ⟨us, c, us', rfl, hus, rfl, hus'⟩ := Reading.map_word_around hts
    obtain ⟨s₁, e₁, hr₁, rfl, hs₁⟩ := runs_begun_expression h₁ hus (.bound start var word [])
      (s.enter (.firstBound start var word)) (fun t => firstBound_begin)
    obtain ⟨s₂, e₂, hr₂, rfl, hs₂⟩ := runs_bound h₂ hus' start word var [] _ hk
      (hs₁ c (ends_of_kind hk rfl))
    refine ⟨s₂, ⟨e₁, e₂, implicit word 1⟩, hr₁.append hr₂, rfl, ?_⟩
    intro t ht
    rw [hs₂ t (ends_of_kind ht rfl)]
    simp [complete, closeRange, expect, ht, enter]
  | three h₁ hk h₂ hk' h₃ =>
    obtain ⟨us, c', us'', rfl, hus, rfl, hus''⟩ := Reading.map_word_around hts
    obtain ⟨us, c, us', rfl, hfirst, rfl, hus'⟩ := Reading.map_word_around hus
    obtain ⟨s₁, e₁, hr₁, rfl, hs₁⟩ := runs_begun_expression h₁ hfirst (.bound start var word [])
      (s.enter (.firstBound start var word)) (fun t => firstBound_begin)
    obtain ⟨s₂, e₂, hr₂, rfl, hs₂⟩ := runs_bound h₂ hus' start word var [] _ hk
      (hs₁ c (ends_of_kind hk rfl))
    obtain ⟨s₃, e₃, hr₃, rfl, hs₃⟩ := runs_bound h₃ hus'' start word var [e₁] _ hk'
      (hs₂ c' (ends_of_kind hk' rfl))
    refine ⟨s₃, ⟨e₁, e₂, e₃⟩, (hr₁.append hr₂).append hr₃, rfl, ?_⟩
    intro t ht
    rw [hs₃ t (ends_of_kind ht rfl)]
    simp [complete, closeRange, expect, ht, enter]

/-- The words are read as the phrase, from any place where it may stand. -/
def Reads (ws : List Word) : Phrase → Prop
  | .stmt x => ∀ {ts}, ts.map Token.word = ws → ∀ blocks stmts, ∃ s' y,
      Runs ⟨blocks, stmts, .between⟩ ts s' ∧ y.bare = x ∧
        Settles s' ⟨blocks, y :: stmts, .between⟩ (isSimple x)
  | .stmts simple xs => ∀ {ts}, ts.map Token.word = ws → ∀ blocks stmts,
      ∃ s' : State, ∃ ys : List Stmt,
      Runs ⟨blocks, stmts, .between⟩ ts s' ∧ ys.map Stmt.bare = xs ∧
        Settles s' ⟨blocks, ys.reverse ++ stmts, .between⟩ simple
  | .block b => ∀ {ts}, ts.map Token.word = ws → ∀ blocks stmts owner,
      ∃ opens ys t,
      Block.bare ⟨opens, t.pos, ys⟩ = b ∧
        Runs ⟨blocks, stmts, .brace owner⟩ ts
          (close ⟨⟨owner, opens, stmts⟩ :: blocks, ys.reverse, .between⟩ ⟨owner, opens, stmts⟩
            blocks t)
  | .chain bs => ∀ {ts}, ts.map Token.word = ws → ∀ blocks stmts, ∃ start done stop,
      Runs ⟨blocks, stmts, .between⟩ ts ⟨blocks, stmts, .afterBranch start done stop⟩ ∧
        done.reverse.map Branch.bare = bs

/-- A target is spelled like the name as an operand. -/
theorem target_expression {x : Text} (h : Target ws x) :
    Expression .operand ws (.name ⟨.nowhere, x⟩) := by
  induction h with
  | name hk => exact .name hk
  | parens hv _ hw ih => exact .parens hv (.ofSum (.ofProduct (.ofSigned (.ofOperand ih)))) hw

theorem first_word {a : Phrase} (h : Derives ws a) :
    match a with
    | .stmt _ => ∃ w vs, ws = w :: vs ∧ startsStmt w.kind
    | .chain _ => ∃ w vs, ws = w :: vs ∧ w.kind = .keyword .ifWord
    | _ => True := by
  induction h with
  | none | semicolon | snoc | block => trivial
  | first hw => exact ⟨_, _, rfl, hw⟩
  | next _ _ _ _ _ ih =>
    obtain ⟨w, vs, rfl, hw⟩ := ih
    exact ⟨w, _, rfl, hw⟩
  | branch _ ih =>
    obtain ⟨w, vs, rfl, hw⟩ := ih
    exact ⟨w, vs, rfl, by simp [hw, startsStmt]⟩
  | branchElse _ _ _ _ ih =>
    obtain ⟨w, vs, rfl, hw⟩ := ih
    exact ⟨w, _, rfl, by simp [hw, startsStmt]⟩
  | whileLoop hw | forLoop hw | breakLoop hw | continueLoop hw =>
    exact ⟨_, _, rfl, by simp [hw, startsStmt]⟩
  | assign ht _ _ =>
    obtain ⟨w, vs, rfl, hw⟩ := (target_expression ht).startsOperand
    exact ⟨w, _, rfl, startsStmt_of_startsOperand hw⟩
  | eval he =>
    obtain ⟨w, vs, rfl, hw⟩ := he.startsOperand
    exact ⟨w, vs, rfl, startsStmt_of_startsOperand hw⟩

variable {x : Stmt} {b : Block Stmt}

theorem reads_semicolon {xs : List Stmt} {w : Word} (h : Reads ws (.stmts simple xs))
    (hw : w.kind = .op .semicolon) : Reads (ws ++ [w]) (.stmts false xs) := by
  intro ts hts blocks stmts
  obtain ⟨us, t, us', rfl, hus, rfl, hus'⟩ := Reading.map_word_around hts
  obtain rfl := List.map_eq_nil_iff.1 hus'
  obtain ⟨s', ys, hruns, hys, hset⟩ := h hus blocks stmts
  have hk : t.kind = .op .semicolon := hw
  have hstep : s'.step t = .ok ⟨blocks, ys.reverse ++ stmts, .between⟩ := by
    rw [hset t ⟨Or.inl hk, fun _ => by simp [isSumSign, hw, Op.isAdditive]⟩]
    simp [step, between, hk, enter]
  exact ⟨_, ys, hruns.append (.single hstep), hys, settles_refl _ _⟩

/-- The state before a statement only has to treat its first token well. -/
theorem reads_snoc {xs : List Stmt} (h : Reads ws (.stmts simple xs)) (hx : Reads vs (.stmt x))
    (hfirst : ∃ w us, vs = w :: us ∧ startsStmt w.kind) (hn : ¬ (simple ∧ startsSigned vs)) :
    Reads (ws ++ vs) (.stmts (isSimple x) (xs ++ [x])) := by
  intro ts hts blocks stmts
  obtain ⟨us, us', rfl, hus, hus'⟩ := List.map_eq_append_iff.1 hts
  obtain ⟨s', ys, hruns, hys, hset⟩ := h hus blocks stmts
  obtain ⟨s'', y, hruns', hy, hset'⟩ := hx hus' blocks (ys.reverse ++ stmts)
  obtain ⟨w, vs, rfl, hw⟩ := hfirst
  obtain ⟨t, us', rfl, rfl, -⟩ := List.map_eq_cons_iff.1 hus'
  have hfollows : Follows simple t := by
    refine ⟨Or.inr (Or.inr (Or.inr hw)), fun hs => ?_⟩
    simpa [hs] using hn
  refine ⟨s'', ys ++ [y], hruns.append (hruns'.of_step_eq (hset t hfollows)), ?_, ?_⟩
  · simp [hys, hy]
  · simpa using hset'

theorem reads_block {xs : List Stmt} {v w : Word} (hv : v.kind = .op .lbrace)
    (h : Reads ws (.stmts simple xs)) (hw : w.kind = .op .rbrace) :
    Reads (v :: ws ++ [w]) (.block ⟨.unknown, .unknown, xs⟩) := by
  intro ts hts blocks stmts owner
  obtain ⟨us, t', us', rfl, hus, rfl, hus'⟩ := Reading.map_word_around hts
  obtain rfl := List.map_eq_nil_iff.1 hus'
  obtain ⟨t, us, rfl, rfl, hinner⟩ := List.map_eq_cons_iff.1 hus
  have hk : t.kind = .op .lbrace := hv
  have hk' : t'.kind = .op .rbrace := hw
  obtain ⟨s', ys, hruns, rfl, hset⟩ := h hinner (⟨owner, t.pos, stmts⟩ :: blocks) []
  have hopen : (State.mk blocks stmts (.brace owner)).step t =
      .ok ⟨⟨owner, t.pos, stmts⟩ :: blocks, [], .between⟩ := by
    simp [step, hk]
  have hclose := hset t' ⟨Or.inr (Or.inl hk'), fun _ => by simp [isSumSign, hw, Op.isAdditive]⟩
  refine ⟨t.pos, ys, t', rfl, (Runs.cons hopen hruns).append (.single ?_)⟩
  rw [hclose]
  simp [step, between, hk']

/-- A condition, a colon and a block. -/
theorem runs_guarded (purpose : Purpose) (owner : Expr → Owner) (blocks : List Open)
    (stmts : List Stmt) {v : Word}
    (hp : ∀ e t, (State.mk blocks stmts .between).complete purpose e t =
      (State.mk blocks stmts .between).expect (.op .colon) t (.brace (owner e)))
    (he : Expression .expr ws e) (hv : v.kind = .op .colon) (hb : Reads vs (.block b))
    (hts : ts.map Token.word = ws ++ v :: vs) :
    ∃ e' opens ys t, e'.bare = e ∧ Block.bare ⟨opens, t.pos, ys⟩ = b ∧
      Runs ((State.mk blocks stmts .between).read purpose) ts
        (close ⟨⟨owner e', opens, stmts⟩ :: blocks, ys.reverse, .between⟩
          ⟨owner e', opens, stmts⟩ blocks t) := by
  obtain ⟨us, c, us', rfl, hus, rfl, hus'⟩ := Reading.map_word_around hts
  have hk : c.kind = .op .colon := hv
  obtain ⟨s₁, e', hr₁, he', hs₁⟩ := runs_expression he hus purpose ⟨blocks, stmts, .between⟩
  obtain ⟨opens, ys, t, hblock, hr₂⟩ := hb hus' blocks stmts (owner e')
  refine ⟨e', opens, ys, t, he', hblock, hr₁.append (.cons ?_ hr₂)⟩
  rw [hs₁ c (ends_of_kind hk rfl), hp]
  simp [expect, hk, enter]

theorem reads_first {w v : Word} (hw : w.kind = .keyword .ifWord) (he : Expression .expr ws e)
    (hv : v.kind = .op .colon) (hb : Reads vs (.block b)) :
    Reads (w :: ws ++ v :: vs) (.chain [⟨e, some b⟩]) := by
  intro ts hts blocks stmts
  obtain ⟨t, us, rfl, rfl, hus⟩ := List.map_eq_cons_iff.1 hts
  have hk : t.kind = .keyword .ifWord := hw
  obtain ⟨e', opens, ys, t', rfl, rfl, hruns⟩ := runs_guarded (.guard t.pos [])
    (.branch t.pos []) blocks stmts (fun _ _ => rfl) he hv hb hus
  have hstep : (State.mk blocks stmts .between).step t =
      .ok ((State.mk blocks stmts .between).read (.guard t.pos [])) := by
    simp [step, between, hk]
  exact ⟨_, _, _, .cons hstep hruns, by simp [Branch.relocate]⟩

theorem reads_next {bs : List (Branch Stmt)} {us : List Word} {w v : Word}
    (hc : Reads us (.chain bs)) (hw : w.kind = .keyword .elifWord) (he : Expression .expr ws e)
    (hv : v.kind = .op .colon) (hb : Reads vs (.block b)) :
    Reads (us ++ w :: ws ++ v :: vs) (.chain (bs ++ [⟨e, some b⟩])) := by
  intro ts hts blocks stmts
  rw [List.append_assoc, List.cons_append] at hts
  obtain ⟨us, t, us', rfl, hus, rfl, hus'⟩ := Reading.map_word_around hts
  have hk : t.kind = .keyword .elifWord := hw
  obtain ⟨start, done, stop, hruns, rfl⟩ := hc hus blocks stmts
  obtain ⟨e', opens, ys, t', rfl, rfl, hruns'⟩ := runs_guarded (.guard start done)
    (.branch start done) blocks stmts (fun _ _ => rfl) he hv hb hus'
  have hstep : (State.mk blocks stmts (.afterBranch start done stop)).step t =
      .ok ((State.mk blocks stmts .between).read (.guard start done)) := by
    simp [step, hk, read, enter]
  exact ⟨_, _, _, hruns.append (.cons hstep hruns'), by simp [Branch.relocate]⟩

theorem reads_branch {bs : List (Branch Stmt)} (hc : Reads ws (.chain bs)) :
    Reads ws (.stmt (.branch .nowhere bs none)) := by
  intro ts hts blocks stmts
  obtain ⟨start, done, stop, hruns, rfl⟩ := hc hts blocks stmts
  refine ⟨_, .branch ⟨start, stop⟩ done.reverse none, hruns, by simp [Stmt.relocate], ?_⟩
  intro t ht
  have hi := ht.kind_ne_illegal
  have helif : t.kind ≠ .keyword .elifWord := by
    intro h
    obtain ⟨h' | h' | h' | h', -⟩ := ht <;> simp_all [startsStmt, Kind.startsOperand]
  have helse : t.kind ≠ .keyword .elseWord := by
    intro h
    obtain ⟨h' | h' | h' | h', -⟩ := ht <;> simp_all [startsStmt, Kind.startsOperand]
  simp [step, hi, helif, helse, push]

theorem reads_branchElse {bs : List (Branch Stmt)} {us : List Word} {w v : Word}
    (hc : Reads us (.chain bs)) (hw : w.kind = .keyword .elseWord) (hv : v.kind = .op .colon)
    (hb : Reads vs (.block b)) :
    Reads (us ++ w :: v :: vs) (.stmt (.branch .nowhere bs (some b))) := by
  intro ts hts blocks stmts
  obtain ⟨us, t, us', rfl, hus, rfl, hus'⟩ := Reading.map_word_around hts
  obtain ⟨c, us', rfl, rfl, hblock⟩ := List.map_eq_cons_iff.1 hus'
  have hk : t.kind = .keyword .elseWord := hw
  have hk' : c.kind = .op .colon := hv
  obtain ⟨start, done, stop, hruns, rfl⟩ := hc hus blocks stmts
  obtain ⟨opens, ys, t', rfl, hruns'⟩ := hb hblock blocks stmts (.otherwise start done)
  have hstep : (State.mk blocks stmts (.afterBranch start done stop)).step t =
      .ok ⟨blocks, stmts, .elseColon start done⟩ := by
    simp [step, hk, enter]
  have hstep' : (State.mk blocks stmts (.elseColon start done)).step c =
      .ok ⟨blocks, stmts, .brace (.otherwise start done)⟩ := by
    simp [step, hk', expect, enter]
  refine ⟨_, .branch ⟨start, t'.stop⟩ done.reverse (some ⟨opens, t'.pos, ys⟩),
    hruns.append (.cons hstep (.cons hstep' hruns')), by simp [Stmt.relocate], ?_⟩
  simpa [close, push] using settles_refl _ _

theorem reads_whileLoop {w v : Word} (hw : w.kind = .keyword .whileWord)
    (he : Expression .expr ws e) (hv : v.kind = .op .colon) (hb : Reads vs (.block b)) :
    Reads (w :: ws ++ v :: vs) (.stmt (.whileLoop .nowhere e (some b))) := by
  intro ts hts blocks stmts
  obtain ⟨t, us, rfl, rfl, hus⟩ := List.map_eq_cons_iff.1 hts
  have hk : t.kind = .keyword .whileWord := hw
  obtain ⟨e', opens, ys, t', rfl, rfl, hruns⟩ := runs_guarded (.loopGuard t.pos)
    (.whileBody t.pos) blocks stmts (fun _ _ => rfl) he hv hb hus
  have hstep : (State.mk blocks stmts .between).step t =
      .ok ((State.mk blocks stmts .between).read (.loopGuard t.pos)) := by
    simp [step, between, hk]
  refine ⟨_, .whileLoop ⟨t.pos, t'.stop⟩ e' (some ⟨opens, t'.pos, ys⟩), .cons hstep hruns,
    by simp [Stmt.relocate], ?_⟩
  simpa [close, push] using settles_refl _ _

theorem reads_forLoop {f v i r o p c : Word} {range : Range} (hf : f.kind = .keyword .forWord)
    (hv : v.kind = .name) (hi : i.kind = .keyword .inWord) (hr : r.kind = .keyword .rangeWord)
    (ho : o.kind = .op .lparen) (ha : Arguments ws range) (hp : p.kind = .op .rparen)
    (hc : c.kind = .op .colon) (hb : Reads vs (.block b)) :
    Reads (f :: v :: i :: r :: o :: ws ++ p :: c :: vs)
      (.stmt (.forLoop .nowhere ⟨.nowhere, v.text⟩ range (some b))) := by
  intro ts hts blocks stmts
  obtain ⟨us, tp, us', rfl, hus, rfl, hus'⟩ := Reading.map_word_around hts
  obtain ⟨tc, us', rfl, rfl, hblock⟩ := List.map_eq_cons_iff.1 hus'
  obtain ⟨tf, us, rfl, rfl, h₁⟩ := List.map_eq_cons_iff.1 hus
  obtain ⟨tv, us, rfl, rfl, h₂⟩ := List.map_eq_cons_iff.1 h₁
  obtain ⟨ti, us, rfl, rfl, h₃⟩ := List.map_eq_cons_iff.1 h₂
  obtain ⟨tr, us, rfl, rfl, h₄⟩ := List.map_eq_cons_iff.1 h₃
  obtain ⟨tl, us, rfl, rfl, hargs⟩ := List.map_eq_cons_iff.1 h₄
  have kf : tf.kind = .keyword .forWord := hf
  have kv : tv.kind = .name := hv
  have ki : ti.kind = .keyword .inWord := hi
  have kr : tr.kind = .keyword .rangeWord := hr
  have ko : tl.kind = .op .lparen := ho
  have kc : tc.kind = .op .colon := hc
  obtain ⟨s', range', hruns, rfl, hstep⟩ := runs_arguments ha hargs tf.pos tr.pos
    ⟨tv.span, tv.text⟩ ⟨blocks, stmts, .between⟩
  obtain ⟨opens, ys, t', rfl, hruns'⟩ := hb hblock blocks stmts
    (.forBody tf.pos ⟨tv.span, tv.text⟩ range')
  have hfor : (State.mk blocks stmts .between).step tf = .ok ⟨blocks, stmts, .loopName tf.pos⟩ := by
    simp [step, between, kf, enter]
  have hvar : (State.mk blocks stmts (.loopName tf.pos)).step tv =
      .ok ⟨blocks, stmts, .loopIn tf.pos ⟨tv.span, tv.text⟩⟩ := by
    simp [step, kv, expect, enter]
  have hin : (State.mk blocks stmts (.loopIn tf.pos ⟨tv.span, tv.text⟩)).step ti =
      .ok ⟨blocks, stmts, .loopRange tf.pos ⟨tv.span, tv.text⟩⟩ := by
    simp [step, ki, expect, enter]
  have hrange : (State.mk blocks stmts (.loopRange tf.pos ⟨tv.span, tv.text⟩)).step tr =
      .ok ⟨blocks, stmts, .rangeOpen tf.pos ⟨tv.span, tv.text⟩ tr.pos⟩ := by
    simp [step, kr, expect, enter]
  have hopen : (State.mk blocks stmts (.rangeOpen tf.pos ⟨tv.span, tv.text⟩ tr.pos)).step tl =
      .ok ((State.mk blocks stmts .between).enter
        (.firstBound tf.pos ⟨tv.span, tv.text⟩ tr.pos)) := by
    simp [step, ko, expect, enter]
  have hhead : Runs ⟨blocks, stmts, .between⟩ [tf, tv, ti, tr, tl]
      ((State.mk blocks stmts .between).enter (.firstBound tf.pos ⟨tv.span, tv.text⟩ tr.pos)) :=
    .cons hfor (.cons hvar (.cons hin (.cons hrange (.single hopen))))
  have hcolon : ((State.mk blocks stmts .between).enter
      (.loopColon tf.pos ⟨tv.span, tv.text⟩ range')).step tc =
        .ok ⟨blocks, stmts, .brace (.forBody tf.pos ⟨tv.span, tv.text⟩ range')⟩ := by
    simp [step, kc, expect, enter]
  have hall := (hhead.append hruns).append (.cons (hstep tp hp) (.cons hcolon hruns'))
  refine ⟨_, .forLoop ⟨tf.pos, t'.stop⟩ ⟨tv.span, tv.text⟩ range' (some ⟨opens, t'.pos, ys⟩), hall,
    by simp [Stmt.relocate, Name.relocate, Token.word], ?_⟩
  simpa [close, push] using settles_refl _ _

theorem reads_breakLoop {w : Word} (hw : w.kind = .keyword .breakWord) :
    Reads [w] (.stmt (.breakLoop .nowhere)) := by
  intro ts hts blocks stmts
  obtain ⟨t, rfl, rfl⟩ := Reading.map_word_singleton hts
  have hk : t.kind = .keyword .breakWord := hw
  have hstep : (State.mk blocks stmts .between).step t =
      .ok ⟨blocks, .breakLoop t.span :: stmts, .between⟩ := by
    simp [step, between, hk, push]
  exact ⟨_, .breakLoop t.span, .single hstep, rfl, settles_refl _ _⟩

theorem reads_continueLoop {w : Word} (hw : w.kind = .keyword .continueWord) :
    Reads [w] (.stmt (.continueLoop .nowhere)) := by
  intro ts hts blocks stmts
  obtain ⟨t, rfl, rfl⟩ := Reading.map_word_singleton hts
  have hk : t.kind = .keyword .continueWord := hw
  have hstep : (State.mk blocks stmts .between).step t =
      .ok ⟨blocks, .continueLoop t.span :: stmts, .between⟩ := by
    simp [step, between, hk, push]
  exact ⟨_, .continueLoop t.span, .single hstep, rfl, settles_refl _ _⟩

theorem reads_eval (he : Expression .expr ws e) : Reads ws (.stmt (.eval .nowhere e)) := by
  intro ts hts blocks stmts
  obtain ⟨s', e', hruns, rfl, hstep⟩ := runs_begun_expression he hts .simple
    ⟨blocks, stmts, .between⟩ (fun t => between_begin)
  refine ⟨s', .eval e'.span e', hruns, rfl, ?_⟩
  intro t ht
  rw [hstep t ht.ends]
  simp [complete, ht.not_assign, push, step, ht.kind_ne_illegal]

theorem reads_assign {w : Word} {x : Text} (ht : Target ws x) (hw : w.kind.isAssign)
    (he : Expression .expr vs e) :
    Reads (ws ++ w :: vs) (.stmt (.assign .nowhere ⟨.nowhere, x⟩ w.kind e)) := by
  intro ts hts blocks stmts
  obtain ⟨us, t, us', rfl, hus, rfl, hus'⟩ := Reading.map_word_around hts
  have htarget := Expression.ofSum (.ofProduct (.ofSigned (.ofOperand (target_expression ht))))
  obtain ⟨s₁, e₁, hr₁, hb₁, hs₁⟩ := runs_begun_expression htarget hus .simple
    ⟨blocks, stmts, .between⟩ (fun t => between_begin)
  obtain ⟨n, rfl, hn⟩ : ∃ n, e₁ = .name n ∧ n.text = x := by
    cases e₁ <;> simp_all [Expr.relocate, Name.relocate]
  obtain ⟨s₂, e₂, hr₂, rfl, hs₂⟩ := runs_expression he hus' (.assigned n t.kind)
    ⟨blocks, stmts, .between⟩
  have hk : t.kind.isAssign := hw
  have hends : Ends t := by
    cases hkind : t.kind with
    | op o => cases o <;> simp_all [Ends, Reading.continues, Kind.isAssign, Op.isAssign,
        Op.isMultiplicative, Op.isAdditive, Op.isRelational]
    | _ => simp_all [Kind.isAssign]
  have hstep : s₁.step t = .ok ((State.mk blocks stmts .between).read (.assigned n t.kind)) := by
    rw [hs₁ t hends]
    simp [complete, hk, Expr.name?]
  refine ⟨s₂, .assign ⟨n.span.start, e₂.stop⟩ n t.kind e₂, hr₁.append (.cons hstep hr₂), ?_, ?_⟩
  · simp [Stmt.relocate, Name.relocate, hn, Token.word]
  · intro t' ht'
    rw [hs₂ t' ht'.ends]
    simp [complete, push, step, ht'.kind_ne_illegal]

/-- Every phrase of the grammar is read. -/
theorem reads_of_derives {a : Phrase} (h : Derives ws a) : Reads ws a := by
  induction h with
  | none =>
    intro ts hts blocks stmts
    obtain rfl := List.map_eq_nil_iff.1 hts
    exact ⟨_, [], .nil, rfl, settles_refl _ _⟩
  | semicolon _ hw ih => exact reads_semicolon ih hw
  | snoc _ hx hn ih ihx => exact reads_snoc ih ihx (first_word hx) hn
  | block hv _ hw ih => exact reads_block hv ih hw
  | first hw he hv _ ih => exact reads_first hw he hv ih
  | next _ hw he hv _ ihc ih => exact reads_next ihc hw he hv ih
  | branch _ ih => exact reads_branch ih
  | branchElse _ hw hv _ ihc ih => exact reads_branchElse ihc hw hv ih
  | whileLoop hw he hv _ ih => exact reads_whileLoop hw he hv ih
  | forLoop hf hv hi hr ho ha hp hc _ ih => exact reads_forLoop hf hv hi hr ho ha hp hc ih
  | breakLoop hw => exact reads_breakLoop hw
  | continueLoop hw => exact reads_continueLoop hw
  | assign ht hw he => exact reads_assign ht hw he
  | eval he => exact reads_eval he

end State

end ThreeAddress.Parser
