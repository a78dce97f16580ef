import ThreeAddress.Proofs.ExpressionSpans
import ThreeAddress.Proofs.Independence
import ThreeAddress.Proofs.ParserRuns
import ThreeAddress.Proofs.ParserSoundness

/-! Where the parts of a program lie while it is read. The open blocks, the statements that are
complete and the one that has been started take up the source one after the other; each token goes
behind them. -/
namespace ThreeAddress

open ThreeAddress.Tree

variable {src : Text} {lo lo' mid hi hi' i j k a b c m n o : Nat} {t : Token} {x : Tree}
  {cs : List Tree} {start stop word : Pos} {var : Name} {e : Expr}

theorem At.eval (he : (Tree.expr e).At src i j) : (Tree.stmt (.eval e.span e)).At src i j := by
  have hsort : (Tree.stmt (.eval e.span e)).sort? = some .eval := rfl
  exact .node he.span he.lt he.bound hsort (by rintro _ ⟨⟩)
    (.single (Nat.le_refl i) he (Nat.le_refl j))

theorem At.assign {target : Name} {op : Kind} (htarget : (Tree.expr (.name target)).At src i mid)
    (hle : mid ≤ a) (he : (Tree.expr e).At src a j) :
    (Tree.stmt (.assign ⟨target.span.start, e.stop⟩ target op e)).At src i j := by
  have hspan : (⟨target.span.start, e.stop⟩ : Span) = Span.between src i j := by
    rw [Span.between, ← htarget.start_eq, ← he.stop_eq]
    rfl
  have hsort : (Tree.stmt (.assign ⟨target.span.start, e.stop⟩ target op e)).sort? =
      some .assign := rfl
  have hlt := htarget.lt
  have hlt' := he.lt
  exact .node hspan (by omega) he.bound hsort (by rintro _ ⟨⟩)
    (.cons (Nat.le_refl i) htarget (.single hle he (Nat.le_refl j)))

/-- A block reaches from its opening brace up to but not including the closing one. -/
theorem At.block {stmts : List Stmt} (hlt : o < m) (hrow : Row src m (stmts.map .stmt) c)
    (hbound : c ≤ src.length) :
    (Tree.block ⟨Pos.counted src o, Pos.counted src c, stmts⟩).At src o c := by
  have hsort : (Tree.block ⟨Pos.counted src o, Pos.counted src c, stmts⟩).sort? =
      some .block := rfl
  have hle := hrow.le
  exact .node rfl (by omega) hbound hsort (by rintro _ ⟨⟩)
    (hrow.mono (Nat.le_of_lt hlt) (Nat.le_refl c))

namespace Parser

/-- A statement that starts at `start`, up to the children `cs`. -/
def Begun (src : Text) (lo : Nat) (start : Pos) (cs : List Tree) (hi : Nat) : Prop :=
  ∃ i, lo ≤ i ∧ start = Pos.counted src i ∧ Row src i cs hi

/-- A statement with the children `cs` that could end at `stop`. -/
def Ended (src : Text) (lo : Nat) (start stop : Pos) (cs : List Tree) (hi : Nat) : Prop :=
  ∃ i j, lo ≤ i ∧ i < j ∧ j ≤ src.length ∧ start = Pos.counted src i ∧
    stop = Pos.counted src j ∧ Row src i cs j ∧ j ≤ hi

theorem Begun.mono (h : Begun src lo start cs hi) (hle : hi ≤ hi') : Begun src lo start cs hi' := by
  obtain ⟨i, hlo, hstart, hrow⟩ := h
  exact ⟨i, hlo, hstart, hrow.mono (Nat.le_refl i) hle⟩

theorem Begun.concat (h : Begun src lo start cs mid) (hle : mid ≤ i) (hx : x.At src i j)
    (hhi : j ≤ hi) : Begun src lo start (cs ++ [x]) hi := by
  obtain ⟨i', hlo, hstart, hrow⟩ := h
  exact ⟨i', hlo, hstart, hrow.concat hle hx hhi⟩

theorem Ended.begun (h : Ended src lo start stop cs hi) : Begun src lo start cs hi := by
  obtain ⟨i, j, hlo, -, -, hstart, -, hrow, hhi⟩ := h
  exact ⟨i, hlo, hstart, hrow.mono (Nat.le_refl i) hhi⟩

/-- The brace `t` closes the last block of a statement. -/
theorem Begun.ended {block : Block Stmt} (h : Begun src lo start cs mid) (hle : mid ≤ o)
    (hblock : (Tree.block block).At src o a) (ht : t.Lies src a b) :
    Ended src lo start t.stop (cs ++ [.block block]) b := by
  obtain ⟨i, hlo, hstart, hrow⟩ := h
  have hle' := hrow.le
  have hlt := hblock.lt
  have htle := ht.le
  exact ⟨i, b, hlo, by omega, ht.bound, hstart, ht.stop_eq, hrow.concat hle hblock htle,
    Nat.le_refl b⟩

theorem Ended.at {s : Stmt} {sort : NodeSort} (h : Ended src lo start stop cs hi)
    (hspan : s.span = ⟨start, stop⟩) (hsort : s.sort? = some sort) (hchildren : s.children = cs)
    (hleaf : (Tree.stmt s).leafText? = none) :
    ∃ i j, lo ≤ i ∧ (Tree.stmt s).At src i j ∧ j ≤ hi := by
  obtain ⟨i, j, hlo, hlt, hbound, rfl, rfl, hrow, hhi⟩ := h
  refine ⟨i, j, hlo, .node hspan hlt hbound hsort ?_ ?_, hhi⟩
  · intro text htext
    rw [hleaf] at htext
    cases htext
  · rw [← hchildren] at hrow
    exact hrow

/-- The range of the arguments `args`; what they leave out stands at the word `range`. -/
inductive Fills (word : Pos) : List Expr → Range → Prop
  | one {stop : Expr} : Fills word [stop] ⟨implicit word 0, stop, implicit word 1⟩
  | two {first stop : Expr} : Fills word [first, stop] ⟨first, stop, implicit word 1⟩
  | three {first stop step : Expr} : Fills word [first, stop, step] ⟨first, stop, step⟩

/-- A loop up to the arguments `args` of `range`. -/
def RangeBegun (src : Text) (lo : Nat) (start : Pos) (var : Name) (word : Pos) (args : List Expr)
    (hi : Nat) : Prop :=
  ∃ (w w' : Nat) (tok : Token), Begun src lo start [.expr (.name var)] w ∧ tok.Lies src w w' ∧
    tok.kind = .keyword .rangeWord ∧ tok.pos = word ∧ Row src w' (args.map .expr) hi

/-- A loop up to its body. -/
def HeadLies (src : Text) (lo : Nat) (start : Pos) (var : Name) (range : Range) (hi : Nat) : Prop :=
  ∃ word args, Fills word args range ∧ RangeBegun src lo start var word args hi

variable {args : List Expr} {range : Range}

theorem RangeBegun.mono (h : RangeBegun src lo start var word args hi) (hle : hi ≤ hi') :
    RangeBegun src lo start var word args hi' := by
  obtain ⟨w, w', tok, hbegun, htok, hk, hword, hrow⟩ := h
  exact ⟨w, w', tok, hbegun, htok, hk, hword, hrow.mono (Nat.le_refl w') hle⟩

theorem RangeBegun.concat (h : RangeBegun src lo start var word args mid) (hle : mid ≤ i)
    (he : (Tree.expr e).At src i j) (hhi : j ≤ hi) :
    RangeBegun src lo start var word (args ++ [e]) hi := by
  obtain ⟨w, w', tok, hbegun, htok, hk, hword, hrow⟩ := h
  refine ⟨w, w', tok, hbegun, htok, hk, hword, ?_⟩
  rw [List.map_append]
  exact hrow.concat hle he hhi

theorem HeadLies.mono (h : HeadLies src lo start var range hi) (hle : hi ≤ hi') :
    HeadLies src lo start var range hi' := by
  obtain ⟨word, args, hfills, hbegun⟩ := h
  exact ⟨word, args, hfills, hbegun.mono hle⟩

theorem isImplicit_implicit (word : Pos) (value : Float) :
    (Tree.expr (implicit word value)).isImplicit = true := by
  simp [Tree.isImplicit, implicit, Expr.isImplicit]

namespace Fills

/-- The parts of the range that take up something are the arguments. -/
theorem filter_eq (h : Fills word args range)
    (hargs : ∀ e ∈ args, (Tree.expr e).isImplicit = false) :
    ([.expr range.start, .expr range.stop, .expr range.step] : List Tree).filter
      (fun c => !c.isImplicit) = args.map .expr := by
  cases h with
  | one | two | three => simp_all [isImplicit_implicit]

/-- The others are the start `0` and the step `1`. -/
theorem leftOut (h : Fills word args range)
    (hargs : ∀ e ∈ args, (Tree.expr e).isImplicit = false) {x : Tree}
    (hx : x ∈ ([.expr range.start, .expr range.stop, .expr range.step] : List Tree))
    (himplicit : x.isImplicit = true) :
    x = .expr range.start ∧ range.start = implicit word 0 ∨
      x = .expr range.step ∧ range.step = implicit word 1 := by
  have hseen : ∀ e ∈ args, x ≠ .expr e := by
    rintro e he rfl
    rw [hargs e he] at himplicit
    cases himplicit
  cases h with
  | one | two | three => simp_all

theorem stop_mem (h : Fills word args range) : range.stop ∈ args := by
  cases h with
  | one | two | three => simp

end Fills

/-- An argument that is left out takes up nothing, at the word `range`. -/
theorem RangeBegun.hidden {span : Span} {body : Option (Block Stmt)}
    (h : RangeBegun src lo start var word args hi) (hfills : Fills word args range) {x : Tree}
    (hx : x = .expr range.start ∧ range.start = implicit word 0 ∨
      x = .expr range.step ∧ range.step = implicit word 1) :
    Hidden src (.stmt (.forLoop span var range body)) x lo hi := by
  obtain ⟨w, w', tok, ⟨i, hlo, -, hvar⟩, htok, hk, rfl, hargs⟩ := h
  obtain ⟨hlt, hmem, -⟩ := htok.lexeme (by simp [hk])
  have hle := htok.le
  have hbound := htok.bound
  have hvarle := hvar.le
  have hargsle := hargs.le
  have hbefore : var.span.stop.offset ≤ tok.pos.offset := by
    obtain ⟨_, j, -, hat, hj⟩ := hvar.exists_at List.mem_cons_self
    have hstop : var.span.stop = Pos.counted src j := hat.stop_eq
    rw [hstop, htok.pos_eq]
    simp only [Pos.counted]
    omega
  have hbehind : tok.stop.offset ≤ range.stop.start.offset := by
    obtain ⟨i, _, hi, hat, -⟩ := hargs.exists_at (List.mem_map_of_mem hfills.stop_mem)
    have hstart : range.stop.start = Pos.counted src i := hat.start_eq
    rw [hstart, htok.stop_eq]
    simp only [Pos.counted]
    omega
  refine ⟨⟨span, var, range, body, rfl, tok, hmem, hk, hbefore, hbehind, hx⟩, ?_, w, by omega,
    by omega, ?_⟩
  · rcases hx with ⟨rfl, hx⟩ | ⟨rfl, hx⟩
    all_goals
      rw [hx, htok.pos_eq]
      exact implicit_faithful (by omega) _
  · rcases hx with ⟨rfl, hx⟩ | ⟨rfl, hx⟩
    all_goals
      rw [hx, htok.pos_eq]
      rfl

/-- The brace `t` closes the body of a loop over a range. -/
theorem HeadLies.at {block : Block Stmt} (h : HeadLies src lo start var range mid) (hle : mid ≤ o)
    (hblock : (Tree.block block).At src o a) (ht : t.Lies src a b) :
    ∃ i, lo ≤ i ∧ (Tree.stmt (.forLoop ⟨start, t.stop⟩ var range block)).At src i b := by
  obtain ⟨word, args, hfills, w, w', tok, ⟨i, hlo, hstart, hvar⟩, htok, hk, hword, hargs⟩ := h
  have hbegun : RangeBegun src i start var word args mid :=
    ⟨w, w', tok, ⟨i, Nat.le_refl i, hstart, hvar⟩, htok, hk, hword, hargs⟩
  have hseen : ∀ e ∈ args, (Tree.expr e).isImplicit = false := by
    intro e he
    obtain ⟨_, _, -, hat, -⟩ := hargs.exists_at (List.mem_map_of_mem he)
    exact hat.isImplicit_eq
  have hspan : (⟨start, t.stop⟩ : Span) = Span.between src i b := by
    rw [Span.between, hstart, ht.stop_eq]
  have hsort : (Tree.stmt (.forLoop ⟨start, t.stop⟩ var range block)).sort? = some .forLoop := rfl
  have hlt : i < b := by
    have hvarle := hvar.le
    have hwordle := htok.le
    have hargsle := hargs.le
    have hblocklt := hblock.lt
    have htle := ht.le
    omega
  refine ⟨i, hlo, hspan, hlt, ht.bound, ?_⟩
  have hchildren : (Tree.stmt (.forLoop ⟨start, t.stop⟩ var range block)).children =
      [.expr (.name var)] ++ [.expr range.start, .expr range.stop, .expr range.step] ++
        [.block block] := rfl
  refine parts_faithful_of_row hspan (Nat.le_of_lt hlt) ht.bound hsort (by rintro _ ⟨⟩) ?_ ?_
  · rw [hchildren, List.filter_append, List.filter_append, hfills.filter_eq hseen]
    exact ((hvar.mono (Nat.le_refl i) htok.le).append hargs).concat hle hblock ht.le
  · intro x hx himplicit
    have hparts : x ∈ ([.expr range.start, .expr range.stop, .expr range.step] : List Tree) := by
      rw [hchildren, List.mem_append, List.mem_append, List.mem_singleton, List.mem_singleton] at hx
      rcases hx with (rfl | hx) | rfl
      · cases himplicit
      · exact hx
      · cases himplicit
    have hle' := hblock.lt
    have htle := ht.le
    exact (hbegun.mono (by omega)).hidden hfills (hfills.leftOut hseen hparts himplicit)

/-- What stands before an expression of a statement. -/
def PurposeLies (src : Text) (lo : Nat) : Purpose → Nat → Prop
  | .simple, hi => lo ≤ hi
  | .assigned target _, hi => Row src lo [.expr (.name target)] hi
  | .guard start done, hi => Begun src lo start (done.reverse.flatMap ofBranch) hi
  | .loopGuard start, hi => Begun src lo start [] hi
  | .bound start var word args, hi => RangeBegun src lo start var word args.reverse hi

/-- What stands before a block of a statement. -/
def OwnerLies (src : Text) (lo : Nat) : Owner → Nat → Prop
  | .branch start done cond, hi =>
    Begun src lo start (done.reverse.flatMap ofBranch ++ [.expr cond]) hi
  | .otherwise start done, hi => Begun src lo start (done.reverse.flatMap ofBranch) hi
  | .whileBody start cond, hi => Begun src lo start [.expr cond] hi
  | .forBody start var range, hi => HeadLies src lo start var range hi

def PhaseLies (src : Text) (lo : Nat) : Phase → Nat → Prop
  | .between, hi => lo ≤ hi
  | .expr purpose reading, hi => ∃ m, PurposeLies src lo purpose m ∧ reading.Lies src m hi
  | .loopName start, hi => Begun src lo start [] hi
  | .loopIn start var, hi | .loopRange start var, hi => Begun src lo start [.expr (.name var)] hi
  | .rangeOpen start var word, hi | .firstBound start var word, hi =>
    RangeBegun src lo start var word [] hi
  | .loopColon start var range, hi => HeadLies src lo start var range hi
  | .elseColon start done, hi => Begun src lo start (done.reverse.flatMap ofBranch) hi
  | .brace owner, hi => OwnerLies src lo owner hi
  | .afterBranch start done stop, hi =>
    Ended src lo start stop (done.reverse.flatMap ofBranch) hi

/-- The open blocks, innermost first, each behind the statements before it. -/
inductive BlocksLie (src : Text) (lo : Nat) : List Open → Nat → Prop
  | nil {hi : Nat} : lo ≤ hi → BlocksLie src lo [] hi
  | cons {m n o hi : Nat} {b : Open} {blocks : List Open} : BlocksLie src lo blocks m →
      Row src m (b.before.reverse.map .stmt) n → n ≤ o → OwnerLies src n b.owner o →
      b.opens = Pos.counted src o → o < hi → BlocksLie src lo (b :: blocks) hi

theorem OwnerLies.mono {owner : Owner} (h : OwnerLies src lo owner hi) (hle : hi ≤ hi') :
    OwnerLies src lo owner hi' := by
  cases owner with
  | branch | otherwise | whileBody => exact Begun.mono h hle
  | forBody => exact HeadLies.mono h hle

theorem BlocksLie.le {blocks : List Open} (h : BlocksLie src lo blocks hi) : lo ≤ hi := by
  induction h with
  | nil hle => exact hle
  | cons _ hrow hle _ _ hlt ih =>
    have hle' := hrow.le
    omega

namespace State

theorem closeRange_fills {s s' : State} (hs : s.closeRange start var word args t = .ok s') :
    ∃ range, Fills word args.reverse range ∧ s' = s.enter (.loopColon start var range) := by
  unfold closeRange at hs
  split at hs
  · rename_i heq
    obtain ⟨-, rfl⟩ := expect_eq_ok.1 hs
    exact ⟨_, heq ▸ .one, rfl⟩
  · rename_i heq
    obtain ⟨-, rfl⟩ := expect_eq_ok.1 hs
    exact ⟨_, heq ▸ .two, rfl⟩
  · rename_i heq
    obtain ⟨-, rfl⟩ := expect_eq_ok.1 hs
    exact ⟨_, heq ▸ .three, rfl⟩
  · cases hs
  · cases hs

/-- What the state has read lies between the bytes `lo` and `hi`. -/
def Lies (src : Text) (lo : Nat) (s : State) (hi : Nat) : Prop :=
  ∃ m n, BlocksLie src lo s.blocks m ∧ Row src m (s.stmts.reverse.map .stmt) n ∧ n ≤ hi ∧
    PhaseLies src n s.phase hi

variable {s s' : State}

theorem lies_initial (lo : Nat) : State.initial.Lies src lo lo :=
  ⟨lo, lo, .nil (Nat.le_refl lo), .nil (Nat.le_refl lo), Nat.le_refl lo, Nat.le_refl lo⟩

theorem Lies.row (h : s.Lies src lo hi) : Row src lo (s.stmts.reverse.map .stmt) hi := by
  obtain ⟨m, n, hblocks, hrow, hle, -⟩ := h
  exact hrow.mono hblocks.le hle

section

variable (hblocks : BlocksLie src lo s.blocks m) (hrow : Row src m (s.stmts.reverse.map .stmt) n)
include hblocks hrow

/-- A complete statement joins those before it. -/
theorem lies_push {x : Stmt} (hle : n ≤ i) (hx : (Tree.stmt x).At src i j) (hhi : j ≤ hi) :
    (s.push x).Lies src lo hi := by
  refine ⟨m, hi, hblocks, ?_, Nat.le_refl hi, Nat.le_refl hi⟩
  simpa [push] using hrow.concat hle hx hhi

theorem begin_lies (hle : n ≤ a) (ht : t.Lies src a b) {purpose : Purpose}
    (hs : s.begin purpose t = .ok s') (hpurpose : PurposeLies src n purpose a) :
    s'.Lies src lo b := by
  obtain ⟨r, hr, rfl⟩ := begin_eq_ok.1 hs
  have htle := ht.le
  have hlies := Reading.step_lies (Reading.lies_start (Nat.le_refl a)) ht (Nat.le_refl a) hr
  exact ⟨m, n, hblocks, hrow, by omega, a, hpurpose, hlies⟩

/-- The token `t` goes on with the statement that has been begun. -/
theorem lies_enter {phase : Phase} (hle : n ≤ b) (hphase : PhaseLies src n phase b) :
    (s.enter phase).Lies src lo b :=
  ⟨m, n, hblocks, hrow, hle, hphase⟩

theorem lies_read {purpose : Purpose} (hle : n ≤ b) (hpurpose : PurposeLies src n purpose b) :
    (s.read purpose).Lies src lo b :=
  lies_enter hblocks hrow hle ⟨b, hpurpose, Reading.lies_start (Nat.le_refl b)⟩

/-- A closing brace completes the statement that its block belongs to, or one branch of it. -/
theorem close_lies {inner : Open} {blocks : List Open} (hs : s.blocks = inner :: blocks)
    (hle : n ≤ a) (ht : t.Lies src a b) : (s.close inner blocks t).Lies src lo b := by
  rw [hs] at hblocks
  cases hblocks with
  | @cons m' n' o _ _ _ hblocks hbefore hle' howner hopens hlt =>
    have htle := ht.le
    have hrow' := hrow.mono (Nat.le_refl m) hle
    -- the inner statements lie behind the opening brace and end before `t`
    have hblock : (Tree.block ⟨inner.opens, t.pos, s.stmts.reverse⟩).At src o a := by
      rw [hopens, ht.pos_eq]
      have hbound := ht.bound
      exact At.block hlt hrow' (by omega)
    unfold close
    cases ho : inner.owner with
    | branch start done cond =>
      rw [ho] at howner
      refine ⟨m', n', hblocks, hbefore, by have := hblock.lt; omega, ?_⟩
      have hended := Begun.ended howner (Nat.le_refl o) hblock ht
      simpa [PhaseLies, enter, ofBranch, ofBody] using hended
    | otherwise start done =>
      rw [ho] at howner
      have hended := Begun.ended howner (Nat.le_refl o) hblock ht
      obtain ⟨i, j, hlo, hat, hhi⟩ := hended.at
        (s := .branch ⟨start, t.stop⟩ done.reverse (some _)) rfl rfl rfl rfl
      exact lies_push (s := ⟨blocks, inner.before, .between⟩) hblocks hbefore hlo hat hhi
    | whileBody start cond =>
      rw [ho] at howner
      have hended := Begun.ended howner (Nat.le_refl o) hblock ht
      obtain ⟨i, j, hlo, hat, hhi⟩ := hended.at
        (s := .whileLoop ⟨start, t.stop⟩ cond (some _)) rfl rfl rfl rfl
      exact lies_push (s := ⟨blocks, inner.before, .between⟩) hblocks hbefore hlo hat hhi
    | forBody start var range =>
      rw [ho] at howner
      obtain ⟨i, hlo, hat⟩ := HeadLies.at howner (Nat.le_refl o) hblock ht
      exact lies_push (s := ⟨blocks, inner.before, .between⟩) hblocks hbefore hlo hat
        (Nat.le_refl b)

/-- The first token of a statement begins one, closes a block, or is a semicolon or the end. -/
theorem between_lies (hle : n ≤ a) (ht : t.Lies src a b) (hs : s.between t = .ok s') :
    s'.Lies src lo b := by
  have htle := ht.le
  have hbegun : Begun src n t.pos [] b := ⟨a, hle, ht.pos_eq, .nil htle⟩
  unfold between at hs
  split at hs
  · obtain rfl := Except.ok.inj hs
    exact lies_enter hblocks hrow (by omega) (show n ≤ b by omega)
  · obtain rfl := Except.ok.inj hs
    exact lies_read hblocks hrow (by omega) hbegun
  · obtain rfl := Except.ok.inj hs
    exact lies_read hblocks hrow (by omega) hbegun
  · obtain rfl := Except.ok.inj hs
    exact lies_enter hblocks hrow (by omega) hbegun
  · rename_i hk
    obtain rfl := Except.ok.inj hs
    have htext := congrArg some (ht.spelling hk)
    exact lies_push hblocks hrow hle (.leaf ht (by simp [hk]) rfl rfl rfl htext) (Nat.le_refl b)
  · rename_i hk
    obtain rfl := Except.ok.inj hs
    have htext := congrArg some (ht.spelling hk)
    exact lies_push hblocks hrow hle (.leaf ht (by simp [hk]) rfl rfl rfl htext) (Nat.le_refl b)
  · split at hs
    · split at hs
      · obtain rfl := Except.ok.inj hs
        exact lies_enter hblocks hrow (by omega) (show n ≤ b by omega)
      · split at hs
        · exact begin_lies hblocks hrow hle ht hs hle
        · cases hs
    · rename_i hopen
      split at hs
      · obtain rfl := Except.ok.inj hs
        exact close_lies hblocks hrow hopen hle ht
      · split at hs
        · cases hs
        · split at hs
          · exact begin_lies hblocks hrow hle ht hs hle
          · cases hs

/-- The token `t` comes after the statement `x`, and begins another. -/
theorem push_between_lies {x : Stmt} (hle : n ≤ i) (hx : (Tree.stmt x).At src i j) (hhi : j ≤ a)
    (ht : t.Lies src a b) (hs : (s.push x).between t = .ok s') : s'.Lies src lo b := by
  obtain ⟨_, _, hblocks, hrow, hle', -⟩ := lies_push hblocks hrow hle hx hhi
  exact between_lies hblocks hrow hle' ht hs

/-- An expression is complete when the token `t` comes after it. -/
theorem complete_lies {purpose : Purpose} (hn : n ≤ a) (hpurpose : PurposeLies src n purpose mid)
    (hle : mid ≤ i) (he : (Tree.expr e).At src i j) (hhi : j ≤ a) (ht : t.Lies src a b)
    (hs : s.complete purpose e t = .ok s') : s'.Lies src lo b := by
  have htle := ht.le
  unfold complete at hs
  split at hs
  · have hle' : n ≤ mid := hpurpose
    split at hs
    · split at hs
      · rename_i target hname
        obtain rfl := Except.ok.inj hs
        obtain rfl : e = .name target := by cases e <;> simp_all [Expr.name?]
        exact lies_read hblocks hrow (by omega) (.single (by omega) he (by omega))
      · cases hs
    · exact push_between_lies hblocks hrow (by omega) (At.eval he) hhi ht hs
  · obtain ⟨i₀, j₀, hlo, htarget, hj₀⟩ := Row.exists_at hpurpose List.mem_cons_self
    exact push_between_lies hblocks hrow hlo (At.assign htarget (by omega) he) hhi ht hs
  · obtain ⟨-, rfl⟩ := expect_eq_ok.1 hs
    exact lies_enter hblocks hrow (by omega) (Begun.concat hpurpose hle he (by omega))
  · obtain ⟨-, rfl⟩ := expect_eq_ok.1 hs
    exact lies_enter hblocks hrow (by omega) (Begun.concat hpurpose hle he (by omega))
  · have hargs := RangeBegun.concat hpurpose hle he (show j ≤ b by omega)
    rw [← List.reverse_cons] at hargs
    split at hs
    · obtain rfl := Except.ok.inj hs
      exact lies_read hblocks hrow (by omega) hargs
    · obtain ⟨range, hfills, rfl⟩ := closeRange_fills hs
      exact lies_enter hblocks hrow (by omega) ⟨_, _, hfills, hargs⟩

end

/-- One token goes behind what has been read. -/
theorem step_lies (h : s.Lies src lo k) (ht : t.Lies src a b) (hle : k ≤ a)
    (hs : s.step t = .ok s') : s'.Lies src lo b := by
  obtain ⟨m, n, hblocks, hrow, hn, hphase⟩ := h
  have htle := ht.le
  have hleb : k ≤ b := by omega
  have hnb : n ≤ b := by omega
  unfold step at hs
  split at hs
  · cases hs
  split at hs
  · exact between_lies hblocks hrow (by omega) ht hs
  · rename_i purpose reading hp
    rw [hp] at hphase
    obtain ⟨mid, hpurpose, hreading⟩ := hphase
    split at hs
    · cases hs
    · rename_i r hr
      obtain rfl := Except.ok.inj hs
      exact lies_enter hblocks hrow hnb ⟨mid, hpurpose, Reading.step_lies hreading ht hle hr⟩
    · rename_i e hr
      obtain ⟨i, j, hlo, he, hhi⟩ := Reading.step_lies hreading ht hle hr
      exact complete_lies hblocks hrow (by omega) hpurpose hlo he (by omega) ht hs
  all_goals rename_i hp; rw [hp] at hphase
  · obtain ⟨hk, rfl⟩ := expect_eq_ok.1 hs
    have hname : (Tree.expr (.name ⟨t.span, t.text⟩)).At src a b :=
      .leaf ht (by simp [hk]) rfl rfl rfl rfl
    exact lies_enter hblocks hrow hnb (Begun.concat hphase hle hname (Nat.le_refl b))
  · obtain ⟨-, rfl⟩ := expect_eq_ok.1 hs
    exact lies_enter hblocks hrow hnb (Begun.mono hphase hleb)
  · obtain ⟨hk, rfl⟩ := expect_eq_ok.1 hs
    exact lies_enter hblocks hrow hnb
      ⟨a, b, t, Begun.mono hphase hle, ht, hk, rfl, .nil (Nat.le_refl b)⟩
  · obtain ⟨-, rfl⟩ := expect_eq_ok.1 hs
    exact lies_enter hblocks hrow hnb (RangeBegun.mono hphase hleb)
  · split at hs
    · cases hs
    · exact begin_lies hblocks hrow (by omega) ht hs (RangeBegun.mono hphase hle)
  · obtain ⟨-, rfl⟩ := expect_eq_ok.1 hs
    exact lies_enter hblocks hrow hnb (HeadLies.mono hphase hleb)
  · obtain ⟨-, rfl⟩ := expect_eq_ok.1 hs
    exact lies_enter hblocks hrow hnb (Begun.mono hphase hleb)
  · split at hs
    · rename_i hk
      obtain rfl := Except.ok.inj hs
      obtain ⟨hlt, -, -⟩ := ht.lexeme (by simp [hk])
      have howner := OwnerLies.mono hphase hle
      exact ⟨b, b, .cons hblocks hrow (by omega) howner ht.pos_eq hlt, .nil (Nat.le_refl b),
        Nat.le_refl b, Nat.le_refl b⟩
    · cases hs
  · split at hs
    · obtain rfl := Except.ok.inj hs
      exact lies_read hblocks hrow hnb (hphase.begun.mono hleb)
    · split at hs
      · obtain rfl := Except.ok.inj hs
        exact lies_enter hblocks hrow hnb (hphase.begun.mono hleb)
      · rename_i start done stop _ _
        obtain ⟨i, j, hlo, hat, hhi⟩ := hphase.at (s := .branch ⟨start, stop⟩ done.reverse none)
          rfl rfl (List.append_nil _) rfl
        exact push_between_lies hblocks hrow hlo hat (by omega) ht hs

end State

/-- Whatever tokens are taken in, what was read lies before those that are left. -/
theorem State.Runs.lies {tokens : List Token} {s s' : State} (hruns : State.Runs s tokens s')
    (hlaid : Lexer.Laid src k tokens) (hmem : ∀ t ∈ tokens, t ∈ Token.tokenize src)
    (h : s.Lies src lo k) : ∃ j ≤ src.length, s'.Lies src lo j := by
  induction hruns generalizing k with
  | nil => exact ⟨k, hlaid.length_le, h⟩
  | @cons s s' s'' t ts hstep _ ih =>
    have ht := hmem t List.mem_cons_self
    -- only an illegal token can be no lexeme, and no step takes one
    have hk : t.kind ≠ .illegal := by
      intro hk
      simp [State.step, hk] at hstep
    obtain ⟨i, j, hle, hlies, hrest⟩ := Token.lies_of_laid hlaid ht hk
    exact ih hrest (fun u hu => hmem u (List.mem_cons_of_mem t hu))
      (State.step_lies h hlies hle hstep)

end Parser

/-- The first token, or the end if there is none. -/
theorem Lexer.Laid.first {ts : List Token} (h : Laid src k ts) :
    ∃ i ≤ src.length, (ts.headD (Token.endOf src)).pos = Pos.counted src i ∧ Laid src i ts := by
  cases h with
  | nil =>
    refine ⟨src.length, Nat.le_refl _, Token.endOf_pos src, .nil (Nat.le_refl _) ?_⟩
    rw [List.drop_length]
    exact .nil
  | @cons _ i t ts _ _ hpos hne hfront hrest =>
    have hle' := hrest.length_le
    refine ⟨i, by omega, hpos, .cons (Nat.le_refl i) ?_ hpos hne hfront hrest⟩
    rw [Text.slice, Nat.sub_self]
    exact .nil

theorem Program.row_of_parse {p : Program} (h : Program.parse src = .ok p) :
    ∃ lo ≤ src.length, p.span = Span.between src lo src.length ∧
      Row src lo (p.stmts.map .stmt) src.length := by
  obtain ⟨lo, hle, hpos, hlaid⟩ := (Lexer.tokenize_laid src).first
  have ht : ∀ t ∈ Token.tokenize src, t.kind ≠ .eof :=
    fun t ht => (Token.tokenize_lexed src t ht).kind_ne_eof
  obtain ⟨s, s', hruns, hfinal, rfl⟩ := Parser.runs_of_parseTokens ht h
  rw [Parser.finalToken_endOf] at hfinal ⊢
  obtain ⟨k, hk, hlies⟩ := hruns.lies hlaid (fun _ ht => ht) (Parser.State.lies_initial lo)
  have hrow := (Parser.State.step_lies hlies (Token.endOf_lies src) hk hfinal).row
  exact ⟨lo, hle, by rw [Span.between, hpos, Token.endOf_pos], hrow⟩

/-- Spans nest, and leaves are true to the source. -/
theorem spans_nest_and_leaves_are_faithful {source : Text} {p : Program}
    (h : Program.parse source = .ok p) : ∀ t, (Tree.program p).Has t → t.Faithful source := by
  obtain ⟨lo, hle, hspan, hrow⟩ := Program.row_of_parse h
  have hsort : (Tree.program p).sort? = some .program := rfl
  exact parts_faithful hspan hle (Nat.le_refl _) hsort (by rintro _ ⟨⟩) hrow

/-- A bound in parentheses, between a start and a step that are left out. -/
theorem bound_stands_inside_its_parentheses : ∃ p loop first bound,
    Program.parse "for i in range((n)): { }" = .ok p ∧ (Tree.program p).Has loop ∧
      loop.children[1]? = some first ∧ first.isImplicit = true ∧
      loop.LeftOut "for i in range((n)): { }" first ∧
      loop.children[2]? = some bound ∧ bound.leafText? = some (Text.ofString "n") ∧
      Text.slice "for i in range((n)): { }" bound.span.start.offset.toNat
        bound.span.stop.offset.toNat = "n" := by
  have ht : Token.tokenize "for i in range((n)): { }" =
      [⟨.keyword .forWord, "for", ⟨1, 1, 0⟩⟩, ⟨.name, "i", ⟨1, 5, 4⟩⟩,
        ⟨.keyword .inWord, "in", ⟨1, 7, 6⟩⟩, ⟨.keyword .rangeWord, "range", ⟨1, 10, 9⟩⟩,
        ⟨.op .lparen, "(", ⟨1, 15, 14⟩⟩, ⟨.op .lparen, "(", ⟨1, 16, 15⟩⟩, ⟨.name, "n", ⟨1, 17, 16⟩⟩,
        ⟨.op .rparen, ")", ⟨1, 18, 17⟩⟩, ⟨.op .rparen, ")", ⟨1, 19, 18⟩⟩,
        ⟨.op .colon, ":", ⟨1, 20, 19⟩⟩, ⟨.op .lbrace, Op.lbrace.symbol, ⟨1, 22, 21⟩⟩,
        ⟨.op .rbrace, Op.rbrace.symbol, ⟨1, 24, 23⟩⟩] := by
    decide
  have hp : ∃ place s₀ s₁ s₂ v₀ v₁ w body, Program.parse "for i in range((n)): { }" =
      .ok ⟨place, [.forLoop s₀ ⟨s₁, "i"⟩
        ⟨Parser.implicit w v₀, .name ⟨s₂, "n"⟩, Parser.implicit w v₁⟩ body]⟩ := by
    rw [Program.parse, ht]
    exact ⟨_, _, _, _, _, _, _, _, rfl⟩
  obtain ⟨place, s₀, s₁, s₂, v₀, v₁, w, body, hparse⟩ := hp
  have hfaithful := spans_nest_and_leaves_are_faithful hparse
  have hloop : (Tree.program ⟨place, [.forLoop s₀ ⟨s₁, "i"⟩
      ⟨Parser.implicit w v₀, .name ⟨s₂, "n"⟩, Parser.implicit w v₁⟩ body]⟩).Has _ :=
    .child .root (.head _)
  have hfirst := Parser.isImplicit_implicit w v₀
  refine ⟨_, _, _, _, hparse, hloop, rfl, hfirst, ?_, rfl, rfl, ?_⟩
  · exact (hfaithful _ hloop).leftOut _ (.tail _ (.head _)) hfirst
  · exact (hfaithful _ (hloop.child (.tail _ (.tail _ (.head _))))).leaf _ rfl rfl

end ThreeAddress
