import ThreeAddress.Proofs.Bare
import ThreeAddress.Syntax.Parser

/-! Tokens and trees at other places. The parser takes every position from a token and never looks
at one, so a stream whose tokens are moved is parsed to the same tree with its positions moved. -/
namespace ThreeAddress

def Token.relocate (f : Pos → Pos) (t : Token) : Token := ⟨t.kind, t.text, f t.pos⟩

variable {f : Pos → Pos}

namespace Expr

variable {e : Expr}

/-- An expression that is there; one that is missing stands nowhere, before and after. -/
def Present (e : Expr) : Prop := e ≠ .missing

theorem span_relocate (h : e.Present) : (e.relocate f).span = e.span.relocate f := by
  cases e with
  | missing => exact absurd rfl h
  | _ => rfl

theorem start_relocate (h : e.Present) : (e.relocate f).start = f e.start := by
  rw [start, span_relocate h]
  rfl

theorem stop_relocate (h : e.Present) : (e.relocate f).stop = f e.stop := by
  rw [stop, span_relocate h]
  rfl

theorem name?_relocate : (e.relocate f).name? = e.name?.map (Name.relocate f) := by
  cases e <;> rfl

end Expr

@[simp] theorem Token.kind_relocate (t : Token) : (t.relocate f).kind = t.kind := rfl

@[simp] theorem Token.pos_relocate (t : Token) : (t.relocate f).pos = f t.pos := rfl

@[simp] theorem Token.text_relocate (t : Token) : (t.relocate f).text = t.text := rfl

@[simp] theorem Token.describe_relocate (t : Token) : (t.relocate f).describe = t.describe := rfl

/-- The bytes of a line are moved together. -/
def Pos.Rigid (f : Pos → Pos) : Prop := ∀ p s, f (Pos.past p s) = (f p).past s

theorem Token.stop_relocate (hf : Pos.Rigid f) (t : Token) : (t.relocate f).stop = f t.stop :=
  (hf t.pos t.text).symm

theorem Token.span_relocate (hf : Pos.Rigid f) (t : Token) :
    (t.relocate f).span = t.span.relocate f := by
  rw [span, stop_relocate hf]
  rfl

def SyntaxError.relocate (f : Pos → Pos) (e : SyntaxError) : SyntaxError :=
  { e with pos := f e.pos }

/-- A result or an error, moved. -/
def moved {α : Type} (f : Pos → Pos) (g : α → α) : Except SyntaxError α → Except SyntaxError α
  | .ok a => .ok (g a)
  | .error e => .error (e.relocate f)

theorem moved_map {α β : Type} {g : α → α} {g' : β → β} {k k' : α → β} {r : Except SyntaxError α}
    (h : ∀ a, r = .ok a → g' (k a) = k' (g a)) : (moved f g r).map k' = moved f g' (r.map k) := by
  cases r with
  | error e => rfl
  | ok a => exact congrArg Except.ok (h a rfl).symm

namespace Pending

/-- A left operand that waits, moved. -/
def relocateLeft (f : Pos → Pos) : Option (Expr × Kind) → Option (Expr × Kind)
  | .none => .none
  | some (left, op) => some (left.relocate f, op)

def relocate (f : Pos → Pos) (p : Pending) : Pending :=
  ⟨relocateLeft f p.comparison, relocateLeft f p.sum, relocateLeft f p.product,
    p.signs.map (Token.relocate f)⟩

/-- Every operand that waits is there. -/
structure Present (p : Pending) : Prop where
  comparison : ∀ x ∈ p.comparison, x.1.Present
  sum : ∀ x ∈ p.sum, x.1.Present
  product : ∀ x ∈ p.product, x.1.Present

variable {p : Pending} {left : Option (Expr × Kind)} {e : Expr}

theorem present_none : Pending.none.Present := ⟨nofun, nofun, nofun⟩

theorem present_join (h : e.Present) : (join left e).Present := by
  rcases left with _ | ⟨left, op⟩
  · exact h
  · exact Expr.noConfusion

theorem present_signed (h : e.Present) : (p.signed e).Present := by
  unfold signed
  generalize p.signs = signs
  induction signs generalizing e with
  | nil => exact h
  | cons t signs ih => exact ih (e := .unary _ _ _) Expr.noConfusion

theorem present_factor (h : e.Present) : (p.factor e).Present := present_join (present_signed h)

theorem present_term (h : e.Present) : (p.term e).Present := present_join (present_factor h)

theorem present_whole (h : e.Present) : (p.whole e).Present := present_join (present_term h)

theorem join_relocate (hl : ∀ x ∈ left, x.1.Present) (h : e.Present) :
    join (relocateLeft f left) (e.relocate f) = (join left e).relocate f := by
  rcases left with _ | ⟨left, op⟩
  · rfl
  · simp only [relocateLeft, join, Expr.relocate, Span.relocate, Expr.start_relocate (hl _ rfl),
      Expr.stop_relocate h]

theorem signed_relocate (h : e.Present) :
    (p.relocate f).signed (e.relocate f) = (p.signed e).relocate f := by
  unfold signed relocate
  simp only
  generalize p.signs = signs
  induction signs generalizing e with
  | nil => rfl
  | cons t signs ih =>
    simp only [List.map_cons, List.foldl_cons]
    rw [← ih (e := .unary ⟨t.pos, e.stop⟩ t.kind e) Expr.noConfusion]
    simp only [Expr.relocate, Span.relocate, Expr.stop_relocate h, Token.kind_relocate,
      Token.pos_relocate]

theorem factor_relocate (hp : p.Present) (h : e.Present) :
    (p.relocate f).factor (e.relocate f) = (p.factor e).relocate f := by
  rw [factor, signed_relocate h]
  exact join_relocate hp.product (present_signed h)

theorem term_relocate (hp : p.Present) (h : e.Present) :
    (p.relocate f).term (e.relocate f) = (p.term e).relocate f := by
  rw [term, factor_relocate hp h]
  exact join_relocate hp.sum (present_factor h)

theorem whole_relocate (hp : p.Present) (h : e.Present) :
    (p.relocate f).whole (e.relocate f) = (p.whole e).relocate f := by
  rw [whole, term_relocate hp h]
  exact join_relocate hp.comparison (present_term h)

end Pending

theorem numberLeaf_relocate (hf : Pos.Rigid f) (t : Token) :
    numberLeaf (t.relocate f) = moved f (Expr.relocate f) (numberLeaf t) := by
  unfold numberLeaf
  simp only [Token.text_relocate, Token.pos_relocate, Token.span_relocate hf]
  split
  · rfl
  · split <;> rfl

theorem present_numberLeaf {t : Token} {e : Expr} (h : numberLeaf t = .ok e) : e.Present := by
  unfold numberLeaf at h
  split at h
  · cases h
  · split at h
    · cases h
    · obtain rfl := Except.ok.inj h
      exact Expr.noConfusion

def Reading.relocate (f : Pos → Pos) (r : Reading) : Reading :=
  ⟨r.outer.map (Pending.relocate f), r.inner.relocate f, r.operand.map (Expr.relocate f)⟩

/-- Every operand that was read is there. -/
structure Reading.Present (r : Reading) : Prop where
  outer : ∀ p ∈ r.outer, p.Present
  inner : r.inner.Present
  operand : ∀ e ∈ r.operand, e.Present

def Progress.relocate (f : Pos → Pos) : Progress → Progress
  | .more r => .more (r.relocate f)
  | .whole e => .whole (e.relocate f)

def Progress.Present : Progress → Prop
  | .more r => r.Present
  | .whole e => e.Present

namespace Reading

variable {r r' : Reading} {e : Expr} {t : Token} {progress : Progress}

theorem present_start : Reading.start.Present :=
  ⟨by simp [start], Pending.present_none, by simp [start]⟩

theorem Present.withOperand (h : r.Present) (he : e.Present) :
    Present { r with operand := some e } :=
  ⟨h.outer, h.inner, by rintro _ ⟨⟩; exact he⟩

theorem Present.takeOperand (h : r.Present) (ht : r.takeOperand t = .ok r') : r'.Present := by
  unfold Reading.takeOperand at ht
  split at ht
  · cases hleaf : numberLeaf t with
    | error e => rw [hleaf] at ht; cases ht
    | ok e =>
      rw [hleaf] at ht
      obtain rfl := Except.ok.inj ht
      exact h.withOperand (present_numberLeaf hleaf)
  · obtain rfl := Except.ok.inj ht
    exact h.withOperand Expr.noConfusion
  · obtain rfl := Except.ok.inj ht
    exact h.withOperand Expr.noConfusion
  · obtain rfl := Except.ok.inj ht
    exact h.withOperand Expr.noConfusion
  · obtain rfl := Except.ok.inj ht
    exact ⟨List.forall_mem_cons.2 ⟨h.inner, h.outer⟩, Pending.present_none, by simp⟩
  · split at ht
    · obtain rfl := Except.ok.inj ht
      exact ⟨h.outer, ⟨h.inner.comparison, h.inner.sum, h.inner.product⟩, h.operand⟩
    · cases ht
  · cases ht

theorem Present.leave (h : r.Present) (he : e.Present) (ht : r.leave e t = .ok progress) :
    progress.Present := by
  unfold Reading.leave at ht
  split at ht
  · obtain rfl := Except.ok.inj ht
    exact Pending.present_whole he
  · rename_i p outer houter
    split at ht
    · obtain rfl := Except.ok.inj ht
      have hall := h.outer
      rw [houter] at hall
      obtain ⟨hp, hrest⟩ := List.forall_mem_cons.1 hall
      exact ⟨hrest, hp, by rintro _ ⟨⟩; exact Pending.present_whole he⟩
    · cases ht

theorem Present.takeOperator (h : r.Present) (he : e.Present)
    (ht : r.takeOperator e t = .ok progress) : progress.Present := by
  unfold Reading.takeOperator at ht
  split at ht
  · split at ht
    · obtain rfl := Except.ok.inj ht
      refine ⟨h.outer, ⟨h.inner.comparison, h.inner.sum, ?_⟩, by simp⟩
      rintro _ ⟨⟩
      exact Pending.present_factor he
    · split at ht
      · obtain rfl := Except.ok.inj ht
        refine ⟨h.outer, ⟨h.inner.comparison, ?_, by simp⟩, by simp⟩
        rintro _ ⟨⟩
        exact Pending.present_term he
      · split at ht
        · split at ht
          · cases ht
          · obtain rfl := Except.ok.inj ht
            refine ⟨h.outer, ⟨?_, by simp, by simp⟩, by simp⟩
            rintro _ ⟨⟩
            exact Pending.present_term he
        · exact h.leave he ht
  · exact h.leave he ht

theorem Present.step (h : r.Present) (ht : r.step t = .ok progress) : progress.Present := by
  unfold Reading.step at ht
  split at ht
  · cases htake : r.takeOperand t with
    | error e => rw [htake] at ht; cases ht
    | ok r' =>
      rw [htake] at ht
      obtain rfl := Except.ok.inj ht
      exact h.takeOperand htake
  · rename_i e he
    exact h.takeOperator (h.operand e he) ht

theorem takeOperand_relocate (hf : Pos.Rigid f) (r : Reading) (t : Token) :
    (r.relocate f).takeOperand (t.relocate f) = moved f (relocate f) (r.takeOperand t) := by
  unfold takeOperand
  simp only [Token.kind_relocate, Token.text_relocate, Token.span_relocate hf]
  split
  · rw [numberLeaf_relocate hf]
    exact moved_map fun _ _ => rfl
  · rfl
  · rfl
  · rfl
  · rfl
  · split <;> rfl
  · rfl

theorem leave_relocate (h : r.Present) (he : e.Present) (t : Token) :
    (r.relocate f).leave (e.relocate f) (t.relocate f) =
      moved f (Progress.relocate f) (r.leave e t) := by
  obtain ⟨outer, inner, operand⟩ := r
  have hwhole := Pending.whole_relocate (f := f) h.inner he
  cases outer with
  | nil =>
    simp only [leave, relocate, List.map_nil, hwhole]
    rfl
  | cons p outer =>
    simp only [leave, relocate, List.map_cons, hwhole, Token.kind_relocate]
    split <;> rfl

theorem takeOperator_relocate (h : r.Present) (he : e.Present) (t : Token) :
    (r.relocate f).takeOperator (e.relocate f) (t.relocate f) =
      moved f (Progress.relocate f) (r.takeOperator e t) := by
  have hleave := leave_relocate (f := f) h he t
  have hfactor := Pending.factor_relocate (f := f) h.inner he
  have hterm := Pending.term_relocate (f := f) h.inner he
  obtain ⟨outer, inner, operand⟩ := r
  unfold takeOperator
  simp only [Token.kind_relocate]
  split
  · split
    · simp only [relocate, hfactor]
      rfl
    · split
      · simp only [relocate, hterm]
        rfl
      · split
        · have hcomparison : (inner.relocate f).comparison =
              Pending.relocateLeft f inner.comparison := rfl
          simp only [relocate, hterm, hcomparison]
          rcases inner.comparison with _ | ⟨left, op⟩ <;> rfl
        · exact hleave
  · exact hleave

theorem step_relocate (hf : Pos.Rigid f) (h : r.Present) (t : Token) :
    (r.relocate f).step (t.relocate f) = moved f (Progress.relocate f) (r.step t) := by
  obtain ⟨outer, inner, operand⟩ := r
  cases operand with
  | none =>
    exact (congrArg (Except.map Progress.more) (takeOperand_relocate hf _ t)).trans
      (moved_map fun _ _ => rfl)
  | some e => exact takeOperator_relocate h (h.operand e rfl) t

end Reading

namespace Parser

def Purpose.relocate (f : Pos → Pos) : Purpose → Purpose
  | .simple => .simple
  | .assigned target op => .assigned (target.relocate f) op
  | .guard start done => .guard (f start) (done.map (Branch.relocate f))
  | .loopGuard start => .loopGuard (f start)
  | .bound start var word args =>
    .bound (f start) (var.relocate f) (f word) (args.map (Expr.relocate f))

def Owner.relocate (f : Pos → Pos) : Owner → Owner
  | .branch start done cond => .branch (f start) (done.map (Branch.relocate f)) (cond.relocate f)
  | .otherwise start done => .otherwise (f start) (done.map (Branch.relocate f))
  | .whileBody start cond => .whileBody (f start) (cond.relocate f)
  | .forBody start var range => .forBody (f start) (var.relocate f) (range.relocate f)

def Phase.relocate (f : Pos → Pos) : Phase → Phase
  | .between => .between
  | .expr purpose reading => .expr (purpose.relocate f) (reading.relocate f)
  | .loopName start => .loopName (f start)
  | .loopIn start var => .loopIn (f start) (var.relocate f)
  | .loopRange start var => .loopRange (f start) (var.relocate f)
  | .rangeOpen start var word => .rangeOpen (f start) (var.relocate f) (f word)
  | .firstBound start var word => .firstBound (f start) (var.relocate f) (f word)
  | .loopColon start var range => .loopColon (f start) (var.relocate f) (range.relocate f)
  | .elseColon start done => .elseColon (f start) (done.map (Branch.relocate f))
  | .brace owner => .brace (owner.relocate f)
  | .afterBranch start done stop =>
    .afterBranch (f start) (done.map (Branch.relocate f)) (f stop)

def Open.relocate (f : Pos → Pos) (b : Open) : Open :=
  ⟨b.owner.relocate f, f b.opens, b.before.map (Stmt.relocate f)⟩

def State.relocate (f : Pos → Pos) (s : State) : State :=
  ⟨s.blocks.map (Open.relocate f), s.stmts.map (Stmt.relocate f), s.phase.relocate f⟩

/-- The arguments of `range` that were read are there. -/
def Purpose.Present : Purpose → Prop
  | .bound _ _ _ args => ∀ e ∈ args, e.Present
  | _ => True

/-- No part of the expression in front of the next token is missing. -/
def Phase.Present : Phase → Prop
  | .expr purpose reading => purpose.Present ∧ reading.Present
  | _ => True

namespace State

variable {s s' : State} {t : Token} {purpose : Purpose} {e : Expr}

theorem present_begin (h : s.begin purpose t = .ok s') (hp : purpose.Present) :
    s'.phase.Present := by
  unfold begin at h
  cases htake : Reading.start.takeOperand t with
  | error e => rw [htake] at h; cases h
  | ok r =>
    rw [htake] at h
    obtain rfl := Except.ok.inj h
    exact ⟨hp, Reading.present_start.takeOperand htake⟩

theorem present_close (b : Open) (blocks : List Open) : (s.close b blocks t).phase.Present := by
  unfold close
  cases b.owner <;> trivial

theorem present_between (h : s.between t = .ok s') : s'.phase.Present := by
  unfold between at h
  split at h
  · obtain rfl := Except.ok.inj h
    trivial
  · obtain rfl := Except.ok.inj h
    exact ⟨trivial, Reading.present_start⟩
  · obtain rfl := Except.ok.inj h
    exact ⟨trivial, Reading.present_start⟩
  · obtain rfl := Except.ok.inj h
    trivial
  · obtain rfl := Except.ok.inj h
    trivial
  · obtain rfl := Except.ok.inj h
    trivial
  · split at h
    · split at h
      · obtain rfl := Except.ok.inj h
        trivial
      · split at h
        · exact present_begin h trivial
        · cases h
    · split at h
      · obtain rfl := Except.ok.inj h
        exact present_close _ _
      · split at h
        · cases h
        · split at h
          · exact present_begin h trivial
          · cases h

theorem present_expect {kind : Kind} {phase : Phase} (h : s.expect kind t phase = .ok s')
    (hphase : phase.Present) : s'.phase.Present := by
  unfold expect at h
  split at h
  · obtain rfl := Except.ok.inj h
    exact hphase
  · cases h

theorem present_closeRange {start word : Pos} {var : Name} {args : List Expr}
    (h : s.closeRange start var word args t = .ok s') : s'.phase.Present := by
  unfold closeRange at h
  simp only at h
  split at h
  · exact present_expect h trivial
  · exact present_expect h trivial
  · exact present_expect h trivial
  · cases h
  · cases h

theorem present_complete (hp : purpose.Present) (he : e.Present)
    (h : s.complete purpose e t = .ok s') : s'.phase.Present := by
  cases purpose with
  | simple =>
    simp only [complete] at h
    split at h
    · split at h
      · obtain rfl := Except.ok.inj h
        exact ⟨trivial, Reading.present_start⟩
      · cases h
    · exact present_between h
  | assigned target op => exact present_between h
  | guard start done => exact present_expect h trivial
  | loopGuard start => exact present_expect h trivial
  | bound start var word args =>
    simp only [complete] at h
    split at h
    · obtain rfl := Except.ok.inj h
      exact ⟨List.forall_mem_cons.2 ⟨he, hp⟩, Reading.present_start⟩
    · exact present_closeRange h

/-- The parser never makes up an operand that is missing. -/
theorem present_step (hs : s.phase.Present) (h : s.step t = .ok s') : s'.phase.Present := by
  unfold step at h
  split at h
  · cases h
  · split at h
    · exact present_between h
    · rename_i purpose reading hphase
      rw [hphase] at hs
      split at h
      · cases h
      · rename_i r hstep
        obtain rfl := Except.ok.inj h
        exact ⟨hs.1, hs.2.step hstep⟩
      · rename_i e hstep
        exact present_complete hs.1 (hs.2.step hstep) h
    · exact present_expect h trivial
    · exact present_expect h trivial
    · exact present_expect h trivial
    · exact present_expect h trivial
    · split at h
      · cases h
      · exact present_begin h (by simp [Purpose.Present])
    · exact present_expect h trivial
    · exact present_expect h trivial
    · split at h
      · obtain rfl := Except.ok.inj h
        trivial
      · cases h
    · split at h
      · obtain rfl := Except.ok.inj h
        exact ⟨trivial, Reading.present_start⟩
      · split at h
        · obtain rfl := Except.ok.inj h
          trivial
        · exact present_between h

theorem expect_relocate (s : State) (kind : Kind) (t : Token) (phase : Phase) :
    (s.relocate f).expect kind (t.relocate f) (phase.relocate f) =
      moved f (relocate f) (s.expect kind t phase) := by
  unfold expect
  rw [apply_ite (moved f (relocate f))]
  rfl

theorem begin_relocate (hf : Pos.Rigid f) (s : State) (purpose : Purpose) (t : Token) :
    (s.relocate f).begin (purpose.relocate f) (t.relocate f) =
      moved f (relocate f) (s.begin purpose t) := by
  unfold begin
  rw [show Reading.start = Reading.start.relocate f from rfl, Reading.takeOperand_relocate hf]
  exact moved_map fun _ _ => rfl

theorem close_relocate (hf : Pos.Rigid f) (s : State) (b : Open) (blocks : List Open) (t : Token) :
    (s.relocate f).close (b.relocate f) (blocks.map (Open.relocate f)) (t.relocate f) =
      (s.close b blocks t).relocate f := by
  obtain ⟨owner, opens, before⟩ := b
  cases owner <;> simp [close, relocate, Open.relocate, Owner.relocate, enter, push,
    Phase.relocate, Branch.relocate, Block.relocate, Stmt.relocate, Span.relocate,
    Token.stop_relocate hf]

theorem between_relocate (hf : Pos.Rigid f) (s : State) (t : Token) :
    (s.relocate f).between (t.relocate f) = moved f (relocate f) (s.between t) := by
  have hspan := Token.span_relocate hf t
  obtain ⟨blocks, stmts, phase⟩ := s
  unfold between
  simp only [Token.kind_relocate, hspan, Token.pos_relocate]
  split
  · rfl
  · rfl
  · rfl
  · rfl
  · rfl
  · rfl
  · cases blocks with
    | nil =>
      simp only [relocate, List.map_nil, apply_ite (moved f (relocate f))]
      refine ite_congr rfl (fun _ => rfl) fun _ => ite_congr rfl (fun _ => ?_) fun _ => rfl
      exact begin_relocate hf ⟨[], stmts, phase⟩ .simple t
    | cons b blocks =>
      simp only [relocate, List.map_cons, apply_ite (moved f (relocate f))]
      refine ite_congr rfl (fun _ => ?_) fun _ => ite_congr rfl (fun _ => rfl) fun _ =>
        ite_congr rfl (fun _ => ?_) fun _ => rfl
      · exact congrArg Except.ok (close_relocate hf ⟨b :: blocks, stmts, phase⟩ b blocks t)
      · exact begin_relocate hf ⟨b :: blocks, stmts, phase⟩ .simple t

theorem closeRange_relocate (s : State) (start word : Pos) (var : Name) {args : List Expr}
    (hargs : ∀ e ∈ args, e.Present) (t : Token) :
    (s.relocate f).closeRange (f start) (var.relocate f) (f word) (args.map (Expr.relocate f))
      (t.relocate f) = moved f (relocate f) (s.closeRange start var word args t) := by
  unfold closeRange
  simp only [← List.map_reverse, List.length_map]
  have hpresent : ∀ e ∈ args.reverse, e.Present := by simpa using hargs
  generalize args.reverse = given at hpresent
  rcases given with _ | ⟨a, _ | ⟨b, _ | ⟨c, _ | ⟨d, rest⟩⟩⟩⟩
  · rfl
  · exact expect_relocate s _ t (.loopColon start var ⟨implicit word 0, a, implicit word 1⟩)
  · exact expect_relocate s _ t (.loopColon start var ⟨a, b, implicit word 1⟩)
  · exact expect_relocate s _ t (.loopColon start var ⟨a, b, c⟩)
  · simp only [List.map_cons, Expr.start_relocate (hpresent d (by simp))]
    rfl

theorem complete_relocate (hf : Pos.Rigid f) (s : State) (hp : purpose.Present) (he : e.Present)
    (t : Token) :
    (s.relocate f).complete (purpose.relocate f) (e.relocate f) (t.relocate f) =
      moved f (relocate f) (s.complete purpose e t) := by
  cases purpose with
  | simple =>
    simp only [complete, Purpose.relocate, Token.kind_relocate, Expr.name?_relocate,
      apply_ite (moved f (relocate f))]
    refine ite_congr rfl (fun _ => ?_) fun _ => ?_
    · cases e.name? <;> rfl
    · rw [Expr.span_relocate he, ← between_relocate hf]
      rfl
  | assigned target op =>
    simp only [complete, Purpose.relocate, Expr.stop_relocate he]
    rw [← between_relocate hf]
    rfl
  | guard start done => exact expect_relocate s _ t (.brace (.branch start done e))
  | loopGuard start => exact expect_relocate s _ t (.brace (.whileBody start e))
  | bound start var word args =>
    simp only [complete, Purpose.relocate, Token.kind_relocate, apply_ite (moved f (relocate f))]
    refine ite_congr rfl (fun _ => rfl) fun _ => ?_
    exact closeRange_relocate s start word var (List.forall_mem_cons.2 ⟨he, hp⟩) t

/-- Moving the state and the token moves what the parser makes of them. -/
theorem step_relocate (hf : Pos.Rigid f) (hs : s.phase.Present) (t : Token) :
    (s.relocate f).step (t.relocate f) = moved f (relocate f) (s.step t) := by
  have hspan := Token.span_relocate hf t
  obtain ⟨blocks, stmts, phase⟩ := s
  unfold step
  rw [apply_ite (moved f (relocate f))]
  refine ite_congr rfl (fun _ => rfl) fun _ => ?_
  cases phase with
  | between => exact between_relocate hf _ t
  | expr purpose reading =>
    simp only [relocate, Phase.relocate, Reading.step_relocate hf hs.2]
    cases hstep : reading.step t with
    | error e => rfl
    | ok progress =>
      cases progress with
      | more r => rfl
      | whole e => exact complete_relocate hf ⟨blocks, stmts, _⟩ hs.1 (hs.2.step hstep) t
  | loopName start =>
    simp only [relocate, Phase.relocate, hspan]
    exact expect_relocate ⟨blocks, stmts, _⟩ _ t (.loopIn start ⟨t.span, t.text⟩)
  | loopIn start var => exact expect_relocate ⟨blocks, stmts, _⟩ _ t (.loopRange start var)
  | loopRange start var => exact expect_relocate ⟨blocks, stmts, _⟩ _ t (.rangeOpen start var t.pos)
  | rangeOpen start var word =>
    exact expect_relocate ⟨blocks, stmts, _⟩ _ t (.firstBound start var word)
  | firstBound start var word =>
    simp only [relocate, Phase.relocate, apply_ite (moved f (relocate f))]
    refine ite_congr rfl (fun _ => rfl) fun _ => ?_
    exact begin_relocate hf ⟨blocks, stmts, _⟩ (.bound start var word []) t
  | loopColon start var range =>
    exact expect_relocate ⟨blocks, stmts, _⟩ _ t (.brace (.forBody start var range))
  | elseColon start done =>
    exact expect_relocate ⟨blocks, stmts, _⟩ _ t (.brace (.otherwise start done))
  | brace owner =>
    simp only [apply_ite (moved f (relocate f))]
    rfl
  | afterBranch start done stop =>
    simp only [apply_ite (moved f (relocate f)), ← between_relocate hf]
    refine ite_congr rfl (fun _ => rfl) fun _ => ite_congr rfl (fun _ => rfl) fun _ => ?_
    simp [push, relocate, Phase.relocate, Stmt.relocate, Span.relocate]

end State

end Parser

end ThreeAddress
