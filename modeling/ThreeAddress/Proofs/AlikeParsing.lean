import ThreeAddress.Proofs.Alike
import ThreeAddress.Syntax.Parser

/-! The parser looks at the kinds of tokens, and at the texts of names and numbers. Token streams
that agree in these are read to alike trees, or fail at tokens that stand in the same place of their
streams. The proof relates the states of two parsers step by step. -/
namespace ThreeAddress

/-- Two computations that both succeed or both fail, with related results. -/
inductive Both {ε ε' α α' : Type} (E : ε → ε' → Prop) (A : α → α' → Prop) :
    Except ε α → Except ε' α' → Prop
  | ok {a : α} {a' : α'} : A a a' → Both E A (.ok a) (.ok a')
  | error {e : ε} {e' : ε'} : E e e' → Both E A (.error e) (.error e')

theorem Both.map {ε ε' α α' β β' : Type} {E : ε → ε' → Prop} {A : α → α' → Prop}
    {B : β → β' → Prop} {x : Except ε α} {x' : Except ε' α'} {f : α → β} {f' : α' → β'}
    (h : Both E A x x') (hf : ∀ {a a'}, A a a' → B (f a) (f' a')) :
    Both E B (x.map f) (x'.map f') := by
  cases h with
  | ok ha => exact .ok (hf ha)
  | error he => exact .error he

variable {R : Pos → Pos → Prop}

/-- Tokens of one kind, with the same text if they are names or numbers, at places that `R`
pairs. -/
structure Token.Alike (R : Pos → Pos → Prop) (t t' : Token) : Prop where
  kind : t.kind = t'.kind
  text : t.kind.isLiteral = true → t.text = t'.text
  pos : R t.pos t'.pos

theorem Token.Alike.name {t t' : Token} (h : t.Alike R t') (hk : t.kind = .name) :
    Name.Alike R ⟨t.span, t.text⟩ ⟨t'.span, t'.text⟩ :=
  ⟨h.text (by rw [hk]; rfl), h.pos⟩

/-- Errors at places that `R` pairs. -/
def SyntaxError.Alike (R : Pos → Pos → Prop) (e e' : SyntaxError) : Prop := R e.pos e'.pos

/-- A left operand that waits, with its operator. -/
abbrev WaitingAlike (R : Pos → Pos → Prop) (w w' : Option (Expr × Kind)) : Prop :=
  Option.Rel (fun a a' => a.1.Alike R a'.1 ∧ a.2 = a'.2) w w'

structure Pending.Alike (R : Pos → Pos → Prop) (p p' : Pending) : Prop where
  comparison : WaitingAlike R p.comparison p'.comparison
  sum : WaitingAlike R p.sum p'.sum
  product : WaitingAlike R p.product p'.product
  signs : List.Forall₂ (Token.Alike R) p.signs p'.signs

namespace Pending

variable {p p' : Pending} {e e' : Expr} {w w' : Option (Expr × Kind)}

theorem alike_none : Pending.none.Alike R .none := ⟨.none, .none, .none, .nil⟩

theorem join_alike (hw : WaitingAlike R w w') (h : e.Alike R e') :
    (join w e).Alike R (join w' e') := by
  cases hw with
  | none => exact h
  | @some a a' ha =>
    obtain ⟨left, op⟩ := a
    obtain ⟨left', op'⟩ := a'
    obtain ⟨hleft, rfl⟩ := ha
    exact .binary hleft.start hleft h

theorem Alike.signed (hp : p.Alike R p') (h : e.Alike R e') :
    (p.signed e).Alike R (p'.signed e') := by
  unfold Pending.signed
  obtain ⟨-, -, -, hsigns⟩ := hp
  generalize p.signs = signs at hsigns
  generalize p'.signs = signs' at hsigns
  induction hsigns generalizing e e' with
  | nil => exact h
  | @cons t t' _ _ ht _ ih =>
    apply ih
    simp only [ht.kind]
    exact .unary ht.pos h

theorem Alike.factor (hp : p.Alike R p') (h : e.Alike R e') : (p.factor e).Alike R (p'.factor e') :=
  join_alike hp.product (hp.signed h)

theorem Alike.term (hp : p.Alike R p') (h : e.Alike R e') : (p.term e).Alike R (p'.term e') :=
  join_alike hp.sum (hp.factor h)

theorem Alike.whole (hp : p.Alike R p') (h : e.Alike R e') : (p.whole e).Alike R (p'.whole e') :=
  join_alike hp.comparison (hp.term h)

end Pending

structure Reading.Alike (R : Pos → Pos → Prop) (r r' : Reading) : Prop where
  outer : List.Forall₂ (Pending.Alike R) r.outer r'.outer
  inner : r.inner.Alike R r'.inner
  operand : Option.Rel (Expr.Alike R) r.operand r'.operand

inductive Progress.Alike (R : Pos → Pos → Prop) : Progress → Progress → Prop
  | more {r r' : Reading} : r.Alike R r' → Alike R (.more r) (.more r')
  | whole {e e' : Expr} : e.Alike R e' → Alike R (.whole e) (.whole e')

theorem numberLeaf_alike {t t' : Token} (ht : t.Alike R t') (hk : t.kind = .number) :
    Both (SyntaxError.Alike R) (Expr.Alike R) (numberLeaf t) (numberLeaf t') := by
  have htext : t.text = t'.text := ht.text (by rw [hk]; rfl)
  unfold numberLeaf
  rw [← htext]
  split
  · exact .error ht.pos
  · split
    · exact .error ht.pos
    · exact .ok (.number ht.pos)

namespace Reading

variable {r r' : Reading} {e e' : Expr} {t t' : Token}

theorem alike_start : Reading.start.Alike R .start := ⟨.nil, Pending.alike_none, .none⟩

theorem Alike.withOperand (hr : r.Alike R r') (h : e.Alike R e') :
    ({ r with operand := some e } : Reading).Alike R { r' with operand := some e' } :=
  ⟨hr.outer, hr.inner, .some h⟩

theorem Alike.takeOperand (hr : r.Alike R r') (ht : t.Alike R t') :
    Both (SyntaxError.Alike R) (Reading.Alike R) (r.takeOperand t) (r'.takeOperand t') := by
  unfold Reading.takeOperand
  rw [← ht.kind]
  split
  · rename_i hk
    exact (numberLeaf_alike ht hk).map fun h => hr.withOperand h
  · rename_i hk
    exact .ok (hr.withOperand (.name (ht.name hk)))
  · exact .ok (hr.withOperand (.boolean ht.pos))
  · exact .ok (hr.withOperand (.boolean ht.pos))
  · exact .ok ⟨.cons hr.inner hr.outer, Pending.alike_none, .none⟩
  · split
    · have hinner := hr.inner
      exact .ok ⟨hr.outer, ⟨hinner.comparison, hinner.sum, hinner.product, .cons ht hinner.signs⟩,
        hr.operand⟩
    · exact .error ht.pos
  · exact .error ht.pos

theorem Alike.leave (hr : r.Alike R r') (h : e.Alike R e') (ht : t.Alike R t') :
    Both (SyntaxError.Alike R) (Progress.Alike R) (r.leave e t) (r'.leave e' t') := by
  obtain ⟨outer, inner, operand⟩ := r
  obtain ⟨outer', inner', operand'⟩ := r'
  unfold Reading.leave
  have hwhole := hr.inner.whole h
  cases hr.outer with
  | nil => exact .ok (.whole hwhole)
  | cons hp houter =>
    rw [← ht.kind]
    simp only
    split
    · exact .ok (.more ⟨houter, hp, .some hwhole⟩)
    · exact .error ht.pos

theorem Alike.takeOperator (hr : r.Alike R r') (h : e.Alike R e') (ht : t.Alike R t') :
    Both (SyntaxError.Alike R) (Progress.Alike R) (r.takeOperator e t) (r'.takeOperator e' t') := by
  obtain ⟨outer, ⟨comparison, sum, product, signs⟩, operand⟩ := r
  obtain ⟨outer', ⟨comparison', sum', product', signs'⟩, operand'⟩ := r'
  have hinner := hr.inner
  unfold Reading.takeOperator
  rw [← ht.kind]
  split
  · split
    · exact .ok (.more ⟨hr.outer, ⟨hinner.comparison, hinner.sum, .some ⟨hinner.factor h, rfl⟩, .nil⟩,
        .none⟩)
    · split
      · exact .ok (.more ⟨hr.outer, ⟨hinner.comparison, .some ⟨hinner.term h, rfl⟩, .none, .nil⟩,
          .none⟩)
      · split
        · have hterm := hinner.term h
          cases hinner.comparison with
          | none => exact .ok (.more ⟨hr.outer, ⟨.some ⟨hterm, rfl⟩, .none, .none, .nil⟩, .none⟩)
          | some _ => exact .error ht.pos
        · exact hr.leave h ht
  · exact hr.leave h ht

theorem Alike.step (hr : r.Alike R r') (ht : t.Alike R t') :
    Both (SyntaxError.Alike R) (Progress.Alike R) (r.step t) (r'.step t') := by
  obtain ⟨outer, inner, operand⟩ := r
  obtain ⟨outer', inner', operand'⟩ := r'
  unfold Reading.step
  cases hr.operand with
  | none => exact (hr.takeOperand ht).map fun h => .more h
  | some h => exact hr.takeOperator h ht

end Reading

namespace Parser

inductive Purpose.Alike (R : Pos → Pos → Prop) : Purpose → Purpose → Prop
  | simple : Alike R .simple .simple
  | assigned {target target' : Name} {op : Kind} : target.Alike R target' →
      Alike R (.assigned target op) (.assigned target' op)
  | guard {start start' : Pos} {done done' : List (Branch Stmt)} : R start start' →
      List.Forall₂ (Branch.Alike R) done done' → Alike R (.guard start done) (.guard start' done')
  | loopGuard {start start' : Pos} : R start start' → Alike R (.loopGuard start) (.loopGuard start')
  | bound {start start' word word' : Pos} {var var' : Name} {args args' : List Expr} :
      R start start' → var.Alike R var' → R word word' → List.Forall₂ (Expr.Alike R) args args' →
      Alike R (.bound start var word args) (.bound start' var' word' args')

inductive Owner.Alike (R : Pos → Pos → Prop) : Owner → Owner → Prop
  | branch {start start' : Pos} {done done' : List (Branch Stmt)} {cond cond' : Expr} :
      R start start' → List.Forall₂ (Branch.Alike R) done done' → cond.Alike R cond' →
      Alike R (.branch start done cond) (.branch start' done' cond')
  | otherwise {start start' : Pos} {done done' : List (Branch Stmt)} : R start start' →
      List.Forall₂ (Branch.Alike R) done done' →
      Alike R (.otherwise start done) (.otherwise start' done')
  | whileBody {start start' : Pos} {cond cond' : Expr} : R start start' → cond.Alike R cond' →
      Alike R (.whileBody start cond) (.whileBody start' cond')
  | forBody {start start' : Pos} {var var' : Name} {range range' : Range} : R start start' →
      var.Alike R var' → range.Alike R range' →
      Alike R (.forBody start var range) (.forBody start' var' range')

inductive Phase.Alike (R : Pos → Pos → Prop) : Phase → Phase → Prop
  | between : Alike R .between .between
  | expr {purpose purpose' : Purpose} {reading reading' : Reading} : purpose.Alike R purpose' →
      reading.Alike R reading' → Alike R (.expr purpose reading) (.expr purpose' reading')
  | loopName {start start' : Pos} : R start start' → Alike R (.loopName start) (.loopName start')
  | loopIn {start start' : Pos} {var var' : Name} : R start start' → var.Alike R var' →
      Alike R (.loopIn start var) (.loopIn start' var')
  | loopRange {start start' : Pos} {var var' : Name} : R start start' → var.Alike R var' →
      Alike R (.loopRange start var) (.loopRange start' var')
  | rangeOpen {start start' word word' : Pos} {var var' : Name} : R start start' →
      var.Alike R var' → R word word' →
      Alike R (.rangeOpen start var word) (.rangeOpen start' var' word')
  | firstBound {start start' word word' : Pos} {var var' : Name} : R start start' →
      var.Alike R var' → R word word' →
      Alike R (.firstBound start var word) (.firstBound start' var' word')
  | loopColon {start start' : Pos} {var var' : Name} {range range' : Range} : R start start' →
      var.Alike R var' → range.Alike R range' →
      Alike R (.loopColon start var range) (.loopColon start' var' range')
  | elseColon {start start' : Pos} {done done' : List (Branch Stmt)} : R start start' →
      List.Forall₂ (Branch.Alike R) done done' →
      Alike R (.elseColon start done) (.elseColon start' done')
  | brace {owner owner' : Owner} : owner.Alike R owner' → Alike R (.brace owner) (.brace owner')
  | afterBranch {start start' stop stop' : Pos} {done done' : List (Branch Stmt)} : R start start' →
      List.Forall₂ (Branch.Alike R) done done' →
      Alike R (.afterBranch start done stop) (.afterBranch start' done' stop')

structure Open.Alike (R : Pos → Pos → Prop) (b b' : Open) : Prop where
  owner : b.owner.Alike R b'.owner
  before : List.Forall₂ (Stmt.Alike R) b.before b'.before

structure State.Alike (R : Pos → Pos → Prop) (s s' : State) : Prop where
  blocks : List.Forall₂ (Open.Alike R) s.blocks s'.blocks
  stmts : List.Forall₂ (Stmt.Alike R) s.stmts s'.stmts
  phase : s.phase.Alike R s'.phase

theorem implicit_alike {word word' : Pos} (h : R word word') (value : Float) :
    (implicit word value).Alike R (implicit word' value) :=
  .number h

namespace State

variable {s s' : State} {t t' : Token} {phase phase' : Phase} {purpose purpose' : Purpose}
  {stmt stmt' : Stmt}

theorem alike_initial : State.initial.Alike R .initial := ⟨.nil, .nil, .between⟩

theorem Alike.enter (hs : s.Alike R s') (h : phase.Alike R phase') :
    (s.enter phase).Alike R (s'.enter phase') :=
  ⟨hs.blocks, hs.stmts, h⟩

theorem Alike.read (hs : s.Alike R s') (h : purpose.Alike R purpose') :
    (s.read purpose).Alike R (s'.read purpose') :=
  hs.enter (.expr h Reading.alike_start)

theorem Alike.push (hs : s.Alike R s') (h : stmt.Alike R stmt') :
    (s.push stmt).Alike R (s'.push stmt') :=
  ⟨hs.blocks, .cons h hs.stmts, .between⟩

theorem Alike.expect (hs : s.Alike R s') (ht : t.Alike R t') {kind : Kind}
    (h : t.kind = kind → phase.Alike R phase') :
    Both (SyntaxError.Alike R) (State.Alike R) (s.expect kind t phase)
      (s'.expect kind t' phase') := by
  unfold State.expect
  rw [← ht.kind]
  split
  · rename_i hk
    exact .ok (hs.enter (h hk))
  · exact .error ht.pos

theorem Alike.begin (hs : s.Alike R s') (ht : t.Alike R t') (h : purpose.Alike R purpose') :
    Both (SyntaxError.Alike R) (State.Alike R) (s.begin purpose t) (s'.begin purpose' t') :=
  (Reading.alike_start.takeOperand ht).map fun hr => hs.enter (.expr h hr)

theorem Alike.close (hs : s.Alike R s') {b b' : Open} {blocks blocks' : List Open}
    (hb : b.Alike R b') (hblocks : List.Forall₂ (Open.Alike R) blocks blocks') :
    (s.close b blocks t).Alike R (s'.close b' blocks' t') := by
  obtain ⟨owner, opens, before⟩ := b
  obtain ⟨owner', opens', before'⟩ := b'
  have houter : State.Alike R ⟨blocks, before, .between⟩ ⟨blocks', before', .between⟩ :=
    ⟨hblocks, hb.before, .between⟩
  have hbody : Stmt.BodyAlike R (some ⟨opens, t.pos, s.stmts.reverse⟩)
      (some ⟨opens', t'.pos, s'.stmts.reverse⟩) :=
    .some (Stmt.listAlike_iff.2 (List.forall₂_reverse_iff.2 hs.stmts))
  unfold State.close
  cases hb.owner with
  | branch hstart hdone hcond =>
    exact houter.enter (.afterBranch hstart (.cons ⟨hcond, hbody⟩ hdone))
  | otherwise hstart hdone =>
    have hbranches := Stmt.branchesAlike_iff.2 (List.forall₂_reverse_iff.2 hdone)
    exact houter.push (.branch hstart hbranches hbody)
  | whileBody hstart hcond => exact houter.push (.whileLoop hstart hcond hbody)
  | forBody hstart hvar hrange => exact houter.push (.forLoop hstart hvar hrange hbody)

theorem Alike.between (hs : s.Alike R s') (ht : t.Alike R t') :
    Both (SyntaxError.Alike R) (State.Alike R) (s.between t) (s'.between t') := by
  obtain ⟨blocks, stmts, phase⟩ := s
  obtain ⟨blocks', stmts', phase'⟩ := s'
  unfold State.between
  rw [← ht.kind]
  split
  · exact .ok (hs.enter .between)
  · exact .ok (hs.read (.guard ht.pos .nil))
  · exact .ok (hs.read (.loopGuard ht.pos))
  · exact .ok (hs.enter (.loopName ht.pos))
  · exact .ok (hs.push (.breakLoop ht.pos))
  · exact .ok (hs.push (.continueLoop ht.pos))
  · have hbegin := hs.begin ht .simple
    cases hs.blocks with
    | nil =>
      simp only
      split
      · exact .ok (hs.enter .between)
      · split
        · exact hbegin
        · exact .error ht.pos
    | cons hb hblocks =>
      simp only
      split
      · exact .ok (hs.close hb hblocks)
      · split
        · exact .error ht.pos
        · split
          · exact hbegin
          · exact .error ht.pos

theorem Alike.closeRange (hs : s.Alike R s') (ht : t.Alike R t') {start start' word word' : Pos}
    {var var' : Name} {args args' : List Expr} (hstart : R start start') (hvar : var.Alike R var')
    (hword : R word word') (hargs : List.Forall₂ (Expr.Alike R) args args') :
    Both (SyntaxError.Alike R) (State.Alike R) (s.closeRange start var word args t)
      (s'.closeRange start' var' word' args' t') := by
  have hready : ∀ {range range' : Range}, range.Alike R range' →
      Both (SyntaxError.Alike R) (State.Alike R)
        (s.expect (.op .rparen) t (.loopColon start var range))
        (s'.expect (.op .rparen) t' (.loopColon start' var' range')) :=
    fun hrange => hs.expect ht fun _ => .loopColon hstart hvar hrange
  unfold State.closeRange
  have hlist := List.forall₂_reverse_iff.2 hargs
  generalize args.reverse = list at hlist
  generalize args'.reverse = list' at hlist
  rcases hlist with _ | ⟨h₁, _ | ⟨h₂, _ | ⟨h₃, _ | ⟨h₄, _⟩⟩⟩⟩
  · exact .error ht.pos
  · exact hready ⟨implicit_alike hword 0, h₁, implicit_alike hword 1⟩
  · exact hready ⟨h₁, h₂, implicit_alike hword 1⟩
  · exact hready ⟨h₁, h₂, h₃⟩
  · exact .error h₄.start

theorem Alike.complete (hs : s.Alike R s') (ht : t.Alike R t') {e e' : Expr}
    (hpurpose : purpose.Alike R purpose') (he : e.Alike R e') :
    Both (SyntaxError.Alike R) (State.Alike R) (s.complete purpose e t)
      (s'.complete purpose' e' t') := by
  unfold State.complete
  cases hpurpose with
  | simple =>
    rw [← ht.kind]
    simp only
    split
    · have hname := he.name?
      generalize e.name? = name at hname
      generalize e'.name? = name' at hname
      cases hname with
      | none => exact .error ht.pos
      | some htarget => exact .ok (hs.read (.assigned htarget))
    · exact (hs.push (.eval he)).between ht
  | @assigned target target' op htarget =>
    have hassign : Stmt.Alike R (.assign ⟨target.span.start, e.stop⟩ target op e)
        (.assign ⟨target'.span.start, e'.stop⟩ target' op e') := .assign htarget.start htarget he
    exact (hs.push hassign).between ht
  | guard hstart hdone => exact hs.expect ht fun _ => .brace (.branch hstart hdone he)
  | loopGuard hstart => exact hs.expect ht fun _ => .brace (.whileBody hstart he)
  | bound hstart hvar hword hargs =>
    rw [← ht.kind]
    simp only
    split
    · exact .ok (hs.read (.bound hstart hvar hword (.cons he hargs)))
    · exact hs.closeRange ht hstart hvar hword (.cons he hargs)

theorem Alike.step (hs : s.Alike R s') (ht : t.Alike R t') :
    Both (SyntaxError.Alike R) (State.Alike R) (s.step t) (s'.step t') := by
  obtain ⟨blocks, stmts, phase⟩ := s
  obtain ⟨blocks', stmts', phase'⟩ := s'
  unfold State.step
  rw [← ht.kind]
  split
  · exact .error ht.pos
  · cases hs.phase with
    | between => exact hs.between ht
    | @expr purpose purpose' reading reading' hpurpose hreading =>
      have hstep := hreading.step ht
      simp only
      generalize reading.step t = result at hstep
      generalize reading'.step t' = result' at hstep
      cases hstep with
      | error he => exact .error he
      | ok hprogress =>
        cases hprogress with
        | more hr => exact .ok (hs.enter (.expr hpurpose hr))
        | whole he => exact hs.complete ht hpurpose he
    | loopName hstart => exact hs.expect ht fun hk => .loopIn hstart (ht.name hk)
    | loopIn hstart hvar => exact hs.expect ht fun _ => .loopRange hstart hvar
    | loopRange hstart hvar => exact hs.expect ht fun _ => .rangeOpen hstart hvar ht.pos
    | rangeOpen hstart hvar hword => exact hs.expect ht fun _ => .firstBound hstart hvar hword
    | firstBound hstart hvar hword =>
      have hbegin := hs.begin ht (.bound hstart hvar hword .nil)
      simp only
      split
      · exact .error ht.pos
      · exact hbegin
    | loopColon hstart hvar hrange =>
      exact hs.expect ht fun _ => .brace (.forBody hstart hvar hrange)
    | elseColon hstart hdone => exact hs.expect ht fun _ => .brace (.otherwise hstart hdone)
    | brace howner =>
      simp only
      split
      · exact .ok ⟨.cons ⟨howner, hs.stmts⟩ hs.blocks, .nil, .between⟩
      · exact .error ht.pos
    | @afterBranch start start' stop stop' done done' hstart hdone =>
      have hbranches := Stmt.branchesAlike_iff.2 (List.forall₂_reverse_iff.2 hdone)
      have hbranch : Stmt.Alike R (.branch ⟨start, stop⟩ done.reverse none)
          (.branch ⟨start', stop'⟩ done'.reverse none) := .branch hstart hbranches .none
      have hpush := hs.push hbranch
      simp only
      split
      · exact .ok (hs.read (.guard hstart hdone))
      · split
        · exact .ok (hs.enter (.elseColon hstart hdone))
        · exact hpush.between ht

end State

/-- Alike token streams are read to alike statements. -/
theorem consume_alike {final final' : Token} (hfinal : final.Alike R final')
    {tokens tokens' : List Token} (ht : List.Forall₂ (Token.Alike R) tokens tokens')
    {s s' : State} (hs : s.Alike R s')
    (pulls : Nat) :
    Both (SyntaxError.Alike R) (fun a a' => Stmt.ListAlike R a.1 a'.1)
      (consume final s pulls tokens).result (consume final' s' pulls tokens').result := by
  induction ht generalizing s s' pulls with
  | nil =>
    exact (hs.step hfinal).map fun h => Stmt.listAlike_iff.2 (List.forall₂_reverse_iff.2 h.stmts)
  | @cons t t' rest rest' ht _ ih =>
    have hstep := hs.step ht
    unfold consume
    rw [← ht.kind]
    generalize s.step t = result at hstep
    generalize s'.step t' = result' at hstep
    cases hstep with
    | error he => exact .error he
    | ok h =>
      simp only
      split
      · exact .ok (Stmt.listAlike_iff.2 (List.forall₂_reverse_iff.2 h.stmts))
      · exact ih h (pulls + 1)

theorem parseTokens_alike {tokens tokens' : List Token} {pos pos' : Pos}
    (ht : List.Forall₂ (Token.Alike R) tokens tokens')
    (hfinal : (finalToken tokens pos).Alike R (finalToken tokens' pos')) :
    Both (SyntaxError.Alike R) (Program.Alike R) (parseTokens tokens pos).result
      (parseTokens tokens' pos').result :=
  (consume_alike hfinal ht State.alike_initial 0).map id

end Parser

end ThreeAddress
