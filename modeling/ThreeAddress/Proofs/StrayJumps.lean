import ThreeAddress.Proofs.LoweredCode
import ThreeAddress.Proofs.Tokenization
import ThreeAddress.Proofs.WellFormed

/-! Jumps that stand in no loop. They are all that keeps a program that was read from a source from
being lowered, and the first of them in the source is the one that is reported. -/
namespace ThreeAddress

namespace Stmt

mutual

/-- The jumps `break` and `continue` in a statement, from left to right; those in the bodies of
loops only if `deep`. -/
def jumps (deep : Bool) : Stmt → List Stmt
  | .breakLoop span => [.breakLoop span]
  | .continueLoop span => [.continueLoop span]
  | .branch _ branches otherwise => jumpsInBranches deep branches ++ jumpsInBody deep otherwise
  | .whileLoop _ _ body | .forLoop _ _ _ body => if deep then jumpsInBody deep body else []
  | _ => []

def jumpsInBody (deep : Bool) : Option (Block Stmt) → List Stmt
  | none => []
  | some ⟨_, _, stmts⟩ => jumpsInList deep stmts

def jumpsInList (deep : Bool) : List Stmt → List Stmt
  | [] => []
  | s :: rest => s.jumps deep ++ jumpsInList deep rest

def jumpsInBranches (deep : Bool) : List (Branch Stmt) → List Stmt
  | [] => []
  | ⟨_, body⟩ :: rest => jumpsInBody deep body ++ jumpsInBranches deep rest

end

@[simp] theorem jumpsInList_append (deep : Bool) (ss rs : List Stmt) :
    jumpsInList deep (ss ++ rs) = jumpsInList deep ss ++ jumpsInList deep rs := by
  induction ss with
  | nil => rfl
  | cons s rest ih => simp [jumpsInList, ih]

@[simp] theorem jumpsInBranches_append (deep : Bool) (bs cs : List (Branch Stmt)) :
    jumpsInBranches deep (bs ++ cs) = jumpsInBranches deep bs ++ jumpsInBranches deep cs := by
  induction bs with
  | nil => rfl
  | cons b rest ih => simp [jumpsInBranches, ih]

/-- The error that a jump is if it stands in no loop. -/
def strayError : Stmt → LoweringError
  | .continueLoop span => ⟨span.start, .continueOutsideLoop⟩
  | s => ⟨s.start, .breakOutsideLoop⟩

mutual

theorem jumps_sublist : ∀ s : Stmt, (s.jumps false).Sublist (s.jumps true)
  | .missing | .assign .. | .eval .. | .breakLoop _ | .continueLoop _ => List.Sublist.refl _
  | .branch _ bs otherwise => (jumpsInBranches_sublist bs).append (jumpsInBody_sublist otherwise)
  | .whileLoop .. | .forLoop .. => List.nil_sublist _

theorem jumpsInBody_sublist : ∀ b : Option (Block Stmt),
    (jumpsInBody false b).Sublist (jumpsInBody true b)
  | none => List.Sublist.refl _
  | some ⟨_, _, stmts⟩ => jumpsInList_sublist stmts

theorem jumpsInList_sublist : ∀ ss : List Stmt,
    (jumpsInList false ss).Sublist (jumpsInList true ss)
  | [] => List.Sublist.refl _
  | s :: rest => (jumps_sublist s).append (jumpsInList_sublist rest)

theorem jumpsInBranches_sublist : ∀ bs : List (Branch Stmt),
    (jumpsInBranches false bs).Sublist (jumpsInBranches true bs)
  | [] => List.Sublist.refl _
  | ⟨_, body⟩ :: rest => (jumpsInBody_sublist body).append (jumpsInBranches_sublist rest)

end

end Stmt

/-- The jumps of a program that stand in no loop. -/
def Program.strays (p : Program) : List Stmt := Stmt.jumpsInList false p.stmts

namespace Lower

variable {α β : Type} {ss rs : List Stmt}

theorem bind_eq_error {x : Lower α} {f : α → Lower β} {g g' : Generator} {e : LoweringError}
    (h : x g = .error e g') : (x >>= f) g = .error e g' := by
  show EStateM.bind x f g = _
  rw [EStateM.bind, h]

theorem bind_of_ok {x : Lower α} {f : α → Lower β} {g g' : Generator} {a : α}
    (h : x g = .ok a g') : (x >>= f) g = f a g' := by
  show EStateM.bind x f g = _
  rw [EStateM.bind, h]

/-- Nothing but a stray jump fails. Outside of all loops the first of `strays` does; within a loop,
or if there are none, there is a result, and the loops are as they were. -/
def FailsOn (strays : List Stmt) (x : Lower α) : Prop :=
  ∀ g, (∃ a g', x g = .ok a g' ∧ g'.loops = g.loops ∧ (g.loops = [] → strays = [])) ∨
    ∃ st rest g', strays = st :: rest ∧ g.loops = [] ∧ x g = .error st.strayError g'

theorem FailsOn.bind {x : Lower α} {f : α → Lower β} (hx : FailsOn ss x)
    (hf : ∀ a g g', x g = .ok a g' → FailsOn rs (f a)) : FailsOn (ss ++ rs) (x >>= f) := by
  intro g
  obtain ⟨a, g₁, hrun, hloops, hnone⟩ | ⟨st, rest, g₁, rfl, hempty, hrun⟩ := hx g
  · obtain ⟨b, g₂, hrun', hloops', hnone'⟩ | ⟨st, rest, g₂, rfl, hempty, hrun'⟩ :=
      hf a g g₁ hrun g₁
    · refine Or.inl ⟨b, g₂, bind_eq_ok.2 ⟨a, g₁, hrun, hrun'⟩, hloops'.trans hloops, fun h => ?_⟩
      rw [hnone h, hnone' (hloops.trans h), List.append_nil]
    · have hempty : g.loops = [] := hloops.symm.trans hempty
      have hstrays : ss ++ st :: rest = st :: rest := by rw [hnone hempty, List.nil_append]
      exact Or.inr ⟨st, rest, g₂, hstrays, hempty, (bind_of_ok hrun).trans hrun'⟩
  · exact Or.inr ⟨st, rest ++ rs, g₁, rfl, hempty, bind_eq_error hrun⟩

theorem failsOn_pure (a : α) : FailsOn [] (pure a : Lower α) :=
  fun g => Or.inl ⟨a, g, rfl, rfl, fun _ => rfl⟩

theorem FailsOn.bind_pure {x : Lower α} {f : α → β} (hx : FailsOn ss x) :
    FailsOn ss (x >>= fun a => pure (f a)) := by
  have h : FailsOn (ss ++ []) (x >>= fun a => pure (f a)) :=
    hx.bind fun a _ _ _ => failsOn_pure (f a)
  rwa [List.append_nil] at h

theorem failsOn_newTemp : FailsOn [] newTemp :=
  fun _ => Or.inl ⟨_, _, rfl, rfl, fun _ => rfl⟩

theorem failsOn_newLabel : FailsOn [] newLabel :=
  fun _ => Or.inl ⟨_, _, rfl, rfl, fun _ => rfl⟩

theorem failsOn_declare (n : Name) : FailsOn [] (declare n) :=
  fun _ => Or.inl ⟨_, _, rfl, rfl, fun _ => rfl⟩

theorem failsOn_type : FailsOn [] type :=
  fun _ => Or.inl ⟨_, _, rfl, rfl, fun _ => rfl⟩

theorem failsOn_innermost {st : Stmt} {pos : Pos} {cause : LoweringError.Cause}
    (h : st.strayError = ⟨pos, cause⟩) : FailsOn [st] (innermost pos cause) := by
  intro g
  cases hloops : g.loops with
  | nil =>
    refine Or.inr ⟨st, [], g, rfl, rfl, ?_⟩
    have hget : (get : Lower Generator) g = .ok g g := rfl
    rw [h, innermost, bind_of_ok hget, hloops]
    rfl
  | cons l rest =>
    refine Or.inl ⟨l, g, innermost_eq_ok.2 ⟨by rw [hloops]; rfl, rfl⟩, hloops, by simp⟩

/-- Within a loop nothing fails. -/
theorem FailsOn.inside {x : Lower α} (hx : FailsOn ss x) (loop : Loop) :
    FailsOn [] (inside loop x) := by
  intro g
  obtain ⟨a, g₁, hrun, hloops, -⟩ | ⟨_, _, _, -, hempty, -⟩ :=
    hx { g with loops := loop :: g.loops }
  · refine Or.inl ⟨a, _, inside_eq_ok.2 ⟨g₁, hrun, rfl⟩, ?_, fun _ => rfl⟩
    show g₁.loops.tail = g.loops
    rw [hloops]
    rfl
  · cases hempty

theorem failsOn_expr {e : Expr} (hwf : e.WellFormed) : FailsOn [] (expr e) := by
  induction e with
  | missing => exact hwf.elim
  | number | boolean | name => exact failsOn_pure _
  | binary span op l r ihl ihr =>
    refine (ihl hwf.2.1).bind fun _ _ _ _ => (ihr hwf.2.2).bind fun _ _ _ _ => ?_
    exact failsOn_newTemp.bind fun _ _ _ _ => failsOn_type.bind_pure
  | unary span op e ih =>
    exact (ih hwf.2).bind fun _ _ _ _ => failsOn_newTemp.bind fun _ _ _ _ => failsOn_type.bind_pure

theorem failsOn_bound {e : Expr} (hwf : e.WellFormed) : FailsOn [] (bound e) := by
  refine (failsOn_expr hwf).bind fun _ _ _ _ => FailsOn.bind_pure ?_
  unfold snapshot
  split
  · exact failsOn_pure _
  · exact failsOn_newTemp.bind fun _ _ _ _ => failsOn_type.bind_pure

theorem failsOn_conditions {bs : List (Branch Stmt)} (hwf : Stmt.WellFormedBranches bs) :
    FailsOn [] (conditions bs) := by
  induction bs with
  | nil => exact failsOn_pure _
  | cons b rest ih =>
    exact (failsOn_expr hwf.1).bind fun _ _ _ _ => (ih hwf.2.2).bind_pure

mutual

theorem failsOn_stmt : ∀ s : Stmt, s.WellFormed → FailsOn (s.jumps false) (stmt s)
  | .missing, hwf => hwf.elim
  | .assign span target op value, hwf => by
    refine (failsOn_expr hwf.2.2).bind fun _ _ _ _ => (failsOn_declare _).bind fun _ _ _ _ => ?_
    refine failsOn_type.bind fun _ _ _ _ => ?_
    split
    · exact failsOn_pure _
    · split <;> exact failsOn_pure _
  | .eval span e, hwf => (failsOn_expr hwf).bind_pure
  | .branch span bs otherwise, hwf => by
    rw [stmt, if_neg (by simpa using hwf.1)]
    refine (failsOn_conditions hwf.2.1).bind fun a g g' hrun => ?_
    obtain ⟨_, -, hcode⟩ := conditionsCode_of_conditions hrun
    refine failsOn_newLabel.bind fun stop _ _ _ => ?_
    exact (failsOn_chain stop bs a.2 hcode.length_eq hwf.2.1).bind fun _ _ _ _ =>
      (failsOn_body otherwise hwf.2.2).bind_pure
  | .whileLoop span cond body, hwf => by
    refine failsOn_newLabel.bind fun _ _ _ _ => failsOn_newLabel.bind fun _ _ _ _ => ?_
    refine (failsOn_expr hwf.1).bind fun _ _ _ _ => ?_
    exact ((failsOn_body body hwf.2.2).inside _).bind_pure
  | .forLoop span var range body, hwf => by
    obtain ⟨-, ⟨hstart, hstop, hstep⟩, -, hbody⟩ := hwf
    refine (failsOn_expr hstart).bind fun _ _ _ _ => (failsOn_bound hstop).bind fun _ _ _ _ => ?_
    refine (failsOn_bound hstep).bind fun _ _ _ _ => (failsOn_declare _).bind fun _ _ _ _ => ?_
    refine failsOn_type.bind fun _ _ _ _ => failsOn_newLabel.bind fun _ _ _ _ => ?_
    refine failsOn_newLabel.bind fun _ _ _ _ => failsOn_newLabel.bind fun _ _ _ _ => ?_
    exact ((failsOn_body body hbody).inside _).bind_pure
  | .breakLoop span, _ => (failsOn_innermost rfl).bind_pure
  | .continueLoop span, _ => (failsOn_innermost rfl).bind_pure

theorem failsOn_body : ∀ b : Option (Block Stmt), Stmt.WellFormedBody b →
    FailsOn (Stmt.jumpsInBody false b) (body b)
  | none, _ => failsOn_pure _
  | some ⟨_, _, stmts⟩, hwf => failsOn_list stmts hwf

theorem failsOn_list : ∀ ss : List Stmt, Stmt.WellFormedList ss →
    FailsOn (Stmt.jumpsInList false ss) (list ss)
  | [], _ => failsOn_pure _
  | s :: rest, hwf =>
    (failsOn_stmt s hwf.1).bind fun _ _ _ _ => (failsOn_list rest hwf.2).bind_pure

theorem failsOn_chain (stop : Text) : ∀ (bs : List (Branch Stmt)) (xs : List Text),
    xs.length = bs.length → Stmt.WellFormedBranches bs →
    FailsOn (Stmt.jumpsInBranches false bs) (chain stop xs bs)
  | [], [], _, _ => failsOn_pure _
  | ⟨cond, body⟩ :: rest, x :: xs, hlen, hwf => by
    refine failsOn_newLabel.bind fun _ _ _ _ => ?_
    exact (failsOn_body body hwf.2.1.2).bind fun _ _ _ _ =>
      (failsOn_chain stop rest xs (by simpa using hlen) hwf.2.2).bind_pure

end

end Lower

/-- A program without gaps is lowered, or the first of its stray jumps keeps it from that. -/
theorem Program.lower_cases {p : Program} (hwf : Stmt.WellFormedList p.stmts) (scheme : Scheme) :
    (p.strays = [] ∧ ∃ listing, p.lower scheme = .ok listing) ∨
      ∃ st rest, p.strays = st :: rest ∧ p.lower scheme = .error st.strayError := by
  unfold Program.lower Generator.generate
  obtain ⟨code, g, hrun, -, hnone⟩ | ⟨st, rest, g, hstrays, -, hrun⟩ :=
    Lower.failsOn_list p.stmts hwf ((Generator.new scheme).reset.reserve p)
  · refine Or.inl ⟨hnone rfl, ?_⟩
    rw [EStateM.run, hrun]
    exact ⟨_, rfl⟩
  · refine Or.inr ⟨st, rest, hstrays, ?_⟩
    rw [EStateM.run, hrun]
    rfl

/-- The statement that a `break` or a `continue` is. -/
def Token.jump? (t : Token) : Option Stmt :=
  match t.kind with
  | .keyword .breakWord => some (.breakLoop t.span)
  | .keyword .continueWord => some (.continueLoop t.span)
  | _ => none

theorem Token.jump?_eq_none {t : Token} (hb : t.kind ≠ .keyword .breakWord)
    (hc : t.kind ≠ .keyword .continueWord) : t.jump? = none := by
  unfold Token.jump?
  split
  · contradiction
  · contradiction
  · rfl

theorem Token.start_of_jump? {t : Token} {st : Stmt} (h : t.jump? = some st) :
    st.start = t.pos := by
  unfold Token.jump? at h
  split at h <;> cases h <;> rfl

/-- No `break` and no `continue` is within an expression. -/
theorem Reading.jump?_of_more {r r' : Reading} {t : Token} (h : r.step t = .ok (.more r')) :
    t.jump? = none := by
  unfold Token.jump?
  split
  case h_3 => rfl
  all_goals
    rename_i hk
    unfold Reading.step at h
    split at h
    · simp [takeOperand, hk, Except.map] at h
    · cases ho : r.outer <;> simp [takeOperator, leave, hk, ho] at h

namespace Parser

def Owner.branches : Owner → List (Branch Stmt)
  | .branch _ done _ | .otherwise _ done => done.reverse
  | .whileBody .. | .forBody .. => []

/-- The branches of the chain that is being read. -/
def Phase.branches : Phase → List (Branch Stmt)
  | .expr (.guard _ done) _ | .elseColon _ done | .afterBranch _ done _ => done.reverse
  | .brace owner => owner.branches
  | _ => []

def Open.jumps (b : Open) : List Stmt :=
  Stmt.jumpsInList true b.before.reverse ++ Stmt.jumpsInBranches true b.owner.branches

namespace State

/-- The jumps in the statements that are complete. -/
def done (s : State) : List Stmt :=
  s.blocks.reverse.flatMap Open.jumps ++ Stmt.jumpsInList true s.stmts.reverse

/-- The jumps in all that has been read. -/
def jumps (s : State) : List Stmt := s.done ++ Stmt.jumpsInBranches true s.phase.branches

variable {s s' : State} {t : Token}

theorem done_enter (phase : Phase) : (s.enter phase).done = s.done := rfl

theorem jumps_enter {phase : Phase} (h : phase.branches = []) : (s.enter phase).jumps = s.done := by
  rw [jumps, done_enter]
  show s.done ++ Stmt.jumpsInBranches true phase.branches = s.done
  rw [h, Stmt.jumpsInBranches, List.append_nil]

theorem done_push (st : Stmt) : (s.push st).done = s.done ++ st.jumps true := by
  simp [done, push, Stmt.jumpsInList]

theorem jumps_push (st : Stmt) : (s.push st).jumps = s.done ++ st.jumps true := by
  rw [jumps, done_push]
  exact List.append_nil _

/-- A block that is closed keeps its jumps. -/
theorem jumps_close {b : Open} {blocks : List Open} (h : s.blocks = b :: blocks) :
    (s.close b blocks t).jumps = s.done := by
  obtain ⟨owner, opens, before⟩ := b
  cases owner <;>
    simp [close, jumps, done, enter, push, h, Open.jumps, Owner.branches, Phase.branches,
      Stmt.jumpsInList, Stmt.jumpsInBranches, Stmt.jumpsInBody, Stmt.jumps]

theorem jumps_begin {purpose : Purpose} (hp : ∀ r, (Phase.expr purpose r).branches = [])
    (hs : s.begin purpose t = .ok s') : s'.jumps = s.done ++ t.jump?.toList := by
  obtain ⟨r, hr, rfl⟩ := begin_eq_ok.1 hs
  rw [jumps_enter (hp r), Reading.jump?_of_more hr]
  exact (List.append_nil _).symm

theorem jumps_between (hs : s.between t = .ok s') : s'.jumps = s.done ++ t.jump?.toList := by
  have hskip : ∀ {phase : Phase}, phase.branches = [] → t.jump? = none →
      (s.enter phase).jumps = s.done ++ t.jump?.toList := by
    intro phase hp ht
    rw [jumps_enter hp, ht]
    exact (List.append_nil _).symm
  have hsimple : ∀ {s' : State}, s.begin .simple t = .ok s' →
      s'.jumps = s.done ++ t.jump?.toList := jumps_begin fun _ => rfl
  unfold between at hs
  split at hs
  case h_5 hk =>
    obtain rfl := Except.ok.inj hs
    rw [jumps_push, Token.jump?, hk]
    rfl
  case h_6 hk =>
    obtain rfl := Except.ok.inj hs
    rw [jumps_push, Token.jump?, hk]
    rfl
  case h_7 =>
    split at hs
    · split at hs
      · rename_i hk
        obtain rfl := Except.ok.inj hs
        exact hskip rfl (by simp [Token.jump?, hk])
      · split at hs
        · exact hsimple hs
        · cases hs
    · rename_i b blocks hblocks
      split at hs
      · rename_i hk
        obtain rfl := Except.ok.inj hs
        rw [jumps_close hblocks, Token.jump?, hk]
        exact (List.append_nil _).symm
      · split at hs
        · cases hs
        · split at hs
          · exact hsimple hs
          · cases hs
  all_goals
    rename_i hk
    obtain rfl := Except.ok.inj hs
    exact hskip rfl (by simp [Token.jump?, hk])

/-- A token that is expected is no jump, and leaves those that were read. -/
theorem jumps_expect {kind : Kind} {phase : Phase} (hb : kind ≠ .keyword .breakWord)
    (hc : kind ≠ .keyword .continueWord) (hs : s.expect kind t phase = .ok s') :
    s'.jumps = s.done ++ Stmt.jumpsInBranches true phase.branches ++ t.jump?.toList := by
  obtain ⟨rfl, rfl⟩ := expect_eq_ok.1 hs
  rw [Token.jump?_eq_none hb hc]
  exact (List.append_nil _).symm

theorem jumps_closeRange {start word : Pos} {var : Name} {args : List Expr}
    (hs : s.closeRange start var word args t = .ok s') : s'.jumps = s.done ++ t.jump?.toList := by
  have hready : ∀ {range : Range}, s.expect (.op .rparen) t (.loopColon start var range) = .ok s' →
      s'.jumps = s.done ++ t.jump?.toList := by
    intro range hs
    simpa [Phase.branches, Stmt.jumpsInBranches] using jumps_expect (by simp) (by simp) hs
  unfold closeRange at hs
  split at hs
  · exact hready hs
  · exact hready hs
  · exact hready hs
  · cases hs
  · cases hs

theorem jumps_complete {purpose : Purpose} {e : Expr} {r : Reading}
    (hs : s.complete purpose e t = .ok s') :
    s'.jumps = s.done ++ Stmt.jumpsInBranches true (Phase.expr purpose r).branches ++
      t.jump?.toList := by
  -- Only the condition of a chain has branches before it.
  have hnone : ∀ {phase : Phase}, phase.branches = [] →
      s'.jumps = s.done ++ t.jump?.toList →
      s'.jumps = s.done ++ Stmt.jumpsInBranches true phase.branches ++ t.jump?.toList := by
    intro phase hp h
    rw [hp, Stmt.jumpsInBranches, List.append_nil, h]
  unfold complete at hs
  split at hs
  · refine hnone rfl ?_
    split at hs
    · rename_i hassign
      split at hs
      · obtain rfl := Except.ok.inj hs
        have ht : t.jump? = none := by
          apply Token.jump?_eq_none <;> intro hk <;> simp [hk, Kind.isAssign] at hassign
        rw [ht, read, jumps_enter rfl]
        exact (List.append_nil _).symm
      · cases hs
    · rw [jumps_between hs, done_push]
      simp [Stmt.jumps]
  · refine hnone rfl ?_
    rw [jumps_between hs, done_push]
    simp [Stmt.jumps]
  · exact (jumps_expect (by simp) (by simp) hs).trans rfl
  · exact (jumps_expect (by simp) (by simp) hs).trans rfl
  · refine hnone rfl ?_
    split at hs
    · rename_i hk
      obtain rfl := Except.ok.inj hs
      rw [Token.jump?_eq_none (by simp [hk]) (by simp [hk]), read, jumps_enter rfl]
      exact (List.append_nil _).symm
    · exact jumps_closeRange hs

/-- A token adds the jump that it is. -/
theorem jumps_step (hs : s.step t = .ok s') : s'.jumps = s.jumps ++ t.jump?.toList := by
  unfold step at hs
  split at hs
  · cases hs
  show s'.jumps = s.done ++ Stmt.jumpsInBranches true s.phase.branches ++ t.jump?.toList
  split at hs
  · rename_i hphase
    rw [hphase, jumps_between hs]
    simp [Phase.branches, Stmt.jumpsInBranches]
  · rename_i purpose reading hphase
    rw [hphase]
    split at hs
    · cases hs
    · rename_i r hr
      obtain rfl := Except.ok.inj hs
      rw [Reading.jump?_of_more hr]
      cases purpose <;> exact (List.append_nil _).symm
    · exact jumps_complete hs
  all_goals rename_i hphase; rw [hphase]
  · exact (jumps_expect (by simp) (by simp) hs).trans rfl
  · exact (jumps_expect (by simp) (by simp) hs).trans rfl
  · exact (jumps_expect (by simp) (by simp) hs).trans rfl
  · exact (jumps_expect (by simp) (by simp) hs).trans rfl
  · split at hs
    · cases hs
    · rw [jumps_begin (fun _ => rfl) hs]
      simp [Phase.branches, Stmt.jumpsInBranches]
  · exact (jumps_expect (by simp) (by simp) hs).trans rfl
  · exact (jumps_expect (by simp) (by simp) hs).trans rfl
  · split at hs
    · rename_i hk
      obtain rfl := Except.ok.inj hs
      rw [Token.jump?_eq_none (by simp [hk]) (by simp [hk])]
      simp [jumps, done, Open.jumps, Phase.branches, Stmt.jumpsInBranches, Stmt.jumpsInList]
    · cases hs
  · split at hs
    · rename_i hk
      obtain rfl := Except.ok.inj hs
      rw [Token.jump?_eq_none (by simp [hk]) (by simp [hk])]
      exact (List.append_nil _).symm
    · split at hs
      · rename_i hk
        obtain rfl := Except.ok.inj hs
        rw [Token.jump?_eq_none (by simp [hk]) (by simp [hk])]
        exact (List.append_nil _).symm
      · rw [jumps_between hs, done_push]
        simp [Stmt.jumps, Stmt.jumpsInBody, Phase.branches]

/-- The end of the source comes when no block is open and no statement is begun. -/
theorem between_end (hk : t.kind = .eof) (hs : s.between t = .ok s') :
    s'.blocks = [] ∧ s'.phase = .between := by
  unfold between at hs
  simp only [hk] at hs
  split at hs
  · rename_i hblocks
    obtain rfl := Except.ok.inj hs
    exact ⟨hblocks, rfl⟩
  · simp at hs

theorem step_end (hk : t.kind = .eof) (hs : s.step t = .ok s') :
    s'.blocks = [] ∧ s'.phase = .between := by
  have hexpect : ∀ {kind : Kind} {phase : Phase}, kind ≠ .eof → s.expect kind t phase ≠ .ok s' :=
    fun hne h => hne ((expect_eq_ok.1 h).1.symm.trans hk)
  unfold step at hs
  simp only [hk, reduceCtorEq, if_false] at hs
  split at hs
  case h_1 => exact between_end hk hs
  case h_2 purpose reading _ =>
    split at hs
    · cases hs
    · rename_i hr
      exact absurd hk (Reading.kind_of_more hr).1
    · unfold complete at hs
      split at hs
      · simp only [hk, Kind.isAssign] at hs
        exact between_end hk hs
      · exact between_end hk hs
      · exact absurd hs (hexpect (by simp))
      · exact absurd hs (hexpect (by simp))
      · simp only [hk, reduceCtorEq, if_false] at hs
        unfold closeRange at hs
        split at hs
        · exact absurd hs (hexpect (by simp))
        · exact absurd hs (hexpect (by simp))
        · exact absurd hs (hexpect (by simp))
        · cases hs
        · cases hs
  case h_7 =>
    obtain ⟨r, hr, -⟩ := begin_eq_ok.1 hs
    exact absurd hk (Reading.kind_of_more hr).1
  case h_10 => cases hs
  case h_11 => exact between_end hk hs
  all_goals exact absurd hs (hexpect (by simp))

end State

theorem State.Runs.jumps {tokens : List Token} {s s' : State} (h : State.Runs s tokens s') :
    s'.jumps = s.jumps ++ tokens.filterMap Token.jump? := by
  induction h with
  | nil => simp
  | @cons s s' s'' t ts hstep _ ih =>
    rw [ih, State.jumps_step hstep]
    cases hj : t.jump? <;> simp [hj]

end Parser

namespace Program

variable {source : Text} {p : Program}

/-- The jumps of a program are those of the tokens of its source, in that order. -/
theorem jumps_of_parse (h : Program.parse source = .ok p) :
    Stmt.jumpsInList true p.stmts = (Token.tokenize source).filterMap Token.jump? := by
  have ht : ∀ t ∈ Token.tokenize source, t.kind ≠ .eof :=
    fun t ht => ((Token.tokenize_lossless source).texts t ht).1
  obtain ⟨s, s', hruns, hfinal, rfl⟩ := Parser.runs_of_parseTokens ht h
  obtain ⟨hblocks, hphase⟩ := Parser.State.step_end rfl hfinal
  have hjumps := Parser.State.jumps_step hfinal
  rw [Token.jump?_eq_none (by simp [Parser.finalToken]) (by simp [Parser.finalToken]),
    hruns.jumps] at hjumps
  simpa [Parser.State.jumps, Parser.State.done, hblocks, hphase, Parser.Phase.branches,
    Stmt.jumpsInBranches, Parser.State.initial, Stmt.jumpsInList] using hjumps

theorem strays_sublist (h : Program.parse source = .ok p) :
    p.strays.Sublist ((Token.tokenize source).filterMap Token.jump?) :=
  jumps_of_parse h ▸ Stmt.jumpsInList_sublist p.stmts

theorem strays_ordered (h : Program.parse source = .ok p) :
    p.strays.Pairwise fun a b => a.start.before b.start := by
  have hall := Token.tokenize_lossless source
  have htokens : (Token.tokenize source).Pairwise fun t u => t.pos.before u.pos :=
    hall.ordered.imp_of_mem fun ht hu hlt =>
      (hall.before _ (List.mem_append_left _ ht) _ (List.mem_append_left _ hu)).2 hlt.2
  refine List.Pairwise.sublist (strays_sublist h) (List.pairwise_filterMap.2 (htokens.imp ?_))
  intro t u hlt a ha b hb
  rw [Token.start_of_jump? ha, Token.start_of_jump? hb]
  exact hlt

theorem strays_cases (h : Program.parse source = .ok p) {st : Stmt} (hst : st ∈ p.strays) :
    (∃ span, st = .breakLoop span) ∨ ∃ span, st = .continueLoop span := by
  obtain ⟨t, -, ht⟩ := List.mem_filterMap.1 ((strays_sublist h).subset hst)
  unfold Token.jump? at ht
  split at ht
  · exact Or.inl ⟨_, (Option.some.inj ht).symm⟩
  · exact Or.inr ⟨_, (Option.some.inj ht).symm⟩
  · cases ht

/-- A program that was read from a source cannot be lowered if and only if a `break` or a `continue`
stands in no loop. The error is then that of the first one in the source. -/
theorem lowering_fails_exactly_on_stray_jumps (hparse : Program.parse source = .ok p)
    (scheme : Scheme) :
    ((∃ e, p.lower scheme = .error e) ↔ ∃ st, st ∈ p.strays) ∧
      ∀ e, p.lower scheme = .error e → ∃ st ∈ p.strays, e.pos = st.start ∧
        ((∃ span, st = .breakLoop span ∧ e.message = "break outside loop") ∨
          ∃ span, st = .continueLoop span ∧ e.message = "continue outside loop") ∧
        ∀ other ∈ p.strays, other = st ∨ st.start.before other.start := by
  obtain ⟨hnone, listing, hlower⟩ | ⟨st, rest, hstrays, hlower⟩ :=
    lower_cases (wellFormed_of_parse hparse) scheme
  · rw [hlower, hnone]
    simp
  have hmem : st ∈ p.strays := hstrays ▸ List.mem_cons_self
  refine ⟨⟨fun _ => ⟨st, hmem⟩, fun _ => ⟨_, hlower⟩⟩, fun e he => ⟨st, hmem, ?_⟩⟩
  obtain rfl : st.strayError = e := Except.error.inj (hlower.symm.trans he)
  have hlater : ∀ other ∈ p.strays, other = st ∨ st.start.before other.start := by
    have hordered := strays_ordered hparse
    rw [hstrays] at hordered ⊢
    intro other hother
    obtain rfl | hother := List.mem_cons.1 hother
    · exact Or.inl rfl
    · exact Or.inr (List.rel_of_pairwise_cons hordered hother)
  obtain ⟨span, rfl⟩ | ⟨span, rfl⟩ := strays_cases hparse hmem
  · exact ⟨rfl, Or.inl ⟨span, rfl, rfl⟩, hlater⟩
  · exact ⟨rfl, Or.inr ⟨span, rfl, rfl⟩, hlater⟩

/-- A `continue` in a loop is passed over; that in a branch comes before a `break`. -/
theorem continue_in_branch_is_reported :
    ∃ p e, Program.parse "while a: { continue } if a: { continue } break" = .ok p ∧
      p.lower .default = .error e ∧ e.pos = ⟨1, 31, 30⟩ ∧ e.message = "continue outside loop" := by
  have hrun : (Program.parse
      "while a: { continue } if a: { continue } break").toOption.map
      (fun p => p.strays.map Stmt.strayError) =
        some [⟨⟨1, 31, 30⟩, .continueOutsideLoop⟩, ⟨⟨1, 42, 41⟩, .breakOutsideLoop⟩] := by
    decide +kernel
  cases hparse : Program.parse "while a: { continue } if a: { continue } break" with
  | error e => simp [hparse, Except.toOption] at hrun
  | ok p =>
    have hstrays : p.strays.map Stmt.strayError =
        [⟨⟨1, 31, 30⟩, .continueOutsideLoop⟩, ⟨⟨1, 42, 41⟩, .breakOutsideLoop⟩] := by
      simpa [hparse, Except.toOption] using hrun
    obtain ⟨a, rest, hlist, ha, hrest⟩ := List.map_eq_cons_iff.1 hstrays
    obtain ⟨b, rest, rfl, hb, hrest⟩ := List.map_eq_cons_iff.1 hrest
    obtain rfl := List.map_eq_nil_iff.1 hrest
    obtain ⟨hiff, herror⟩ := lowering_fails_exactly_on_stray_jumps hparse .default
    rw [hlist] at hiff herror
    obtain ⟨e, he⟩ := hiff.2 ⟨a, by simp⟩
    obtain ⟨st, hst, hpos, hmessage, hlater⟩ := herror e he
    obtain ⟨first, rfl, hfirst⟩ : ∃ span, a = .continueLoop span ∧ span.start = ⟨1, 31, 30⟩ := by
      cases a <;> simp [Stmt.strayError] at ha
      exact ⟨_, rfl, ha⟩
    refine ⟨p, e, rfl, he, ?_⟩
    obtain rfl | rfl : st = .continueLoop first ∨ st = b := by simpa using hst
    · obtain ⟨span, h, -⟩ | ⟨span, -, hmessage⟩ := hmessage
      · cases h
      · exact ⟨hpos.trans hfirst, hmessage⟩
    · obtain ⟨span, rfl, -⟩ | ⟨span, rfl, -⟩ := hmessage
      · -- The later of the two is not the one that comes before all others.
        obtain h | h := hlater (.continueLoop first) (by simp)
        · cases h
        · have hlast : (Stmt.breakLoop span).start = ⟨1, 42, 41⟩ := by
            simpa [Stmt.strayError] using hb
          rw [hlast, show (Stmt.continueLoop first).start = _ from hfirst] at h
          exact absurd h (by decide)
      · simp [Stmt.strayError] at hb

end Program

end ThreeAddress
