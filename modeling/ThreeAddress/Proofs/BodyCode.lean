import ThreeAddress.Proofs.DefiniteAssignment
import ThreeAddress.Proofs.GeneratedNames

/-! The code of a statement within that of a program: where it stands, where control leaves it, and
which names it writes. -/
namespace ThreeAddress

open Instr

namespace Stmt

mutual

/-- A statement in which a `break` leaves the loop around it. -/
def breaks : Stmt → Bool
  | .breakLoop _ => true
  | .branch _ branches otherwise => breaksInBranches branches || breaksInBody otherwise
  | _ => false

def breaksInBody : Option (Block Stmt) → Bool
  | none => false
  | some ⟨_, _, stmts⟩ => breaksInList stmts

def breaksInList : List Stmt → Bool
  | [] => false
  | s :: rest => s.breaks || breaksInList rest

def breaksInBranches : List (Branch Stmt) → Bool
  | [] => false
  | ⟨_, body⟩ :: rest => breaksInBody body || breaksInBranches rest

end

theorem breaksInBody_eq (b : Option (Block Stmt)) : breaksInBody b = breaksInList (ofBody b) := by
  cases b with
  | none => simp [breaksInBody, ofBody, breaksInList]
  | some b => simp [breaksInBody, ofBody]

end Stmt

namespace Task

def breaks : Task → Bool
  | .stmt s => s.breaks
  | .list ss => Stmt.breaksInList ss
  | .chain _ _ bs => Stmt.breaksInBranches bs

def names : Task → List Name
  | .stmt s => s.names
  | .list ss => Stmt.namesOfList ss
  | .chain _ _ bs => Stmt.namesOfBranches bs

theorem names_cons (s : Stmt) (rest : List Stmt) :
    (Task.list (s :: rest)).names = (Task.stmt s).names ++ (Task.list rest).names := by
  simp [names, Stmt.namesOfList]

theorem names_branch (span : Span) (bs : List (Branch Stmt)) (otherwise : Option (Block Stmt))
    (stop : Text) (xs : List Text) : (Task.stmt (.branch span bs otherwise)).names =
      (Task.chain stop xs bs).names ++ (Task.list (Stmt.ofBody otherwise)).names := by
  simp [names, Stmt.names, Stmt.namesOfBody_eq]

theorem names_chain_cons (stop x : Text) (xs : List Text) (cond : Expr)
    (body : Option (Block Stmt)) (rest : List (Branch Stmt)) :
    (Task.chain stop (x :: xs) (⟨cond, body⟩ :: rest)).names =
      cond.names ++ (Task.list (Stmt.ofBody body)).names ++ (Task.chain stop xs rest).names := by
  simp [names, Stmt.namesOfBranches, Stmt.namesOfBody_eq]

theorem names_whileLoop (span : Span) (cond : Expr) (body : Option (Block Stmt)) :
    (Task.stmt (.whileLoop span cond body)).names =
      cond.names ++ (Task.list (Stmt.ofBody body)).names := by
  simp [names, Stmt.names, Stmt.namesOfBody_eq]

theorem names_forLoop (span : Span) (var : Name) (range : Range) (body : Option (Block Stmt)) :
    (Task.stmt (.forLoop span var range body)).names =
      (var :: range.start.names ++ range.stop.names ++ range.step.names) ++
        (Task.list (Stmt.ofBody body)).names := by
  simp [names, Stmt.names, Stmt.namesOfBody_eq]

end Task

section

variable {scheme : Scheme} {reserved : List Text} {names names' : Names} {code : List Instr}

theorem ExprCode.writes_eq {e : Expr} {x : Text}
    (h : ExprCode scheme reserved e names code x names') :
    ∀ i ∈ code, i.action.writes? = i.action.temp? := by
  induction h with
  | number | boolean | name => simp
  | binary _ _ ihl ihr =>
    exact List.forall_mem_append.2
      ⟨List.forall_mem_append.2 ⟨ihl, ihr⟩, List.forall_mem_singleton.2 rfl⟩
  | unary _ ih => exact List.forall_mem_append.2 ⟨ih, List.forall_mem_singleton.2 rfl⟩

theorem BoundCode.writes_eq {e : Expr} {x : Text}
    (h : BoundCode scheme reserved e names code x names') :
    ∀ i ∈ code, i.action.writes? = i.action.temp? := by
  cases h with
  | plain _ h => exact h.writes_eq
  | copied => simp [Action.writes?, Action.temp?]

theorem ConditionsCode.writes_eq {bs : List (Branch Stmt)} {xs : List Text}
    (h : ConditionsCode scheme reserved bs names code xs names') :
    ∀ i ∈ code, i.action.writes? = i.action.temp? := by
  induction h with
  | nil => simp
  | cons he _ ih => exact List.forall_mem_append.2 ⟨he.writes_eq, ih⟩

theorem StoreCode.writes_eq {isNew : Bool} {target x : Text} {op : Kind} {pos : Pos}
    (h : StoreCode scheme isNew target op x pos code) :
    ∀ i ∈ code, i.action.writes? = some target := by
  cases h <;> simp [Action.writes?]

end

namespace Lowered

variable {scheme : Scheme} {reserved : List Text} {loop : Option Loop} {task : Task}
  {names names' : Names} {code : List Instr}

/-- The code of a task that does not break does not depend on where `break` goes. -/
theorem of_not_breaks (h : Lowered scheme reserved loop task names code names')
    (hb : task.breaks = false) {l : Loop} (hl : loop = some l) (breakTo : Text) :
    Lowered scheme reserved (some ⟨breakTo, l.continueTo⟩) task names code names' := by
  induction h with
  | nil => exact .nil
  | cons _ _ ih ih' =>
    simp only [Task.breaks, Stmt.breaksInList, Bool.or_eq_false_iff] at hb
    exact .cons (ih hb.1 hl) (ih' hb.2 hl)
  | assign he hs => exact .assign he hs
  | eval he => exact .eval he
  | branch hne hc _ _ ih ih' =>
    simp only [Task.breaks, Stmt.breaks, Stmt.breaksInBody_eq, Bool.or_eq_false_iff] at hb
    exact .branch hne hc (ih hb.1 hl) (ih' hb.2 hl)
  | chainNil => exact .chainNil
  | chainCons _ _ ih ih' =>
    simp only [Task.breaks, Stmt.breaksInBranches, Stmt.breaksInBody_eq,
      Bool.or_eq_false_iff] at hb
    exact .chainCons (ih hb.1 hl) (ih' hb.2 hl)
  | whileLoop he h => exact .whileLoop he h
  | forLoop h₁ h₂ h₃ hn ht h => exact .forLoop h₁ h₂ h₃ hn ht h
  | breakLoop => simp [Task.breaks, Stmt.breaks] at hb
  | continueLoop =>
    cases hl
    exact @continueLoop _ _ ⟨breakTo, l.continueTo⟩ _ _

/-- Control leaves a body that does not break only for where `continue` goes. -/
theorem targets_of_not_breaks {l : Loop} {ss : List Stmt}
    (h : Lowered scheme reserved (some l) (.list ss) names code names')
    (hb : Stmt.breaksInList ss = false) :
    ∀ t ∈ targetsOf code, t ∈ labelsOf code ∨ t = l.continueTo := by
  intro t ht
  rcases (h.of_not_breaks hb rfl l.continueTo).targets t ht with hlabel | hexit
  · exact Or.inl hlabel
  · exact Or.inr (by simpa [Task.exits] using hexit)

/-- An instruction that writes nothing, a temporary, or a variable that is assigned by one of the
statements. -/
def Writes (vars : List Text) (ss : List Stmt) (i : Instr) : Prop :=
  ∀ x, i.action.writes? = some x →
    i.action.temp? = some x ∨ (x ∈ vars ∧ ∃ st ∈ ss, st.declares? = some x)

theorem Writes.mono {vars : List Text} {ss rs : List Stmt} {i : Instr} (h : Writes vars ss i)
    (hsub : ∀ st ∈ ss, st ∈ rs) : Writes vars rs i := by
  intro x hx
  rcases h x hx with htemp | ⟨hmem, st, hst, hdeclares⟩
  · exact Or.inl htemp
  · exact Or.inr ⟨hmem, st, hsub st hst, hdeclares⟩

theorem writes_of_temps {vars : List Text} (ss : List Stmt)
    (h : ∀ i ∈ code, i.action.writes? = i.action.temp?) : ∀ i ∈ code, Writes vars ss i :=
  fun i hi _ hx => Or.inl (h i hi ▸ hx)

/-- Lowered code writes temporaries, and the variables that its statements assign. -/
theorem writes {vars : List Text} (h : Lowered scheme reserved loop task names code names')
    (hv : ∀ n ∈ task.names, n.text ∈ vars) : ∀ i ∈ code, Writes vars task.all i := by
  induction h with
  | nil | chainNil => simp
  | @cons loop s rest n n₁ n₂ code codes _ _ ih ih' =>
    rw [Task.names_cons, List.forall_mem_append] at hv
    have hmem := fun st => (Task.all_cons s rest).mem_iff (a := st)
    refine List.forall_mem_append.2 ⟨fun i hi => ?_, fun i hi => ?_⟩
    · exact (ih hv.1 i hi).mono fun st hst => (hmem st).2 (by simp [hst])
    · exact (ih' hv.2 i hi).mono fun st hst => (hmem st).2 (by simp [hst])
  | @assign loop span target op value n n₁ code stores x he hs =>
    refine List.forall_mem_append.2 ⟨writes_of_temps _ he.writes_eq, fun i hi y hy => Or.inr ?_⟩
    rw [hs.writes_eq i hi] at hy
    cases hy
    exact ⟨hv target (by simp [Task.names, Stmt.names]), _, List.mem_cons_self, rfl⟩
  | eval he => exact writes_of_temps _ he.writes_eq
  | @branch loop span bs otherwise n n₁ n₂ n₃ code clauses last xs _ hc _ _ ih ih' =>
    rw [Task.names_branch span bs otherwise (scheme.label (n₁.labels + 1)) xs,
      List.forall_mem_append] at hv
    rw [Task.all_branch span bs otherwise (scheme.label (n₁.labels + 1)) xs]
    simp only [List.forall_mem_append]
    refine ⟨⟨⟨writes_of_temps _ hc.writes_eq, fun i hi => ?_⟩, fun i hi => ?_⟩,
      writes_of_temps _ (by simp [Action.writes?, Action.temp?])⟩
    · exact (ih hv.1 i hi).mono fun st hst => by simp [hst]
    · exact (ih' hv.2 i hi).mono fun st hst => by simp [hst]
  | @chainCons loop stop x xs cond body rest n n₁ n₂ inner clauses _ _ ih ih' =>
    rw [Task.names_chain_cons, List.forall_mem_append, List.forall_mem_append] at hv
    rw [Task.all_chain_cons]
    simp only [List.forall_mem_append]
    refine ⟨⟨⟨writes_of_temps _ (by simp [Action.writes?, Action.temp?]), fun i hi => ?_⟩,
      writes_of_temps _ (by simp [Action.writes?, Action.temp?])⟩, fun i hi => ?_⟩
    · exact (ih hv.1.2 i hi).mono fun st hst => by simp [hst]
    · exact (ih' hv.2 i hi).mono fun st hst => by simp [hst]
  | @whileLoop loop span cond body n n₁ n₂ code inner x he _ ih =>
    rw [Task.names_whileLoop, List.forall_mem_append] at hv
    rw [Task.all_whileLoop]
    simp only [List.forall_mem_append]
    refine ⟨⟨⟨⟨writes_of_temps _ (by simp [Action.writes?, Action.temp?]),
      writes_of_temps _ he.writes_eq⟩, writes_of_temps _ (by simp [Action.writes?, Action.temp?])⟩,
      fun i hi => ?_⟩, writes_of_temps _ (by simp [Action.writes?, Action.temp?])⟩
    exact (ih hv.2 i hi).mono fun st hst => List.mem_cons_of_mem _ hst
  | @forLoop loop span var range body n n₁ n₂ n₃ named n₄ code₁ code₂ code₃ inner first last step
      type h₁ h₂ h₃ _ _ _ ih =>
    rw [Task.names_forLoop, List.forall_mem_append] at hv
    rw [Task.all_forLoop]
    have hown : ∀ part : List Instr, (∀ i ∈ part, i.action.writes? = i.action.temp? ∨
        i.action.writes? = some var.text) → ∀ i ∈ part, Writes vars
          (.forLoop span var range body :: (Task.list (Stmt.ofBody body)).all) i := by
      intro part hpart i hi x hx
      rcases hpart i hi with htemp | hvar
      · exact Or.inl (htemp ▸ hx)
      · rw [hvar] at hx
        cases hx
        exact Or.inr ⟨hv.1 var (by simp), _, List.mem_cons_self, rfl⟩
    simp only [List.forall_mem_append]
    refine ⟨⟨⟨⟨⟨writes_of_temps _ h₁.writes_eq, writes_of_temps _ h₂.writes_eq⟩,
      writes_of_temps _ h₃.writes_eq⟩, hown _ (by simp [Action.writes?, Action.temp?])⟩,
      fun i hi => ?_⟩, hown _ (by simp [Action.writes?, Action.temp?])⟩
    exact (ih hv.2 i hi).mono fun st hst => List.mem_cons_of_mem _ hst
  | breakLoop | continueLoop => exact writes_of_temps _ (by simp [Action.writes?, Action.temp?])

/-- A variable that no statement assigns is not written: temporaries have other names. -/
theorem writes_ne_var {vars : List Text} {x : Text}
    (h : Lowered scheme (scheme.reserved vars) loop task names code names')
    (hwf : task.WellFormed) (hv : ∀ n ∈ task.names, n.text ∈ vars) (hmem : x ∈ vars)
    (hx : ∀ st ∈ task.all, st.declares? ≠ some x) : ∀ i ∈ code, i.action.writes? ≠ some x := by
  intro i hi hwrites
  rcases h.writes hv i hi x hwrites with htemp | ⟨-, st, hst, hdeclares⟩
  · have hsound := h.sound hwf i hi
    cases hact : i.action with
    | compute type dest rhs =>
      rw [hact] at hsound htemp
      obtain rfl : dest = x := by simpa [Action.temp?] using htemp
      exact hsound hmem
    | _ => simp [hact, Action.temp?] at htemp
  · exact hx st hst hdeclares

/-- A temporary that was handed out before is not written. -/
theorem writes_ne_temp {vars : List Text} {n : Nat}
    (h : Lowered scheme reserved loop task names code names')
    (hv : ∀ n ∈ task.names, n.text ∈ vars) (hn : n ≤ names.lastTemp)
    (hnot : scheme.temp n ∉ vars) : ∀ i ∈ code, i.action.writes? ≠ some (scheme.temp n) := by
  intro i hi hwrites
  rcases h.writes hv i hi _ hwrites with htemp | ⟨hmem, -⟩
  · obtain ⟨-, nums, hperm, -, hrange⟩ := h.numbered_temps
    have hmem : scheme.temp n ∈ tempsOf code := List.mem_filterMap.2 ⟨i, hi, htemp⟩
    obtain ⟨k, hk, heq⟩ := List.mem_map.1 (hperm.mem_iff.1 hmem)
    have hlt := (hrange k hk).1
    have := Scheme.temp_injective heq
    omega
  · exact hnot hmem

/-- A statement that is well formed, with names from `vars`, and has its code in a listing. -/
def Placed (scheme : Scheme) (reserved vars : List Text) (full : List Instr) (st : Stmt) : Prop :=
  (Task.stmt st).WellFormed ∧ (∀ n ∈ (Task.stmt st).names, n.text ∈ vars) ∧
    ∃ loop names code names' ip, Located full ip code ∧
      Lowered scheme reserved loop (.stmt st) names code names'

/-- Every statement of a task has its code somewhere in that of the task. -/
theorem placed_of_mem {vars : List Text} {st : Stmt} {full : List Instr} {ip : Nat}
    (h : Lowered scheme reserved loop task names code names') (hwf : task.WellFormed)
    (hv : ∀ n ∈ task.names, n.text ∈ vars) (hst : st ∈ task.all) (hat : Located full ip code) :
    Placed scheme reserved vars full st := by
  induction h generalizing ip with
  | nil | chainNil => simp [Task.all, Stmt.allOf, Stmt.listsOfList, Stmt.listsOfBranches] at hst
  | @cons loop s rest n n₁ n₂ code codes _ _ ih ih' =>
    rw [Task.names_cons, List.forall_mem_append] at hv
    rw [(Task.all_cons s rest).mem_iff, List.mem_append] at hst
    rcases hst with hst | hst
    · exact ih hwf.1 hv.1 hst hat.left
    · exact ih' hwf.2 hv.2 hst hat.right
  | @assign loop span target op value n n₁ code stores x he hs =>
    obtain rfl : st = _ := by simpa [Task.all, Stmt.lists] using hst
    exact ⟨hwf, hv, loop, n, _, _, ip, hat, assign he hs⟩
  | @eval loop span value n n₁ code x he =>
    obtain rfl : st = _ := by simpa [Task.all, Stmt.lists] using hst
    exact ⟨hwf, hv, loop, n, _, _, ip, hat, eval he⟩
  | @breakLoop l span n =>
    obtain rfl : st = _ := by simpa [Task.all, Stmt.lists] using hst
    exact ⟨hwf, hv, some l, n, _, _, ip, hat, breakLoop⟩
  | @continueLoop l span n =>
    obtain rfl : st = _ := by simpa [Task.all, Stmt.lists] using hst
    exact ⟨hwf, hv, some l, n, _, _, ip, hat, continueLoop⟩
  | @branch loop span bs otherwise n n₁ n₂ n₃ code clauses last xs hne hc hchain hlast ih ih' =>
    rw [Task.all_branch span bs otherwise (scheme.label (n₁.labels + 1)) xs, List.mem_cons,
      List.mem_append] at hst
    have hparts := Task.names_branch span bs otherwise (scheme.label (n₁.labels + 1)) xs
    rcases hst with rfl | hst | hst
    · exact ⟨hwf, hv, loop, n, _, _, ip, hat, branch hne hc hchain hlast⟩
    · rw [hparts, List.forall_mem_append] at hv
      exact ih hwf.2.1 hv.1 hst hat.left.left.right
    · rw [hparts, List.forall_mem_append] at hv
      exact ih' ((Stmt.wellFormedBody_iff _).1 hwf.2.2) hv.2 hst hat.left.right
  | @chainCons loop stop x xs cond body rest n n₁ n₂ inner clauses _ _ ih ih' =>
    rw [Task.names_chain_cons, List.forall_mem_append, List.forall_mem_append] at hv
    rw [Task.all_chain_cons, List.mem_append] at hst
    rcases hst with hst | hst
    · exact ih ((Stmt.wellFormedBody_iff _).1 hwf.2.1.2) hv.1.2 hst hat.left.left.right
    · exact ih' hwf.2.2 hv.2 hst hat.right
  | @whileLoop loop span cond body n n₁ n₂ code inner x he hb ih =>
    rw [Task.all_whileLoop, List.mem_cons] at hst
    rcases hst with rfl | hst
    · exact ⟨hwf, hv, loop, n, _, _, ip, hat, whileLoop he hb⟩
    · rw [Task.names_whileLoop, List.forall_mem_append] at hv
      exact ih ((Stmt.wellFormedBody_iff _).1 hwf.2.2) hv.2 hst hat.left.right
  | @forLoop loop span var range body n n₁ n₂ n₃ named n₄ code₁ code₂ code₃ inner first last step
      type h₁ h₂ h₃ hn ht hb ih =>
    rw [Task.all_forLoop, List.mem_cons] at hst
    rcases hst with rfl | hst
    · exact ⟨hwf, hv, loop, n, _, _, ip, hat, forLoop h₁ h₂ h₃ hn ht hb⟩
    · rw [Task.names_forLoop, List.forall_mem_append] at hv
      exact ih ((Stmt.wellFormedBody_iff _).1 hwf.2.2.2) hv.2 hst hat.left.right

end Lowered

end ThreeAddress
