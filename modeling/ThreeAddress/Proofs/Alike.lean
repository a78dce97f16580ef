import Mathlib.Data.List.Forall2
import ThreeAddress.Syntax

/-! Trees that differ in layout only: they have the same shape, names and numbers, and their parts
start at places that belong together. Where a part ends does not matter. -/
namespace ThreeAddress

variable {R : Pos → Pos → Prop}

/-- The same name, at places that `R` pairs. -/
structure Name.Alike (R : Pos → Pos → Prop) (n n' : Name) : Prop where
  text : n.text = n'.text
  start : R n.span.start n'.span.start

/-- Expressions of the same shape, with the same leaves, whose parts start at places that `R`
pairs. -/
inductive Expr.Alike (R : Pos → Pos → Prop) : Expr → Expr → Prop
  | missing : R .unknown .unknown → Alike R .missing .missing
  | number {span span' : Span} {value : Float} {raw : Text} : R span.start span'.start →
      Alike R (.number span value raw) (.number span' value raw)
  | boolean {span span' : Span} {value : Bool} : R span.start span'.start →
      Alike R (.boolean span value) (.boolean span' value)
  | name {n n' : Name} : n.Alike R n' → Alike R (.name n) (.name n')
  | binary {span span' : Span} {op : Kind} {l l' r r' : Expr} : R span.start span'.start →
      Alike R l l' → Alike R r r' → Alike R (.binary span op l r) (.binary span' op l' r')
  | unary {span span' : Span} {op : Kind} {e e' : Expr} : R span.start span'.start →
      Alike R e e' → Alike R (.unary span op e) (.unary span' op e')

namespace Expr.Alike

variable {e e' : Expr}

theorem start (h : e.Alike R e') : R e.start e'.start := by
  cases h with
  | missing h | number h | boolean h | binary h | unary h => exact h
  | name h => exact h.start

theorem name? (h : e.Alike R e') : Option.Rel (Name.Alike R) e.name? e'.name? := by
  cases h with
  | name h => exact .some h
  | _ => exact .none

theorem const?_eq (h : e.Alike R e') : e.const? = e'.const? := by
  induction h with
  | unary _ _ ih => simp only [const?, ih]
  | _ => rfl

theorem names_eq (h : e.Alike R e') : e.names.map (·.text) = e'.names.map (·.text) := by
  induction h with
  | name h => simp [names, h.text]
  | binary _ _ _ ihl ihr => simp [names, ihl, ihr]
  | unary _ _ ih => exact ih
  | _ => rfl

theorem refl (hR : ∀ p, R p p) (e : Expr) : e.Alike R e := by
  induction e with
  | missing => exact .missing (hR _)
  | number => exact .number (hR _)
  | boolean => exact .boolean (hR _)
  | name => exact .name ⟨rfl, hR _⟩
  | binary _ _ _ _ ihl ihr => exact .binary (hR _) ihl ihr
  | unary _ _ _ ih => exact .unary (hR _) ih

end Expr.Alike

structure Range.Alike (R : Pos → Pos → Prop) (r r' : Range) : Prop where
  start : r.start.Alike R r'.start
  stop : r.stop.Alike R r'.stop
  step : r.step.Alike R r'.step

namespace Stmt

mutual

/-- Statements of the same shape, whose parts start at places that `R` pairs. -/
inductive Alike (R : Pos → Pos → Prop) : Stmt → Stmt → Prop
  | missing : R .unknown .unknown → Alike R .missing .missing
  | assign {span span' : Span} {target target' : Name} {op : Kind} {value value' : Expr} :
      R span.start span'.start → target.Alike R target' → value.Alike R value' →
      Alike R (.assign span target op value) (.assign span' target' op value')
  | eval {span span' : Span} {e e' : Expr} : e.Alike R e' →
      Alike R (.eval span e) (.eval span' e')
  | branch {span span' : Span} {bs bs' : List (Branch Stmt)}
      {otherwise otherwise' : Option (Block Stmt)} : R span.start span'.start →
      BranchesAlike R bs bs' → BodyAlike R otherwise otherwise' →
      Alike R (.branch span bs otherwise) (.branch span' bs' otherwise')
  | whileLoop {span span' : Span} {cond cond' : Expr} {body body' : Option (Block Stmt)} :
      R span.start span'.start → cond.Alike R cond' → BodyAlike R body body' →
      Alike R (.whileLoop span cond body) (.whileLoop span' cond' body')
  | forLoop {span span' : Span} {var var' : Name} {range range' : Range}
      {body body' : Option (Block Stmt)} : R span.start span'.start → var.Alike R var' →
      range.Alike R range' → BodyAlike R body body' →
      Alike R (.forLoop span var range body) (.forLoop span' var' range' body')
  | breakLoop {span span' : Span} : R span.start span'.start →
      Alike R (.breakLoop span) (.breakLoop span')
  | continueLoop {span span' : Span} : R span.start span'.start →
      Alike R (.continueLoop span) (.continueLoop span')

inductive BodyAlike (R : Pos → Pos → Prop) : Option (Block Stmt) → Option (Block Stmt) → Prop
  | none : BodyAlike R none none
  | some {opens opens' closes closes' : Pos} {ss ss' : List Stmt} : ListAlike R ss ss' →
      BodyAlike R (some ⟨opens, closes, ss⟩) (some ⟨opens', closes', ss'⟩)

inductive ListAlike (R : Pos → Pos → Prop) : List Stmt → List Stmt → Prop
  | nil : ListAlike R [] []
  | cons {s s' : Stmt} {ss ss' : List Stmt} : Alike R s s' → ListAlike R ss ss' →
      ListAlike R (s :: ss) (s' :: ss')

inductive BranchesAlike (R : Pos → Pos → Prop) : List (Branch Stmt) → List (Branch Stmt) → Prop
  | nil : BranchesAlike R [] []
  | cons {cond cond' : Expr} {body body' : Option (Block Stmt)} {bs bs' : List (Branch Stmt)} :
      cond.Alike R cond' → BodyAlike R body body' → BranchesAlike R bs bs' →
      BranchesAlike R (⟨cond, body⟩ :: bs) (⟨cond', body'⟩ :: bs')

end

mutual

theorem Alike.names_eq : ∀ {s s' : Stmt}, s.Alike R s' →
    s.names.map (·.text) = s'.names.map (·.text)
  | _, _, .missing _ => rfl
  | _, _, .assign _ ht he => by simp [names, ht.text, he.names_eq]
  | _, _, .eval he => he.names_eq
  | _, _, .branch _ hb ho => by simp [names, hb.names_eq, ho.names_eq]
  | _, _, .whileLoop _ hc hb => by simp [names, hc.names_eq, hb.names_eq]
  | _, _, .forLoop _ hv hr hb => by
    simp [names, hv.text, hr.start.names_eq, hr.stop.names_eq, hr.step.names_eq, hb.names_eq]
  | _, _, .breakLoop _ | _, _, .continueLoop _ => rfl

theorem BodyAlike.names_eq : ∀ {b b' : Option (Block Stmt)}, BodyAlike R b b' →
    (namesOfBody b).map (·.text) = (namesOfBody b').map (·.text)
  | _, _, .none => rfl
  | _, _, .some h => h.names_eq

theorem ListAlike.names_eq : ∀ {ss ss' : List Stmt}, ListAlike R ss ss' →
    (namesOfList ss).map (·.text) = (namesOfList ss').map (·.text)
  | _, _, .nil => rfl
  | _, _, .cons h hs => by simp [namesOfList, h.names_eq, hs.names_eq]

theorem BranchesAlike.names_eq : ∀ {bs bs' : List (Branch Stmt)}, BranchesAlike R bs bs' →
    (namesOfBranches bs).map (·.text) = (namesOfBranches bs').map (·.text)
  | _, _, .nil => rfl
  | _, _, .cons hc hb hs => by simp [namesOfBranches, hc.names_eq, hb.names_eq, hs.names_eq]

end

mutual

theorem Alike.refl (hR : ∀ p, R p p) : ∀ s : Stmt, s.Alike R s
  | .missing => .missing (hR _)
  | .assign _ _ _ value => .assign (hR _) ⟨rfl, hR _⟩ (.refl hR value)
  | .eval _ e => .eval (.refl hR e)
  | .branch _ bs otherwise => .branch (hR _) (.refl hR bs) (.refl hR otherwise)
  | .whileLoop _ cond body => .whileLoop (hR _) (.refl hR cond) (.refl hR body)
  | .forLoop _ _ range body =>
    .forLoop (hR _) ⟨rfl, hR _⟩ ⟨.refl hR range.start, .refl hR range.stop, .refl hR range.step⟩
      (.refl hR body)
  | .breakLoop _ => .breakLoop (hR _)
  | .continueLoop _ => .continueLoop (hR _)

theorem BodyAlike.refl (hR : ∀ p, R p p) : ∀ b : Option (Block Stmt), BodyAlike R b b
  | none => .none
  | some ⟨_, _, ss⟩ => .some (.refl hR ss)

theorem ListAlike.refl (hR : ∀ p, R p p) : ∀ ss : List Stmt, ListAlike R ss ss
  | [] => .nil
  | s :: rest => .cons (.refl hR s) (.refl hR rest)

theorem BranchesAlike.refl (hR : ∀ p, R p p) : ∀ bs : List (Branch Stmt), BranchesAlike R bs bs
  | [] => .nil
  | ⟨cond, body⟩ :: rest => .cons (.refl hR cond) (.refl hR body) (.refl hR rest)

end

theorem listAlike_iff {ss ss' : List Stmt} :
    ListAlike R ss ss' ↔ List.Forall₂ (Alike R) ss ss' := by
  constructor
  · intro h
    induction ss generalizing ss' with
    | nil =>
      cases h
      exact .nil
    | cons s rest ih =>
      cases h with
      | cons hs hrest => exact .cons hs (ih hrest)
  · intro h
    induction h with
    | nil => exact .nil
    | cons hs _ ih => exact .cons hs ih

end Stmt

/-- Branches with alike conditions and bodies. -/
structure Branch.Alike (R : Pos → Pos → Prop) (b b' : Branch Stmt) : Prop where
  cond : b.cond.Alike R b'.cond
  body : Stmt.BodyAlike R b.body b'.body

theorem Stmt.branchesAlike_iff {bs bs' : List (Branch Stmt)} :
    BranchesAlike R bs bs' ↔ List.Forall₂ (Branch.Alike R) bs bs' := by
  constructor
  · intro h
    induction bs generalizing bs' with
    | nil =>
      cases h
      exact .nil
    | cons b rest ih =>
      cases h with
      | cons hc hb hrest => exact .cons ⟨hc, hb⟩ (ih hrest)
  · intro h
    induction h with
    | nil => exact .nil
    | cons hb _ ih => exact .cons hb.cond hb.body ih

/-- Programs with alike statements. -/
def Program.Alike (R : Pos → Pos → Prop) (p p' : Program) : Prop :=
  Stmt.ListAlike R p.stmts p'.stmts

end ThreeAddress
