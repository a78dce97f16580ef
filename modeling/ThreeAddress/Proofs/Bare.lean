import ThreeAddress.Syntax

/-! Trees whose positions are replaced, and as a case of them trees and tokens without positions. -/
namespace ThreeAddress

def Span.relocate (f : Pos → Pos) (s : Span) : Span := ⟨f s.start, f s.stop⟩

def Name.relocate (f : Pos → Pos) (n : Name) : Name := ⟨n.span.relocate f, n.text⟩

/-- The same expression with every position replaced by what `f` makes of it. -/
def Expr.relocate (f : Pos → Pos) : Expr → Expr
  | .missing => .missing
  | .number span value raw => .number (span.relocate f) value raw
  | .boolean span value => .boolean (span.relocate f) value
  | .name n => .name (n.relocate f)
  | .binary span op l r => .binary (span.relocate f) op (l.relocate f) (r.relocate f)
  | .unary span op e => .unary (span.relocate f) op (e.relocate f)

def Range.relocate (f : Pos → Pos) (r : Range) : Range :=
  ⟨r.start.relocate f, r.stop.relocate f, r.step.relocate f⟩

namespace Stmt

mutual

/-- The same statement with every position replaced by what `f` makes of it. -/
def relocate (f : Pos → Pos) : Stmt → Stmt
  | .missing => .missing
  | .assign span target op value =>
    .assign (span.relocate f) (target.relocate f) op (value.relocate f)
  | .eval span e => .eval (span.relocate f) (e.relocate f)
  | .branch span branches otherwise =>
    .branch (span.relocate f) (relocateBranches f branches) (relocateBody f otherwise)
  | .whileLoop span cond body =>
    .whileLoop (span.relocate f) (cond.relocate f) (relocateBody f body)
  | .forLoop span var range body =>
    .forLoop (span.relocate f) (var.relocate f) (range.relocate f) (relocateBody f body)
  | .breakLoop span => .breakLoop (span.relocate f)
  | .continueLoop span => .continueLoop (span.relocate f)

def relocateBody (f : Pos → Pos) : Option (Block Stmt) → Option (Block Stmt)
  | none => none
  | some ⟨opens, closes, stmts⟩ => some ⟨f opens, f closes, relocateList f stmts⟩

def relocateList (f : Pos → Pos) : List Stmt → List Stmt
  | [] => []
  | s :: rest => s.relocate f :: relocateList f rest

def relocateBranches (f : Pos → Pos) : List (Branch Stmt) → List (Branch Stmt)
  | [] => []
  | ⟨cond, body⟩ :: rest => ⟨cond.relocate f, relocateBody f body⟩ :: relocateBranches f rest

end

end Stmt

def Block.relocate (f : Pos → Pos) (b : Block Stmt) : Block Stmt :=
  ⟨f b.opens, f b.closes, b.stmts.map (Stmt.relocate f)⟩

def Branch.relocate (f : Pos → Pos) (b : Branch Stmt) : Branch Stmt :=
  ⟨b.cond.relocate f, b.body.map (Block.relocate f)⟩

variable {f : Pos → Pos}

namespace Stmt

@[simp] theorem relocateList_eq (ss : List Stmt) :
    relocateList f ss = ss.map (relocate f) := by
  induction ss with
  | nil => rfl
  | cons s rest ih => simp [relocateList, ih]

@[simp] theorem relocateBody_eq (b : Option (Block Stmt)) :
    relocateBody f b = b.map (Block.relocate f) := by
  rcases b with _ | ⟨opens, closes, stmts⟩
  · rfl
  · simp [relocateBody, Block.relocate]

@[simp] theorem relocateBranches_eq (bs : List (Branch Stmt)) :
    relocateBranches f bs = bs.map (Branch.relocate f) := by
  induction bs with
  | nil => rfl
  | cons b rest ih =>
    obtain ⟨cond, body⟩ := b
    simp [relocateBranches, Branch.relocate, ih]

end Stmt

/-- A token without its position. -/
structure Word where
  kind : Kind
  text : Text
deriving DecidableEq, Repr

def Token.word (t : Token) : Word := ⟨t.kind, t.text⟩

def Span.nowhere : Span := ⟨.unknown, .unknown⟩

@[simp] theorem Span.relocate_unknown (s : Span) : s.relocate (fun _ => .unknown) = .nowhere := rfl

abbrev Name.bare (n : Name) : Name := n.relocate fun _ => .unknown

theorem Name.bare_eq_of_text {n m : Name} (h : n.text = m.text) : n.bare = m.bare := by
  simp [relocate, h]

abbrev Expr.bare (e : Expr) : Expr := e.relocate fun _ => .unknown

abbrev Range.bare (r : Range) : Range := r.relocate fun _ => .unknown

abbrev Stmt.bare (s : Stmt) : Stmt := s.relocate fun _ => .unknown

abbrev Block.bare (b : Block Stmt) : Block Stmt := b.relocate fun _ => .unknown

abbrev Branch.bare (b : Branch Stmt) : Branch Stmt := b.relocate fun _ => .unknown

def Program.bare (p : Program) : Program := ⟨.nowhere, p.stmts.map Stmt.bare⟩

namespace Expr

@[simp] theorem bare_bare (e : Expr) : e.bare.bare = e.bare := by
  induction e <;> simp_all [relocate, Name.relocate]

end Expr

end ThreeAddress
