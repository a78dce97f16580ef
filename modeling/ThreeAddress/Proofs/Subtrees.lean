import ThreeAddress.Proofs.WellFormed
import ThreeAddress.Syntax.Node

/-! The parts of a tree: what lies directly below a node, in the order in which a walk comes to it,
and what lies anywhere below. -/
namespace ThreeAddress

namespace Tree

/-- A body as the list of its block, which has none if it is missing. -/
def ofBody (body : Option (Block Stmt)) : List Tree := body.toList.map .block

/-- A condition, and the block that it guards. -/
def ofBranch (b : Branch Stmt) : List Tree := .expr b.cond :: ofBody b.body

end Tree

def Expr.children : Expr → List Tree
  | .binary _ _ l r => [.expr l, .expr r]
  | .unary _ _ e => [.expr e]
  | _ => []

def Stmt.children : Stmt → List Tree
  | .assign _ target _ value => [.expr (.name target), .expr value]
  | .eval _ e => [.expr e]
  | .branch _ branches otherwise => branches.flatMap Tree.ofBranch ++ Tree.ofBody otherwise
  | .whileLoop _ cond body => .expr cond :: Tree.ofBody body
  | .forLoop _ var range body =>
    [.expr (.name var), .expr range.start, .expr range.stop, .expr range.step] ++ Tree.ofBody body
  | .missing | .breakLoop _ | .continueLoop _ => []

def Expr.sort? : Expr → Option NodeSort
  | .missing => none
  | .number .. => some .number
  | .boolean .. => some .boolean
  | .name _ => some .name
  | .binary .. => some .binary
  | .unary .. => some .unary

def Stmt.sort? : Stmt → Option NodeSort
  | .missing => none
  | .assign .. => some .assign
  | .eval .. => some .eval
  | .branch .. => some .branch
  | .whileLoop .. => some .whileLoop
  | .forLoop .. => some .forLoop
  | .breakLoop _ => some .breakLoop
  | .continueLoop _ => some .continueLoop

namespace Tree

/-- What lies directly below a node. -/
def children : Tree → List Tree
  | .absent => []
  | .expr e => e.children
  | .stmt s => s.children
  | .block b => b.stmts.map .stmt
  | .program p => p.stmts.map .stmt

/-- The sort of the root; a gap has none. -/
def sort? : Tree → Option NodeSort
  | .absent => none
  | .expr e => e.sort?
  | .stmt s => s.sort?
  | .block _ => some .block
  | .program _ => some .program

def span : Tree → Span
  | .absent => ⟨.unknown, .unknown⟩
  | .expr e => e.span
  | .stmt s => s.span
  | .block b => ⟨b.opens, b.closes⟩
  | .program p => p.span

/-- `root.Has t`: the tree `t` lies somewhere below the root, or is the whole tree. -/
inductive Has (root : Tree) : Tree → Prop
  | root : Has root root
  | child {t c : Tree} : Has root t → c ∈ t.children → Has root c

variable (enter : NodeSort → Bool)

@[simp] theorem nodes_expr (e : Expr) : (expr e).nodes enter = e.nodes enter := rfl

@[simp] theorem nodes_stmt (s : Stmt) : (stmt s).nodes enter = s.nodes enter := rfl

theorem nodesOfBody_eq (body : Option (Block Stmt)) :
    Stmt.nodesOfBody enter body = (ofBody body).flatMap (·.nodes enter) := by
  cases body with
  | none => rfl
  | some b => exact (List.append_nil _).symm

theorem nodesOfList_eq (ss : List Stmt) :
    Stmt.nodesOfList enter ss = (ss.map Tree.stmt).flatMap (·.nodes enter) := by
  induction ss with
  | nil => rfl
  | cons s rest ih => simp [Stmt.nodesOfList, ih]

theorem nodesOfBranches_eq (bs : List (Branch Stmt)) :
    Stmt.nodesOfBranches enter bs = (bs.flatMap ofBranch).flatMap (·.nodes enter) := by
  induction bs with
  | nil => rfl
  | cons b rest ih =>
    obtain ⟨cond, body⟩ := b
    simp [Stmt.nodesOfBranches, ofBranch, nodesOfBody_eq, ih]

theorem withChildren_nil (n : Node) : n.withChildren enter [] = [n] := by
  simp [Node.withChildren]

/-- A walk comes to the root, and then to the nodes of each child in turn. -/
theorem nodes_eq {t : Tree} {sort : NodeSort} (h : t.sort? = some sort) : t.nodes enter =
    Node.withChildren enter ⟨sort, t.span⟩ (t.children.flatMap (·.nodes enter)) := by
  cases t with
  | absent => cases h
  | expr e =>
    cases e with
    | missing => cases h
    | binary | unary =>
      cases h
      simp [Expr.nodes, children, Expr.children, span, Expr.span]
    | _ =>
      cases h
      exact (withChildren_nil enter _).symm
  | stmt s =>
    cases s with
    | missing => cases h
    | assign | eval =>
      cases h
      simp [Stmt.nodes, Expr.nodes, children, Stmt.children, span, Stmt.span]
    | branch | whileLoop | forLoop =>
      cases h
      simp [Stmt.nodes, Expr.nodes, children, Stmt.children, span, Stmt.span, nodesOfBody_eq,
        nodesOfBranches_eq]
    | _ =>
      cases h
      exact (withChildren_nil enter _).symm
  | block b =>
    cases h
    exact congrArg (Node.withChildren enter ⟨.block, b.opens, b.closes⟩)
      (nodesOfList_eq enter b.stmts)
  | program p =>
    cases h
    exact congrArg (Node.withChildren enter ⟨.program, p.span⟩) (nodesOfList_eq enter p.stmts)

def WellFormed : Tree → Prop
  | .absent => False
  | .expr e => e.WellFormed
  | .stmt s => s.WellFormed
  | .block b => Stmt.WellFormedList b.stmts
  | .program p => p.WellFormed

variable {t c root : Tree}

theorem wellFormed_of_mem {ss : List Stmt} (h : Stmt.WellFormedList ss)
    (hc : c ∈ ss.map Tree.stmt) : c.WellFormed := by
  induction ss with
  | nil => simp at hc
  | cons s rest ih =>
    rcases List.mem_cons.1 hc with rfl | hc
    · exact h.1
    · exact ih h.2 hc

theorem wellFormed_of_mem_body {body : Option (Block Stmt)} (h : Stmt.WellFormedBody body)
    (hc : c ∈ ofBody body) : c.WellFormed := by
  cases body with
  | none => simp [ofBody] at hc
  | some b =>
    obtain rfl : c = .block b := by simpa [ofBody] using hc
    exact h

theorem wellFormed_of_mem_branches {bs : List (Branch Stmt)} (h : Stmt.WellFormedBranches bs)
    (hc : c ∈ bs.flatMap ofBranch) : c.WellFormed := by
  induction bs with
  | nil => simp at hc
  | cons b rest ih =>
    rw [List.flatMap_cons, List.mem_append] at hc
    rcases hc with hc | hc
    · rcases List.mem_cons.1 hc with rfl | hc
      · exact h.1
      · exact wellFormed_of_mem_body h.2.1.2 hc
    · exact ih h.2.2 hc

theorem WellFormed.child (h : t.WellFormed) (hc : c ∈ t.children) : c.WellFormed := by
  cases t with
  | absent => exact absurd h id
  | expr e =>
    cases e with
    | binary span op l r =>
      obtain ⟨-, hl, hr⟩ := h
      rcases List.mem_cons.1 hc with rfl | hc
      · exact hl
      · obtain rfl := List.mem_singleton.1 hc
        exact hr
    | unary span op e =>
      obtain rfl := List.mem_singleton.1 hc
      exact h.2
    | _ => simp [children, Expr.children] at hc
  | stmt s =>
    cases s with
    | assign span target op value =>
      rcases List.mem_cons.1 hc with rfl | hc
      · exact h.1
      · obtain rfl := List.mem_singleton.1 hc
        exact h.2.2
    | eval span e =>
      obtain rfl := List.mem_singleton.1 hc
      exact h
    | branch span bs otherwise =>
      rcases List.mem_append.1 hc with hc | hc
      · exact wellFormed_of_mem_branches h.2.1 hc
      · exact wellFormed_of_mem_body h.2.2 hc
    | whileLoop span cond body =>
      rcases List.mem_cons.1 hc with rfl | hc
      · exact h.1
      · exact wellFormed_of_mem_body h.2.2 hc
    | forLoop span var range body =>
      obtain ⟨hname, ⟨hstart, hstop, hstep⟩, -, hbody⟩ := h
      rcases List.mem_append.1 hc with hc | hc
      · simp only [List.mem_cons, List.not_mem_nil, or_false] at hc
        rcases hc with rfl | rfl | rfl | rfl
        · exact hname
        · exact hstart
        · exact hstop
        · exact hstep
      · exact wellFormed_of_mem_body hbody hc
    | _ => simp [children, Stmt.children] at hc
  | block b => exact wellFormed_of_mem h hc
  | program p => exact wellFormed_of_mem h hc

theorem Has.wellFormed (h : root.Has t) (hroot : root.WellFormed) : t.WellFormed := by
  induction h with
  | root => exact hroot
  | child _ hc ih => exact ih.child hc

end Tree

end ThreeAddress
