import ThreeAddress.Syntax

/-! The nodes of a tree in depth-first order, each parent before its children and the children in
the order of the text. -/
namespace ThreeAddress

/-- The sort of a node. -/
inductive NodeSort where
  | program | block | number | boolean | name | binary | unary
  | assign | eval | branch | whileLoop | forLoop | breakLoop | continueLoop
deriving DecidableEq, Repr

/-- A node as a walk meets it. -/
structure Node where
  sort : NodeSort
  span : Span

namespace Node

/-- A node with what lies below it, which is left out where the walk does not enter. -/
def withChildren (enter : NodeSort → Bool) (n : Node) (children : List Node) : List Node :=
  n :: if enter n.sort then children else []

end Node

variable (enter : NodeSort → Bool)

def Name.nodes (n : Name) : List Node := [⟨.name, n.span⟩]

def Expr.nodes : Expr → List Node
  | .missing => []
  | .number s .. => [⟨.number, s⟩]
  | .boolean s _ => [⟨.boolean, s⟩]
  | .name n => n.nodes
  | .binary s _ l r => Node.withChildren enter ⟨.binary, s⟩ (l.nodes ++ r.nodes)
  | .unary s _ e => Node.withChildren enter ⟨.unary, s⟩ e.nodes

namespace Stmt

mutual

def nodes : Stmt → List Node
  | .missing => []
  | .assign s target _ value =>
    Node.withChildren enter ⟨.assign, s⟩ (target.nodes ++ value.nodes enter)
  | .eval s e => Node.withChildren enter ⟨.eval, s⟩ (e.nodes enter)
  | .branch s branches otherwise =>
    Node.withChildren enter ⟨.branch, s⟩ (nodesOfBranches branches ++ nodesOfBody otherwise)
  | .whileLoop s cond body =>
    Node.withChildren enter ⟨.whileLoop, s⟩ (cond.nodes enter ++ nodesOfBody body)
  | .forLoop s var range body =>
    Node.withChildren enter ⟨.forLoop, s⟩
      (var.nodes ++ range.start.nodes enter ++ range.stop.nodes enter ++ range.step.nodes enter ++
        nodesOfBody body)
  | .breakLoop s => [⟨.breakLoop, s⟩]
  | .continueLoop s => [⟨.continueLoop, s⟩]

def nodesOfBody : Option (Block Stmt) → List Node
  | none => []
  | some ⟨opens, closes, stmts⟩ =>
    Node.withChildren enter ⟨.block, opens, closes⟩ (nodesOfList stmts)

def nodesOfList : List Stmt → List Node
  | [] => []
  | s :: rest => s.nodes ++ nodesOfList rest

def nodesOfBranches : List (Branch Stmt) → List Node
  | [] => []
  | ⟨cond, body⟩ :: rest => cond.nodes enter ++ nodesOfBody body ++ nodesOfBranches rest

end

end Stmt

def Program.nodes (p : Program) : List Node :=
  Node.withChildren enter ⟨.program, p.span⟩ (Stmt.nodesOfList enter p.stmts)

/-- The nodes of a tree; below a node whose sort `enter` refuses, none is visited. -/
def Tree.nodes : Tree → List Node
  | .absent => []
  | .expr e => e.nodes enter
  | .stmt s => s.nodes enter
  | .block b => Stmt.nodesOfBody enter (some b)
  | .program p => p.nodes enter

end ThreeAddress
