import ThreeAddress.Proofs.Printing
import ThreeAddress.Proofs.Safety
import ThreeAddress.Syntax.Node

/-! The names that lowering makes up. No temporary and no label is made twice, no temporary is a
name of the source, every label has its use, and the counts of both can be read off the tree. -/
namespace ThreeAddress

/-- The temporary that is declared. -/
def Action.temp? : Action → Option Text
  | .compute _ dest _ => some dest
  | _ => none

namespace Instr

def tempsOf (code : List Instr) : List Text := code.filterMap (·.action.temp?)

@[simp] theorem tempsOf_nil : tempsOf [] = [] := rfl

@[simp] theorem tempsOf_append (a b : List Instr) : tempsOf (a ++ b) = tempsOf a ++ tempsOf b := by
  simp [tempsOf]

@[simp] theorem tempsOf_cons (i : Instr) (rest : List Instr) :
    tempsOf (i :: rest) = i.action.temp?.toList ++ tempsOf rest := by
  cases h : i.action.temp? <;> simp [tempsOf, h]

end Instr

open Instr

def NodeSort.isOperation : NodeSort → Bool
  | .binary | .unary => true
  | _ => false

namespace Node

/-- A walk that leaves out nothing. -/
def everywhere (_ : NodeSort) : Bool := true

/-- The number of operations among nodes. -/
def operations (ns : List Node) : Nat := ns.countP (·.sort.isOperation)

@[simp] theorem operations_nil : operations [] = 0 := rfl

@[simp] theorem operations_append (a b : List Node) :
    operations (a ++ b) = operations a + operations b := by
  simp [operations]

@[simp] theorem operations_withChildren (n : Node) (ns : List Node) :
    operations (n.withChildren everywhere ns) =
      (if n.sort.isOperation then 1 else 0) + operations ns := by
  simp [operations, withChildren, everywhere, List.countP_cons, Nat.add_comm]

end Node

namespace Stmt

/-- The labels of a statement, without those of the statements in it. -/
def ownLabels : Stmt → Nat
  | .branch _ branches _ => branches.length + 1
  | .whileLoop .. => 2
  | .forLoop .. => 3
  | _ => 0

/-- How many of the two bounds of a loop are plain names. -/
def namedBounds : Stmt → Nat
  | .forLoop _ _ range _ => range.stop.name?.toList.length + range.step.name?.toList.length
  | _ => 0

/-- The statements of a list and all statements in them. -/
def allOf (ss : List Stmt) : List Stmt := (ss :: listsOfList ss).flatten

/-- The sum of what statements count for. -/
def total (f : Stmt → Nat) (ss : List Stmt) : Nat := ss.foldr (fun s n => f s + n) 0

@[simp] theorem total_nil (f : Stmt → Nat) : total f [] = 0 := rfl

@[simp] theorem total_cons (f : Stmt → Nat) (s : Stmt) (ss : List Stmt) :
    total f (s :: ss) = f s + total f ss := rfl

@[simp] theorem total_append (f : Stmt → Nat) (ss rs : List Stmt) :
    total f (ss ++ rs) = total f ss + total f rs := by
  induction ss with
  | nil => simp
  | cons s ss ih => simp [ih, Nat.add_assoc]

theorem total_perm (f : Stmt → Nat) {ss rs : List Stmt} (h : ss.Perm rs) :
    total f ss = total f rs := by
  induction h with
  | nil => rfl
  | cons s _ ih => simp [ih]
  | swap s r ss =>
    simp only [total_cons]
    omega
  | trans _ _ ih ih' => exact ih.trans ih'

theorem flatten_listsOfBody (b : Option (Block Stmt)) :
    (listsOfBody b).flatten = allOf (ofBody b) := by
  cases b with
  | none => rfl
  | some b => rfl

theorem operations_body (b : Option (Block Stmt)) :
    Node.operations (nodesOfBody Node.everywhere b) =
      Node.operations (nodesOfList Node.everywhere (ofBody b)) := by
  cases b with
  | none => rfl
  | some b => simp [nodesOfBody, ofBody, NodeSort.isOperation]

/-- The operations of a chain are those of its conditions and those of its bodies. -/
theorem operations_branches (bs : List (Branch Stmt)) :
    Node.operations (nodesOfBranches Node.everywhere bs) =
      Node.operations (bs.flatMap (·.cond.nodes Node.everywhere)) +
        Node.operations (bs.flatMap (nodesOfBody Node.everywhere ·.body)) := by
  induction bs with
  | nil => rfl
  | cons b rest ih =>
    simp only [nodesOfBranches, Node.operations_append, List.flatMap_cons, ih]
    omega

end Stmt

namespace Program

/-- Every statement of a program, at all depths. -/
def allStmts (p : Program) : List Stmt := Stmt.allOf p.stmts

/-- The number of operations in a program. -/
def operations (p : Program) : Nat := Node.operations (p.nodes Node.everywhere)

end Program

namespace Task

/-- Every statement of a task, at all depths. -/
def all : Task → List Stmt
  | .stmt s => s :: s.lists.flatten
  | .list ss => Stmt.allOf ss
  | .chain _ _ bs => (Stmt.listsOfBranches bs).flatten

theorem all_cons (s : Stmt) (rest : List Stmt) :
    (Task.list (s :: rest)).all.Perm ((Task.stmt s).all ++ (Task.list rest).all) := by
  simp only [all, Stmt.allOf, Stmt.listsOfList, List.flatten_cons, List.flatten_append,
    List.cons_append]
  refine List.Perm.cons s ?_
  rw [← List.append_assoc, ← List.append_assoc]
  exact List.perm_append_comm.append_right _

theorem all_branch (span : Span) (bs : List (Branch Stmt)) (otherwise : Option (Block Stmt))
    (stop : Text) (xs : List Text) : (Task.stmt (.branch span bs otherwise)).all =
      .branch span bs otherwise :: ((Task.chain stop xs bs).all ++
        (Task.list (Stmt.ofBody otherwise)).all) := by
  simp [all, Stmt.lists, Stmt.flatten_listsOfBody]

theorem all_chain_cons (stop x : Text) (xs : List Text) (cond : Expr) (body : Option (Block Stmt))
    (rest : List (Branch Stmt)) : (Task.chain stop (x :: xs) (⟨cond, body⟩ :: rest)).all =
      (Task.list (Stmt.ofBody body)).all ++ (Task.chain stop xs rest).all := by
  simp [all, Stmt.listsOfBranches, Stmt.flatten_listsOfBody]

theorem all_whileLoop (span : Span) (cond : Expr) (body : Option (Block Stmt)) :
    (Task.stmt (.whileLoop span cond body)).all =
      .whileLoop span cond body :: (Task.list (Stmt.ofBody body)).all := by
  simp [all, Stmt.lists, Stmt.flatten_listsOfBody]

theorem all_forLoop (span : Span) (var : Name) (range : Range) (body : Option (Block Stmt)) :
    (Task.stmt (.forLoop span var range body)).all =
      .forLoop span var range body :: (Task.list (Stmt.ofBody body)).all := by
  simp [all, Stmt.lists, Stmt.flatten_listsOfBody]

/-- The sum of what the statements of a task count for. -/
def total (f : Stmt → Nat) (task : Task) : Nat := Stmt.total f task.all

variable (f : Stmt → Nat)

theorem total_cons (s : Stmt) (rest : List Stmt) :
    (Task.list (s :: rest)).total f = (Task.stmt s).total f + (Task.list rest).total f := by
  rw [total, Stmt.total_perm f (all_cons s rest), Stmt.total_append]
  rfl

theorem total_branch (span : Span) (bs : List (Branch Stmt)) (otherwise : Option (Block Stmt))
    (stop : Text) (xs : List Text) : (Task.stmt (.branch span bs otherwise)).total f =
      f (.branch span bs otherwise) + (Task.chain stop xs bs).total f +
        (Task.list (Stmt.ofBody otherwise)).total f := by
  simp [total, all_branch span bs otherwise stop xs, Nat.add_assoc]

theorem total_chain_cons (stop x : Text) (xs : List Text) (cond : Expr)
    (body : Option (Block Stmt)) (rest : List (Branch Stmt)) :
    (Task.chain stop (x :: xs) (⟨cond, body⟩ :: rest)).total f =
      (Task.list (Stmt.ofBody body)).total f + (Task.chain stop xs rest).total f := by
  simp [total, all_chain_cons]

theorem total_whileLoop (span : Span) (cond : Expr) (body : Option (Block Stmt)) :
    (Task.stmt (.whileLoop span cond body)).total f =
      f (.whileLoop span cond body) + (Task.list (Stmt.ofBody body)).total f := by
  simp [total, all_whileLoop]

theorem total_forLoop (span : Span) (var : Name) (range : Range) (body : Option (Block Stmt)) :
    (Task.stmt (.forLoop span var range body)).total f =
      f (.forLoop span var range body) + (Task.list (Stmt.ofBody body)).total f := by
  simp [total, all_forLoop]

/-- The nodes of a task. The conditions of a chain do not belong to its clauses. -/
def nodes : Task → List Node
  | .stmt s => s.nodes Node.everywhere
  | .list ss => Stmt.nodesOfList Node.everywhere ss
  | .chain _ _ bs => bs.flatMap (Stmt.nodesOfBody Node.everywhere ·.body)

/-- The number of temporaries that a task needs. -/
def temps (task : Task) : Nat := Node.operations task.nodes + task.total Stmt.namedBounds

theorem temps_cons (s : Stmt) (rest : List Stmt) :
    (Task.list (s :: rest)).temps = (Task.stmt s).temps + (Task.list rest).temps := by
  simp only [temps, total_cons, nodes, Stmt.nodesOfList, Node.operations_append]
  omega

theorem temps_assign (span : Span) (target : Name) (op : Kind) (value : Expr) :
    (Task.stmt (.assign span target op value)).temps =
      Node.operations (value.nodes Node.everywhere) := by
  simp [temps, nodes, Stmt.nodes, Name.nodes, Node.operations, Node.withChildren, Node.everywhere,
    NodeSort.isOperation, total, all, Stmt.lists, Stmt.namedBounds]

theorem temps_eval (span : Span) (e : Expr) :
    (Task.stmt (.eval span e)).temps = Node.operations (e.nodes Node.everywhere) := by
  simp [temps, nodes, Stmt.nodes, NodeSort.isOperation, total, all, Stmt.lists, Stmt.namedBounds]

theorem temps_branch (span : Span) (bs : List (Branch Stmt)) (otherwise : Option (Block Stmt))
    (stop : Text) (xs : List Text) : (Task.stmt (.branch span bs otherwise)).temps =
      Node.operations (bs.flatMap (·.cond.nodes Node.everywhere)) +
        (Task.chain stop xs bs).temps + (Task.list (Stmt.ofBody otherwise)).temps := by
  simp only [temps, total_branch _ span bs otherwise stop xs, nodes, Stmt.nodes,
    Node.operations_withChildren, Node.operations_append, Stmt.operations_branches,
    Stmt.operations_body, NodeSort.isOperation, Stmt.namedBounds]
  simp only [Bool.false_eq_true, if_false]
  omega

theorem temps_chain_cons (stop x : Text) (xs : List Text) (cond : Expr)
    (body : Option (Block Stmt)) (rest : List (Branch Stmt)) :
    (Task.chain stop (x :: xs) (⟨cond, body⟩ :: rest)).temps =
      (Task.list (Stmt.ofBody body)).temps + (Task.chain stop xs rest).temps := by
  simp only [temps, total_chain_cons, nodes, List.flatMap_cons, Node.operations_append,
    Stmt.operations_body]
  omega

theorem temps_whileLoop (span : Span) (cond : Expr) (body : Option (Block Stmt)) :
    (Task.stmt (.whileLoop span cond body)).temps =
      Node.operations (cond.nodes Node.everywhere) + (Task.list (Stmt.ofBody body)).temps := by
  simp only [temps, total_whileLoop, nodes, Stmt.nodes, Node.operations_withChildren,
    Node.operations_append, Stmt.operations_body, NodeSort.isOperation, Stmt.namedBounds]
  simp only [Bool.false_eq_true, if_false]
  omega

theorem temps_forLoop (span : Span) (var : Name) (range : Range) (body : Option (Block Stmt)) :
    (Task.stmt (.forLoop span var range body)).temps =
      Node.operations (range.start.nodes Node.everywhere) +
        (Node.operations (range.stop.nodes Node.everywhere) + range.stop.name?.toList.length) +
        (Node.operations (range.step.nodes Node.everywhere) + range.step.name?.toList.length) +
        (Task.list (Stmt.ofBody body)).temps := by
  have hvar : Node.operations var.nodes = 0 := rfl
  simp only [temps, total_forLoop, nodes, Stmt.nodes, Node.operations_withChildren,
    Node.operations_append, Stmt.operations_body, NodeSort.isOperation, Stmt.namedBounds, hvar]
  simp only [Bool.false_eq_true, if_false]
  omega

/-- The number of labels that a task needs; each clause of a chain ends in one. -/
def labels : Task → Nat
  | .chain stop xs bs => (Task.chain stop xs bs).total Stmt.ownLabels + bs.length
  | task => task.total Stmt.ownLabels

end Task

section

variable {scheme : Scheme} {reserved : List Text} {names names' : Names} {code : List Instr}
  {e : Expr} {x : Text} {xs : List Text} {bs : List (Branch Stmt)}

theorem ExprCode.numbered_temps (h : ExprCode scheme reserved e names code x names') :
    Numbered scheme.temp names.lastTemp names'.lastTemp (tempsOf code) := by
  induction h with
  | number | boolean | name => exact .nil _
  | @binary _ _ _ _ _ _ n₂ _ _ _ _ _ _ ihl ihr =>
    simp only [tempsOf_append]
    exact (ihl.append ihr).append (.single _ (n₂.lastTemp_lt_nextTemp scheme reserved))
  | @unary _ _ _ _ n₁ _ _ _ ih =>
    simp only [tempsOf_append]
    exact ih.append (.single _ (n₁.lastTemp_lt_nextTemp scheme reserved))

theorem BoundCode.numbered_temps (h : BoundCode scheme reserved e names code x names') :
    Numbered scheme.temp names.lastTemp names'.lastTemp (tempsOf code) := by
  cases h with
  | plain _ h => exact h.numbered_temps
  | copied => exact .single _ (names.lastTemp_lt_nextTemp scheme reserved)

theorem ConditionsCode.numbered_temps
    (h : ConditionsCode scheme reserved bs names code xs names') :
    Numbered scheme.temp names.lastTemp names'.lastTemp (tempsOf code) := by
  induction h with
  | nil => exact .nil _
  | cons he _ ih =>
    rw [tempsOf_append]
    exact he.numbered_temps.append ih

theorem StoreCode.tempsOf_eq {isNew : Bool} {target : Text} {op : Kind} {pos : Pos}
    (h : StoreCode scheme isNew target op x pos code) : tempsOf code = [] := by
  cases h <;> rfl

/-- The temporaries of an expression are as many as its operations. -/
theorem ExprCode.tempsOf_length (h : ExprCode scheme reserved e names code x names') :
    (tempsOf code).length = Node.operations (e.nodes Node.everywhere) ∧
      names'.temps = names.temps + (tempsOf code).length := by
  induction h with
  | number | boolean | name => exact ⟨rfl, rfl⟩
  | binary _ _ ihl ihr =>
    simp [Action.temp?, Expr.nodes, NodeSort.isOperation, Names.withTemp]
    omega
  | unary _ ih =>
    simp [Action.temp?, Expr.nodes, NodeSort.isOperation, Names.withTemp]
    omega

theorem BoundCode.tempsOf_length (h : BoundCode scheme reserved e names code x names') :
    (tempsOf code).length =
        Node.operations (e.nodes Node.everywhere) + e.name?.toList.length ∧
      names'.temps = names.temps + (tempsOf code).length := by
  cases h with
  | plain hn h =>
    rw [hn]
    exact h.tempsOf_length
  | copied => exact ⟨rfl, rfl⟩

theorem ConditionsCode.tempsOf_length
    (h : ConditionsCode scheme reserved bs names code xs names') :
    (tempsOf code).length = Node.operations (bs.flatMap (·.cond.nodes Node.everywhere)) ∧
      names'.temps = names.temps + (tempsOf code).length := by
  induction h with
  | nil => exact ⟨rfl, rfl⟩
  | cons he _ ih =>
    have hfirst := he.tempsOf_length
    simp only [tempsOf_append, List.length_append, List.flatMap_cons, Node.operations_append]
    omega

end

namespace Lowered

variable {scheme : Scheme} {reserved : List Text} {loop : Option Loop} {task : Task}
  {names names' : Names} {code : List Instr}

/-- Lowered code computes the temporaries that are handed out for it, each of them once. -/
theorem numbered_temps (h : Lowered scheme reserved loop task names code names') :
    Numbered scheme.temp names.lastTemp names'.lastTemp (tempsOf code) := by
  induction h with
  | nil | chainNil | breakLoop | continueLoop => exact .nil _
  | cons _ _ ih ih' =>
    rw [tempsOf_append]
    exact ih.append ih'
  | assign he hs =>
    rw [tempsOf_append, hs.tempsOf_eq, List.append_nil]
    exact he.numbered_temps
  | eval he => exact he.numbered_temps
  | branch _ hc _ _ ih ih' =>
    simp only [tempsOf_append]
    exact ((hc.numbered_temps.append ih).append ih').append (.nil _)
  | chainCons _ _ ih ih' =>
    simp only [tempsOf_append]
    exact ((Numbered.nil _).append ih).append (.nil _) |>.append ih'
  | whileLoop he _ ih =>
    simp only [tempsOf_append]
    exact ((((Numbered.nil _).append he.numbered_temps).append (.nil _)).append ih).append (.nil _)
  | forLoop h₁ h₂ h₃ hn _ _ ih =>
    subst hn
    simp only [tempsOf_append]
    have hbounds := (h₁.numbered_temps.append h₂.numbered_temps).append h₃.numbered_temps
    exact ((hbounds.append (.nil _)).append ih).append (.nil _)

/-- The temporaries are as many as the task needs, and all of them are counted. -/
theorem tempsOf_length (h : Lowered scheme reserved loop task names code names') :
    (tempsOf code).length = task.temps ∧ names'.temps = names.temps + (tempsOf code).length := by
  induction h with
  | nil | chainNil | breakLoop | continueLoop => exact ⟨rfl, rfl⟩
  | cons _ _ ih ih' =>
    rw [Task.temps_cons, tempsOf_append, List.length_append]
    omega
  | assign he hs =>
    rw [Task.temps_assign, tempsOf_append, hs.tempsOf_eq, List.append_nil]
    exact he.tempsOf_length
  | eval he =>
    rw [Task.temps_eval]
    exact he.tempsOf_length
  | @branch _ span bs otherwise _ n₁ _ _ _ _ _ xs _ hc _ _ ih ih' =>
    have hconds := hc.tempsOf_length
    rw [Task.temps_branch span bs otherwise (scheme.label (n₁.labels + 1)) xs]
    simp only [tempsOf_append, tempsOf_cons, tempsOf_nil, Action.temp?, Option.toList_none,
      List.append_nil, List.length_append, Names.withLabel] at *
    omega
  | chainCons _ _ ih ih' =>
    rw [Task.temps_chain_cons]
    simp only [tempsOf_append, tempsOf_cons, tempsOf_nil, Action.temp?, Option.toList_none,
      List.append_nil, List.length_append, List.length_nil, Names.withLabel] at *
    omega
  | whileLoop he _ ih =>
    have hcond := he.tempsOf_length
    rw [Task.temps_whileLoop]
    simp only [tempsOf_append, tempsOf_cons, tempsOf_nil, Action.temp?, Option.toList_none,
      List.append_nil, List.length_append, List.length_nil, Names.withLabel] at *
    omega
  | forLoop h₁ h₂ h₃ hn _ _ ih =>
    have hstart := h₁.tempsOf_length
    have hstop := h₂.tempsOf_length
    have hstep := h₃.tempsOf_length
    rw [Task.temps_forLoop]
    simp only [tempsOf_append, tempsOf_cons, tempsOf_nil, Action.temp?, Option.toList_none,
      List.append_nil, List.length_append, Names.withLabel, hn, Names.withName] at *
    omega

/-- The labels are as many as the task needs, and all of them are counted. -/
theorem labelsOf_length (h : Lowered scheme reserved loop task names code names') :
    (labelsOf code).length = task.labels ∧
      names'.labels = names.labels + (labelsOf code).length := by
  induction h with
  | nil | chainNil | breakLoop | continueLoop => exact ⟨rfl, rfl⟩
  | cons _ _ ih ih' =>
    simp only [Task.labels, Task.total_cons, labelsOf_append, List.length_append] at *
    omega
  | assign he hs =>
    rw [labelsOf_append, he.straight.1, hs.straight.1]
    exact ⟨rfl, he.labels_eq⟩
  | eval he =>
    rw [he.straight.1]
    exact ⟨rfl, he.labels_eq⟩
  | @branch _ span bs otherwise _ n₁ _ _ _ _ _ xs _ hc _ _ ih ih' =>
    have hconds := hc.labels_eq
    simp only [Task.labels, Task.total_branch _ span bs otherwise (scheme.label (n₁.labels + 1)) xs,
      Stmt.ownLabels] at *
    simp only [hc.straight.1, labelsOf_append, labelsOf_cons, labelsOf_nil, Action.label?,
      Option.toList_some, List.append_nil, List.length_append, List.length_singleton,
      List.length_nil, Names.withLabel] at *
    omega
  | chainCons _ _ ih ih' =>
    simp only [Task.labels, Task.total_chain_cons, List.length_cons] at *
    simp only [labelsOf_append, labelsOf_cons, labelsOf_nil, Action.label?, Option.toList_some,
      Option.toList_none, List.append_nil, List.length_append, List.length_singleton,
      List.length_nil, Names.withLabel] at *
    omega
  | whileLoop he _ ih =>
    have hcond := he.labels_eq
    simp only [Task.labels, Task.total_whileLoop, Stmt.ownLabels] at *
    simp only [he.straight.1, labelsOf_append, labelsOf_cons, labelsOf_nil, Action.label?,
      Option.toList_some, Option.toList_none, List.append_nil, List.length_append,
      List.length_singleton, List.length_nil, Names.withLabel] at *
    omega
  | forLoop h₁ h₂ h₃ hn _ _ ih =>
    have hstart := h₁.labels_eq
    have hstop := h₂.labels_eq
    have hstep := h₃.labels_eq
    simp only [Task.labels, Task.total_forLoop, Stmt.ownLabels] at *
    simp only [hn, h₁.straight.1, h₂.straight.1, h₃.straight.1, labelsOf_append, labelsOf_cons,
      labelsOf_nil, Action.label?, Option.toList_some, Option.toList_none, List.append_nil,
      List.length_append, List.length_singleton, List.length_nil, Names.withLabel,
      Names.withName] at *
    omega

end Lowered

/-- One of the loops that count advances its counter at the label, and then goes back to its test:
a loop goes on from there. -/
def Continues (ss : List Stmt) (code : List Instr) (l : Text) : Prop :=
  ∃ span var range body step again stop, Stmt.forLoop span var range body ∈ ss ∧
    [⟨.label l, span.start⟩, ⟨.store none var.text "+=" step, span.start⟩,
      ⟨.jump again, span.start⟩, ⟨.label stop, span.start⟩] <:+: code

theorem Continues.mono {ss rs : List Stmt} {code codes : List Instr} {l : Text}
    (h : Continues ss code l) (hsub : ss ⊆ rs) (hcode : code <:+: codes) :
    Continues rs codes l := by
  obtain ⟨span, var, range, body, step, again, stop, hmem, hat⟩ := h
  exact ⟨span, var, range, body, step, again, stop, hsub hmem, hat.trans hcode⟩

/-- Something jumps to the label, or a loop goes on from there. -/
def Useful (ss : List Stmt) (code : List Instr) (l : Text) : Prop :=
  l ∈ targetsOf code ∨ Continues ss code l

theorem Useful.mono {ss rs : List Stmt} {code codes : List Instr} {l : Text}
    (h : Useful ss code l) (hsub : ss ⊆ rs) (hcode : code <:+: codes) : Useful rs codes l := by
  obtain ht | hc := h
  · exact Or.inl ((hcode.sublist.filterMap _).subset ht)
  · exact Or.inr (hc.mono hsub hcode)

namespace Lowered

variable {scheme : Scheme} {reserved : List Text} {loop : Option Loop} {task : Task}
  {names names' : Names} {code : List Instr}

/-- A chain that has a clause jumps to its end. -/
theorem stop_mem_targetsOf {stop : Text} {xs : List Text} {bs : List (Branch Stmt)}
    (h : Lowered scheme reserved loop (.chain stop xs bs) names code names') (hne : bs ≠ []) :
    stop ∈ targetsOf code := by
  cases h with
  | chainNil => exact absurd rfl hne
  | chainCons => simp [Action.target?]

/-- Every label has its use. -/
theorem useful (h : Lowered scheme reserved loop task names code names') :
    ∀ l ∈ labelsOf code, Useful task.all code l := by
  induction h with
  | nil | chainNil | breakLoop | continueLoop => simp [Action.label?]
  | @cons _ s rest _ _ _ code codes _ _ ih ih' =>
    intro l hl
    have hall := (Task.all_cons s rest).symm.subset
    simp only [labelsOf_append, List.mem_append] at hl
    obtain hl | hl := hl
    · exact (ih l hl).mono (fun _ h => hall (by simp [h])) (List.prefix_append _ _).isInfix
    · exact (ih' l hl).mono (fun _ h => hall (by simp [h])) (List.suffix_append _ _).isInfix
  | assign he hs => simp [he.straight.1, hs.straight.1]
  | eval he => simp [he.straight.1]
  | @branch _ span bs otherwise _ n₁ _ _ code clauses last xs hne hc hchain _ ih ih' =>
    intro l hl
    have hl : l ∈ labelsOf clauses ∨ l ∈ labelsOf last ∨ l = scheme.label (n₁.labels + 1) := by
      simpa [hc.straight.1, Action.label?] using hl
    rw [Task.all_branch span bs otherwise (scheme.label (n₁.labels + 1)) xs]
    obtain hl | hl | rfl := hl
    · exact (ih l hl).mono (fun _ h => by simp [h])
        ((List.infix_append _ _ _).trans (List.prefix_append _ _).isInfix)
    · exact (ih' l hl).mono (fun _ h => by simp [h]) (List.infix_append _ _ _)
    · exact Or.inl (by simp [hchain.stop_mem_targetsOf hne])
  | @chainCons _ stop x xs cond body rest n _ _ inner clauses _ _ ih ih' =>
    intro l hl
    have hl : l ∈ labelsOf inner ∨ l = scheme.label (n.labels + 1) ∨ l ∈ labelsOf clauses := by
      simpa [Action.label?] using hl
    rw [Task.all_chain_cons]
    obtain hl | rfl | hl := hl
    · exact (ih l hl).mono (fun _ h => by simp [h])
        ((List.infix_append _ _ _).trans (List.prefix_append _ _).isInfix)
    · exact Or.inl (by simp [Action.target?])
    · exact (ih' l hl).mono (fun _ h => by simp [h]) (List.suffix_append _ _).isInfix
  | @whileLoop _ span cond body n _ _ code inner x he _ ih =>
    intro l hl
    have hl : l = scheme.label (n.labels + 1) ∨ l ∈ labelsOf inner ∨
        l = scheme.label (n.labels + 2) := by
      simpa [he.straight.1, Action.label?] using hl
    rw [Task.all_whileLoop]
    obtain rfl | hl | rfl := hl
    · exact Or.inl (by simp [Action.target?])
    · exact (ih l hl).mono (fun _ h => by simp [h]) (List.infix_append _ _ _)
    · exact Or.inl (by simp [Action.target?])
  | @forLoop _ span var range body _ _ _ _ named _ _ _ _ inner _ _ step _ h₁ h₂ h₃ _ _ _ ih =>
    intro l hl
    have hl : l = scheme.label (named.labels + 1) ∨ l ∈ labelsOf inner ∨
        l = scheme.label (named.labels + 2) ∨ l = scheme.label (named.labels + 3) := by
      simpa [h₁.straight.1, h₂.straight.1, h₃.straight.1, Action.label?] using hl
    rw [Task.all_forLoop]
    obtain rfl | hl | rfl | rfl := hl
    · exact Or.inl (by simp [Action.target?])
    · exact (ih l hl).mono (fun _ h => by simp [h]) (List.infix_append _ _ _)
    · exact Or.inr ⟨span, var, range, body, step, _, _, List.mem_cons_self,
        (List.suffix_append _ _).isInfix⟩
    · exact Or.inl (by simp [Action.target?])

end Lowered

/-- In the code of a program every label is defined once, every jump goes to one of them, and each
has its use. Every temporary is computed once and is no name of the source. There are as many
temporaries as operations and plain names that bound a loop, and as many labels as the statements
ask for. -/
theorem generated_names_are_fresh {scheme : Scheme} {source : Text} {p : Program}
    {listing : Listing} (hparse : Program.parse source = .ok p)
    (hlower : p.lower scheme = .ok listing) :
    (labelsOf listing.code).Nodup ∧
    (∀ t ∈ targetsOf listing.code, t ∈ labelsOf listing.code) ∧
    (∀ l ∈ labelsOf listing.code, Useful p.allStmts listing.code l) ∧
    (tempsOf listing.code).Nodup ∧
    (∀ t ∈ tempsOf listing.code, ∀ n ∈ p.names, t ≠ n.text) ∧
    listing.temps = (tempsOf listing.code).length ∧
    listing.temps = p.operations + Stmt.total Stmt.namedBounds p.allStmts ∧
    listing.labels = (labelsOf listing.code).length ∧
    listing.labels = Stmt.total Stmt.ownLabels p.allStmts := by
  obtain ⟨names, hcode, htemps, hlabels⟩ := Program.lower_eq_ok hlower
  have hwf : Task.WellFormed (.list p.stmts) := Program.wellFormed_of_parse hparse
  obtain ⟨hneeded, hcount⟩ := hcode.tempsOf_length
  obtain ⟨hneeded', hcount'⟩ := hcode.labelsOf_length
  rw [Names.initial, Nat.zero_add] at hcount hcount'
  rw [hcount] at htemps
  rw [hcount'] at hlabels
  refine ⟨hcode.numbered.nodup Scheme.label_injective, hcode.closed rfl, hcode.useful,
    hcode.numbered_temps.nodup Scheme.temp_injective, fun t ht n hn => ?_, htemps, ?_, hlabels, ?_⟩
  · obtain ⟨i, hi, htemp⟩ := List.mem_filterMap.1 ht
    have hsound := hcode.sound hwf i hi
    cases hact : i.action with
    | compute type dest rhs =>
      rw [hact] at hsound htemp
      obtain rfl : dest = t := by simpa [Action.temp?] using htemp
      rintro rfl
      exact hsound (List.mem_map_of_mem hn)
    | _ => simp [hact, Action.temp?] at htemp
  · rw [htemps, hneeded, Program.operations, Program.nodes, Node.operations_withChildren]
    simp [Task.temps, NodeSort.isOperation, Task.nodes, Task.total, Task.all, Program.allStmts]
  · rw [hlabels, hneeded']
    rfl

/-- The source uses the first three names that temporaries would have. -/
theorem temporaries_pass_over_names : ∃ t : Compilation,
    Program.parse "for t1 in range(-t2, t3, True): { if t1: { break } }" =
        .ok t.program ∧
      t.program.lower ⟨"int", "t", "l"⟩ = .ok t.listing ∧
      tempsOf t.listing.code = [Text.ofString "t4", Text.ofString "t5"] ∧
      (∀ x ∈ tempsOf t.listing.code, ∀ n ∈ t.program.names, x ≠ n.text) ∧
      t.program.operations = 1 ∧ Stmt.total Stmt.namedBounds t.program.allStmts = 1 ∧
      t.listing.temps = 2 ∧ t.listing.labels = 5 ∧
      t.listing.labels = (labelsOf t.listing.code).length ∧
      ∀ l ∈ labelsOf t.listing.code, Useful t.program.allStmts t.listing.code l := by
  have hrun : (compile ⟨⟨"int", "t", "l"⟩, true, []⟩
      "for t1 in range(-t2, t3, True): { if t1: { break } }").outcome.toOption.map
        (fun t => ([t.program.operations, Stmt.total Stmt.namedBounds t.program.allStmts,
          Stmt.total Stmt.ownLabels t.program.allStmts], tempsOf t.listing.code)) =
      some ([1, 1, 5], [Text.ofString "t4", Text.ofString "t5"]) := by
    decide +kernel
  obtain ⟨t, hcompile, hvalues⟩ := exists_of_map_compile hrun
  obtain ⟨-, hparse, hlower⟩ := compile_eq_ok hcompile
  simp only [Prod.mk.injEq, List.cons.injEq, and_true] at hvalues
  obtain ⟨⟨hops, hbounds, hown⟩, htemps⟩ := hvalues
  obtain ⟨-, -, huseful, -, hfresh, -, hneeded, hcount, hlabels⟩ :=
    generated_names_are_fresh hparse hlower
  rw [hops, hbounds] at hneeded
  rw [hown] at hlabels
  exact ⟨t, hparse, hlower, htemps, hfresh, hops, hbounds, hneeded, hlabels, hcount, huseful⟩

end ThreeAddress
