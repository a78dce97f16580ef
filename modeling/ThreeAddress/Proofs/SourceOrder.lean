import ThreeAddress.Proofs.Declarations
import ThreeAddress.Proofs.GeneratedNames

/-! The statements of a program in the order in which they begin in the source. What a program does
to its names is what its statements do, one after the other in that order. -/
namespace ThreeAddress

/-- The name that an event is about. -/
def Event.name? : Event → Option Name
  | .read n | .declare n => some n
  | .zeroStep _ => none

namespace Stmt

mutual

/-- A statement, followed by all statements in its bodies. -/
def inOrder : Stmt → List Stmt
  | .branch span bs otherwise =>
    .branch span bs otherwise :: (inOrderOfBranches bs ++ inOrderOfBody otherwise)
  | .whileLoop span cond body => .whileLoop span cond body :: inOrderOfBody body
  | .forLoop span var range body => .forLoop span var range body :: inOrderOfBody body
  | s => [s]

def inOrderOfBody : Option (Block Stmt) → List Stmt
  | none => []
  | some ⟨_, _, stmts⟩ => inOrderOfList stmts

def inOrderOfList : List Stmt → List Stmt
  | [] => []
  | s :: rest => s.inOrder ++ inOrderOfList rest

def inOrderOfBranches : List (Branch Stmt) → List Stmt
  | [] => []
  | ⟨_, body⟩ :: rest => inOrderOfBody body ++ inOrderOfBranches rest

end

/-- What a statement does to names before the statements in it do anything. An assignment reads its
value, then its target if it is compound, and declares that; a chain reads all its conditions, and a
loop its bounds before it declares its variable. -/
def nameEvents : Stmt → List Event
  | .assign _ target op value =>
    value.names.map .read ++ (if op.isCompound then [.read target] else []) ++ [.declare target]
  | .eval _ e => e.names.map .read
  | .branch _ bs _ => (bs.flatMap (·.cond.names)).map .read
  | .whileLoop _ cond _ => cond.names.map .read
  | .forLoop _ var range _ =>
    (range.start.names ++ range.stop.names ++ range.step.names).map .read ++ [.declare var]
  | .missing | .breakLoop _ | .continueLoop _ => []

/-- The place of a step that is known to be zero. -/
def zeroStep? : Stmt → Option Pos
  | .forLoop _ _ range _ =>
    if range.step.const?.any (· == 0) then some range.step.start else none
  | _ => none

end Stmt

namespace Program

/-- Every statement of a program, at all depths, in the order of the source. -/
def inOrder (p : Program) : List Stmt := Stmt.inOrderOfList p.stmts

/-- What a program does to its names, in the order of evaluation. -/
def nameEvents (p : Program) : List Event := p.inOrder.flatMap Stmt.nameEvents

end Program

namespace Stmt

theorem inOrderOfBody_eq (b : Option (Block Stmt)) :
    inOrderOfBody b = inOrderOfList (ofBody b) := by
  cases b with
  | none => rfl
  | some b => rfl

mutual

theorem inOrder_perm : ∀ s : Stmt, s.inOrder.Perm (s :: s.lists.flatten)
  | .missing | .assign .. | .eval .. | .breakLoop _ | .continueLoop _ => List.Perm.refl _
  | .branch _ bs otherwise => by
    rw [inOrder, lists, List.flatten_append]
    exact ((inOrderOfBranches_perm bs).append (inOrderOfBody_perm otherwise)).cons _
  | .whileLoop _ _ body => (inOrderOfBody_perm body).cons _
  | .forLoop _ _ _ body => (inOrderOfBody_perm body).cons _

theorem inOrderOfBody_perm : ∀ b : Option (Block Stmt),
    (inOrderOfBody b).Perm (listsOfBody b).flatten
  | none => List.Perm.refl _
  | some ⟨_, _, stmts⟩ => inOrderOfList_perm stmts

theorem inOrderOfList_perm : ∀ ss : List Stmt, (inOrderOfList ss).Perm (allOf ss)
  | [] => List.Perm.refl _
  | s :: rest =>
    ((inOrder_perm s).append (inOrderOfList_perm rest)).trans (Task.all_cons s rest).symm

theorem inOrderOfBranches_perm : ∀ bs : List (Branch Stmt),
    (inOrderOfBranches bs).Perm (listsOfBranches bs).flatten
  | [] => List.Perm.refl _
  | ⟨_, body⟩ :: rest => by
    rw [inOrderOfBranches, listsOfBranches, List.flatten_append]
    exact (inOrderOfBody_perm body).append (inOrderOfBranches_perm rest)

end

/-- The events of a statement before those of the statements in it. A loop is found to have the step
zero after its bounds are read. -/
def ownEvents : Stmt → List Event
  | .forLoop span var range body =>
    (range.start.names ++ range.stop.names ++ range.step.names).map .read ++
      (zeroStep? (.forLoop span var range body)).toList.map .zeroStep ++ [.declare var]
  | s => s.nameEvents

theorem filter_reads (ns : List Name) :
    (ns.map Event.read).filter (·.name?.isSome) = ns.map .read :=
  List.filter_eq_self.2 fun e he => by
    obtain ⟨n, -, rfl⟩ := List.mem_map.1 he
    rfl

theorem filter_ownEvents (s : Stmt) : s.ownEvents.filter (·.name?.isSome) = s.nameEvents := by
  cases s with
  | missing | breakLoop | continueLoop => rfl
  | eval | branch | whileLoop => exact filter_reads _
  | assign span target op value =>
    simp only [ownEvents, nameEvents, List.filter_append, filter_reads]
    split <;> rfl
  | forLoop span var range body =>
    simp only [ownEvents, nameEvents, List.filter_append, filter_reads]
    cases zeroStep? (.forLoop span var range body) <;> simp [Event.name?]

mutual

theorem events_eq : ∀ s : Stmt, s.events = s.inOrder.flatMap ownEvents
  | .missing | .breakLoop _ | .continueLoop _ => rfl
  | .assign .. | .eval .. => (List.append_nil _).symm
  | .branch span bs otherwise => by
    rw [inOrder, List.flatMap_cons, List.flatMap_append, ← eventsOfBranches_eq bs,
      ← eventsOfBody_eq_flatMap otherwise, ← List.append_assoc]
    rfl
  | .whileLoop span cond body => by
    rw [inOrder, List.flatMap_cons, ← eventsOfBody_eq_flatMap body]
    rfl
  | .forLoop span var range body => by
    rw [inOrder, List.flatMap_cons, ← eventsOfBody_eq_flatMap body]
    simp only [events, ownEvents, zeroStep?]
    cases range.step.const? with
    | none => rfl
    | some v => by_cases hv : v == 0 <;> simp [hv]

theorem eventsOfBody_eq_flatMap : ∀ b : Option (Block Stmt),
    eventsOfBody b = (inOrderOfBody b).flatMap ownEvents
  | none => rfl
  | some ⟨_, _, stmts⟩ => eventsOfList_eq stmts

theorem eventsOfList_eq : ∀ ss : List Stmt,
    eventsOfList ss = (inOrderOfList ss).flatMap ownEvents
  | [] => rfl
  | s :: rest => by
    rw [eventsOfList, inOrderOfList, List.flatMap_append, events_eq s, eventsOfList_eq rest]

theorem eventsOfBranches_eq : ∀ bs : List (Branch Stmt),
    eventsOfBranches bs = (inOrderOfBranches bs).flatMap ownEvents
  | [] => rfl
  | ⟨_, body⟩ :: rest => by
    rw [eventsOfBranches, inOrderOfBranches, List.flatMap_append, eventsOfBody_eq_flatMap body,
      eventsOfBranches_eq rest]

end

theorem filterMap_reads (ns : List Name) : (ns.map Event.read).filterMap Event.name? = ns := by
  induction ns with
  | nil => rfl
  | cons n ns ih => exact congrArg (List.cons n) ih

mutual

theorem mem_names : ∀ (s : Stmt) (n : Name), n ∈ s.names ↔ n ∈ s.events.filterMap Event.name?
  | .missing, n | .breakLoop _, n | .continueLoop _, n => Iff.rfl
  | .assign _ target op value, n => by
    simp only [names, events, List.filterMap_append, filterMap_reads]
    by_cases hop : op.isCompound <;> simp [hop, Event.name?, or_comm]
  | .eval _ e, n => by rw [names, events, filterMap_reads]
  | .branch _ bs otherwise, n => by
    simp only [names, events, List.filterMap_append, filterMap_reads, List.mem_append,
      mem_namesOfBranches bs n, mem_namesOfBody otherwise n]
  | .whileLoop _ cond body, n => by
    simp only [names, events, List.filterMap_append, filterMap_reads, List.mem_append,
      mem_namesOfBody body n]
  | .forLoop span var range body, n => by
    simp only [names, events, List.filterMap_append, filterMap_reads, List.mem_append,
      List.mem_cons, mem_namesOfBody body n]
    cases range.step.const? with
    | none => grind [Event.name?]
    | some v => by_cases hv : v == 0 <;> grind [Event.name?]

theorem mem_namesOfBody : ∀ (b : Option (Block Stmt)) (n : Name),
    n ∈ namesOfBody b ↔ n ∈ (eventsOfBody b).filterMap Event.name?
  | none, _ => Iff.rfl
  | some ⟨_, _, stmts⟩, n => mem_namesOfList stmts n

theorem mem_namesOfList : ∀ (ss : List Stmt) (n : Name),
    n ∈ namesOfList ss ↔ n ∈ (eventsOfList ss).filterMap Event.name?
  | [], _ => Iff.rfl
  | s :: rest, n => by
    rw [namesOfList, eventsOfList, List.filterMap_append, List.mem_append, List.mem_append,
      mem_names s n, mem_namesOfList rest n]

theorem mem_namesOfBranches : ∀ (bs : List (Branch Stmt)) (n : Name),
    n ∈ namesOfBranches bs ↔
      n ∈ bs.flatMap (·.cond.names) ∨ n ∈ (eventsOfBranches bs).filterMap Event.name?
  | [], _ => by simp [namesOfBranches, eventsOfBranches]
  | ⟨cond, body⟩ :: rest, n => by
    simp only [namesOfBranches, eventsOfBranches, List.filterMap_append, List.mem_append,
      List.flatMap_cons, mem_namesOfBody body n, mem_namesOfBranches rest n]
    grind

end

end Stmt

namespace Program

variable (p : Program)

theorem mem_inOrder {st : Stmt} : st ∈ p.inOrder ↔ st ∈ p.allStmts :=
  (Stmt.inOrderOfList_perm p.stmts).mem_iff

theorem events_eq : p.events = p.inOrder.flatMap Stmt.ownEvents := Stmt.eventsOfList_eq p.stmts

theorem filter_events : p.events.filter (·.name?.isSome) = p.nameEvents := by
  rw [events_eq, List.filter_flatMap, nameEvents]
  simp only [Stmt.filter_ownEvents]

theorem mem_names_iff {n : Name} : n ∈ p.names ↔ ∃ e ∈ p.nameEvents, e.name? = some n := by
  rw [← filter_events, names, Stmt.mem_namesOfList, List.mem_filterMap]
  constructor
  · rintro ⟨e, he, hn⟩
    exact ⟨e, List.mem_filter.2 ⟨he, by simp [hn]⟩, hn⟩
  · rintro ⟨e, he, hn⟩
    exact ⟨e, (List.mem_filter.1 he).1, hn⟩

end Program

end ThreeAddress
