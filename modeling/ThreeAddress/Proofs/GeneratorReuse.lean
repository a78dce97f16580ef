import ThreeAddress.Instr.Lowering
import ThreeAddress.Proofs.Bare

/-! A generator can be used again. A run may fail at any depth, with names handed out and loops still
open, and nothing of that reaches the next run: it starts from a reset, and the scheme, which alone
outlives a reset, is never changed. -/
namespace ThreeAddress

namespace Lower

variable {α β : Type}

/-- The generator after a piece of lowering, also after one that failed. -/
def after (x : Lower α) (g : Generator) : Generator :=
  match x g with
  | .ok _ g' => g'
  | .error _ g' => g'

/-- A piece of lowering leaves the scheme as it is, whether it succeeds or fails. -/
def KeepsScheme (x : Lower α) : Prop := ∀ g, (after x g).scheme = g.scheme

theorem keepsScheme_pure (a : α) : KeepsScheme (pure a : Lower α) := fun _ => rfl

theorem keepsScheme_throw (e : LoweringError) : KeepsScheme (throw e : Lower α) := fun _ => rfl

theorem KeepsScheme.bind {x : Lower α} {f : α → Lower β} (hx : KeepsScheme x)
    (hf : ∀ a, KeepsScheme (f a)) : KeepsScheme (x >>= f) := by
  intro g
  have hg := hx g
  have hbind : (x >>= f) g = EStateM.bind x f g := rfl
  unfold after at hg ⊢
  rw [hbind, EStateM.bind]
  cases hrun : x g with
  | ok a g₁ =>
    rw [hrun] at hg
    exact (hf a g₁).trans hg
  | error e g₁ =>
    rw [hrun] at hg
    exact hg

theorem keepsScheme_newTemp : KeepsScheme newTemp := fun _ => rfl

theorem keepsScheme_newLabel : KeepsScheme newLabel := fun _ => rfl

theorem keepsScheme_declare (n : Name) : KeepsScheme (declare n) := fun _ => rfl

theorem keepsScheme_type : KeepsScheme type := fun _ => rfl

theorem keepsScheme_innermost (pos : Pos) (cause : LoweringError.Cause) :
    KeepsScheme (innermost pos cause) := by
  refine KeepsScheme.bind (fun _ => rfl) fun g => ?_
  split
  · exact keepsScheme_throw _
  · exact keepsScheme_pure _

theorem KeepsScheme.inside {x : Lower α} (hx : KeepsScheme x) (loop : Loop) :
    KeepsScheme (inside loop x) :=
  KeepsScheme.bind (fun _ => rfl) fun _ => hx.bind fun _ =>
    KeepsScheme.bind (fun _ => rfl) fun _ => keepsScheme_pure _

theorem keepsScheme_expr (e : Expr) : KeepsScheme (expr e) := by
  induction e with
  | missing => exact keepsScheme_throw _
  | number | boolean | name => exact keepsScheme_pure _
  | binary span op l r ihl ihr =>
    exact ihl.bind fun _ => ihr.bind fun _ => keepsScheme_newTemp.bind fun _ =>
      keepsScheme_type.bind fun _ => keepsScheme_pure _
  | unary span op e ih =>
    exact ih.bind fun _ => keepsScheme_newTemp.bind fun _ => keepsScheme_type.bind fun _ =>
      keepsScheme_pure _

theorem keepsScheme_bound (e : Expr) : KeepsScheme (bound e) := by
  refine (keepsScheme_expr e).bind fun ⟨code, x⟩ => KeepsScheme.bind ?_ fun _ => keepsScheme_pure _
  unfold snapshot
  split
  · exact keepsScheme_pure _
  · exact keepsScheme_newTemp.bind fun _ => keepsScheme_type.bind fun _ => keepsScheme_pure _

theorem keepsScheme_conditions (bs : List (Branch Stmt)) : KeepsScheme (conditions bs) := by
  induction bs with
  | nil => exact keepsScheme_pure _
  | cons b rest ih =>
    exact (keepsScheme_expr b.cond).bind fun _ => ih.bind fun _ => keepsScheme_pure _

mutual

theorem keepsScheme_stmt : ∀ s : Stmt, KeepsScheme (stmt s)
  | .missing => keepsScheme_throw _
  | .assign span target op value => by
    refine (keepsScheme_expr value).bind fun ⟨code, x⟩ => (keepsScheme_declare target).bind
      fun isNew => keepsScheme_type.bind fun type => ?_
    split
    · exact keepsScheme_pure _
    · split <;> exact keepsScheme_pure _
  | .eval span e => (keepsScheme_expr e).bind fun _ => keepsScheme_pure _
  | .branch span bs otherwise => by
    rw [stmt]
    split
    · exact keepsScheme_throw _
    · exact (keepsScheme_conditions bs).bind fun ⟨code, conds⟩ => keepsScheme_newLabel.bind
        fun stop => (keepsScheme_chain stop conds bs).bind fun _ =>
          (keepsScheme_body otherwise).bind fun _ => keepsScheme_pure _
  | .whileLoop span cond block =>
    keepsScheme_newLabel.bind fun _ => keepsScheme_newLabel.bind fun _ =>
      (keepsScheme_expr cond).bind fun _ => ((keepsScheme_body block).inside _).bind fun _ =>
        keepsScheme_pure _
  | .forLoop span var range block =>
    (keepsScheme_expr range.start).bind fun _ => (keepsScheme_bound range.stop).bind fun _ =>
      (keepsScheme_bound range.step).bind fun _ => (keepsScheme_declare var).bind fun _ =>
        keepsScheme_type.bind fun _ => keepsScheme_newLabel.bind fun _ =>
          keepsScheme_newLabel.bind fun _ => keepsScheme_newLabel.bind fun _ =>
            ((keepsScheme_body block).inside _).bind fun _ => keepsScheme_pure _
  | .breakLoop span => (keepsScheme_innermost _ _).bind fun _ => keepsScheme_pure _
  | .continueLoop span => (keepsScheme_innermost _ _).bind fun _ => keepsScheme_pure _

theorem keepsScheme_body : ∀ b : Option (Block Stmt), KeepsScheme (body b)
  | none => keepsScheme_pure _
  | some ⟨_, _, stmts⟩ => keepsScheme_list stmts

theorem keepsScheme_list : ∀ ss : List Stmt, KeepsScheme (list ss)
  | [] => keepsScheme_pure _
  | s :: rest => (keepsScheme_stmt s).bind fun _ => (keepsScheme_list rest).bind fun _ =>
      keepsScheme_pure _

theorem keepsScheme_chain (stop : Text) : ∀ (xs : List Text) (bs : List (Branch Stmt)),
    KeepsScheme (chain stop xs bs)
  | _ :: xs, ⟨_, block⟩ :: rest => keepsScheme_newLabel.bind fun _ =>
      (keepsScheme_body block).bind fun _ => (keepsScheme_chain stop xs rest).bind fun _ =>
        keepsScheme_pure _
  | [], [] | [], _ :: _ | _ :: _, [] => keepsScheme_pure _

end

end Lower

namespace Generator

/-- What can be asked of a generator. -/
inductive Call where
  | generate (p : Program)
  | reset

/-- The generator after a call. -/
def perform (g : Generator) : Call → Generator
  | .generate p => (g.generate p).2
  | .reset => g.reset

/-- A run that fails inside two loops leaves both of them open. -/
example : ((new .default).perform (.generate ⟨.nowhere, [.whileLoop .nowhere (.boolean .nowhere true)
    (some ⟨.unknown, .unknown, [.whileLoop .nowhere (.boolean .nowhere true)
      (some ⟨.unknown, .unknown, [.missing]⟩)]⟩)]⟩)).loops.map (·.breakTo) =
    [Text.ofString "l4", Text.ofString "l2"] := by
  decide

end Generator

end ThreeAddress
