import Mathlib.Order.Monotone.Basic
import ThreeAddress.Proofs.AlikeParsing
import ThreeAddress.Proofs.LoweredCode
import ThreeAddress.Proofs.Operands

/-! Two lowerings side by side, of alike trees and with names of different looks. They hand out
names in step, so that the code of one is that of the other with temporaries and labels renamed;
since each passes over the names of the source that look like its own, the renaming pairs the
temporaries by their order and not by their numbers. -/
namespace ThreeAddress

namespace Scheme

variable (scheme : Scheme) (vars : List Text)

/-- The number of the last of the first `k` temporaries of a program with the names `vars`. -/
def lastTemp : Nat → Nat
  | 0 => 0
  | k + 1 =>
    let reserved := scheme.reserved vars
    Lower.freeNumber scheme.tempStem reserved reserved.length (lastTemp k + 1)

/-- The temporary that is handed out after `k` others. -/
def nthTemp (k : Nat) : Text := scheme.temp (scheme.lastTemp vars (k + 1))

theorem lastTemp_strictMono : StrictMono (scheme.lastTemp vars) :=
  strictMono_nat_of_lt_succ fun _ => Lower.le_freeNumber _ _

variable {scheme vars}

theorem nthTemp_injective {j k : Nat} (h : scheme.nthTemp vars j = scheme.nthTemp vars k) :
    j = k := by
  have hlast : scheme.lastTemp vars (j + 1) = scheme.lastTemp vars (k + 1) := temp_injective h
  exact Nat.succ.inj ((scheme.lastTemp_strictMono vars).injective hlast)

/-- No temporary has a name of the source. -/
theorem nthTemp_not_mem (k : Nat) : scheme.nthTemp vars k ∉ vars :=
  Names.temp_nextTemp_not_mem scheme vars { Names.initial with lastTemp := scheme.lastTemp vars k }

end Scheme

/-- Two lowerings side by side: the places that belong together, the two schemes, and the names of
the source, which are the same for both. -/
structure Pairing where
  places : Pos → Pos → Prop
  left : Scheme
  right : Scheme
  vars : List Text

namespace Pairing

variable (P : Pairing)

/-- The temporaries that were handed out at the same time. -/
inductive Temps : Text → Text → Prop
  | nth (k : Nat) : Temps (P.left.nthTemp P.vars k) (P.right.nthTemp P.vars k)

/-- The labels with one number. -/
inductive Labels : Text → Text → Prop
  | nth (n : Nat) : Labels (P.left.label n) (P.right.label n)

/-- Operands that stand for the same: names and numbers of the source, or temporaries. -/
inductive Operands : Text → Text → Prop
  | name {x : Text} : x ∈ P.vars → Operands x x
  | literal {x : Text} : Operand.isLiteral x = true → Operands x x
  | temp {x x' : Text} : P.Temps x x' → Operands x x'

inductive Rhss : Rhs → Rhs → Prop
  | copy {x x' : Text} : P.Operands x x' → Rhss (.copy x) (.copy x')
  | unary {op x x' : Text} : P.Operands x x' → Rhss (.unary op x) (.unary op x')
  | binary {op x x' y y' : Text} : P.Operands x x' → P.Operands y y' →
      Rhss (.binary x op y) (.binary x' op y')

inductive Actions : Action → Action → Prop
  | declare {type name : Text} : name ∈ P.vars → Actions (.declare type name) (.declare type name)
  | compute {type t t' : Text} {rhs rhs' : Rhs} : P.Temps t t' → P.Rhss rhs rhs' →
      Actions (.compute type t rhs) (.compute type t' rhs')
  | store {type : Option Text} {dest op x x' : Text} : dest ∈ P.vars → P.Operands x x' →
      Actions (.store type dest op x) (.store type dest op x')
  | jumpUnless {x x' l l' : Text} : P.Operands x x' → P.Labels l l' →
      Actions (.jumpUnless x l) (.jumpUnless x' l')
  | jumpIf {x x' op y y' l l' : Text} : P.Operands x x' → P.Operands y y' → P.Labels l l' →
      Actions (.jumpIf x op y l) (.jumpIf x' op y' l')
  | jump {l l' : Text} : P.Labels l l' → Actions (.jump l) (.jump l')
  | label {l l' : Text} : P.Labels l l' → Actions (.label l) (.label l')

structure Instrs (i i' : Instr) : Prop where
  action : P.Actions i.action i'.action
  pos : P.places i.pos i'.pos

/-- Pieces of code that do the same. -/
abbrev Codes (code code' : List Instr) : Prop := List.Forall₂ P.Instrs code code'

structure Loops (l l' : Loop) : Prop where
  breakTo : P.Labels l.breakTo l'.breakTo
  continueTo : P.Labels l.continueTo l'.continueTo

/-- The same variable of the source. -/
structure Symbols (s s' : Symbol) : Prop where
  name : s.name = s'.name
  mem : s.name ∈ P.vars
  pos : P.places s.pos s'.pos

/-- The same count of names was handed out by both generators. -/
structure Generators (g g' : Generator) : Prop where
  left : g.scheme = P.left
  right : g'.scheme = P.right
  type : P.left.type = P.right.type
  reservedLeft : g.reserved = P.left.reserved P.vars
  reservedRight : g'.reserved = P.right.reserved P.vars
  lastLeft : g.names.lastTemp = P.left.lastTemp P.vars g.names.temps
  lastRight : g'.names.lastTemp = P.right.lastTemp P.vars g.names.temps
  temps : g.names.temps = g'.names.temps
  labels : g.names.labels = g'.names.labels
  symbols : List.Forall₂ P.Symbols g.names.symbols.symbols g'.names.symbols.symbols
  loops : List.Forall₂ P.Loops g.loops g'.loops

/-- The same reason, at places that belong together. -/
structure Errors (e e' : LoweringError) : Prop where
  cause : e.cause = e'.cause
  pos : P.places e.pos e'.pos

inductive Results {α α' : Type} (A : α → α' → Prop) :
    EStateM.Result LoweringError Generator α → EStateM.Result LoweringError Generator α' → Prop
  | ok {a : α} {a' : α'} {g g' : Generator} : A a a' → P.Generators g g' →
      Results A (.ok a g) (.ok a' g')
  | error {e e' : LoweringError} {g g' : Generator} : P.Errors e e' →
      Results A (.error e g) (.error e' g')

/-- Two pieces of lowering that do the same from generators that are in step. -/
def Lowers {α α' : Type} (A : α → α' → Prop) (x : Lower α) (x' : Lower α') : Prop :=
  ∀ g g', P.Generators g g' → P.Results A (x g) (x' g')

variable {P}

section

variable {α α' β β' : Type} {A : α → α' → Prop} {B : β → β' → Prop}

theorem lowers_pure {a : α} {a' : α'} (h : A a a') :
    P.Lowers A (pure a : Lower α) (pure a' : Lower α') :=
  fun _ _ hg => .ok h hg

theorem lowers_throw {e e' : LoweringError} (h : P.Errors e e') :
    P.Lowers A (throw e : Lower α) (throw e' : Lower α') :=
  fun _ _ _ => .error h

theorem Lowers.bind {x : Lower α} {x' : Lower α'} {f : α → Lower β} {f' : α' → Lower β'}
    (hx : P.Lowers A x x') (hf : ∀ a a', A a a' → P.Lowers B (f a) (f' a')) :
    P.Lowers B (x >>= f) (x' >>= f') := by
  intro g g' hg
  have hbind : (x >>= f) g = EStateM.bind x f g := rfl
  have hbind' : (x' >>= f') g' = EStateM.bind x' f' g' := rfl
  have hresult := hx g g' hg
  rw [hbind, hbind', EStateM.bind, EStateM.bind]
  generalize x g = result at hresult
  generalize x' g' = result' at hresult
  cases hresult with
  | ok ha hg₁ => exact hf _ _ ha _ _ hg₁
  | error he => exact .error he

theorem lowers_newTemp : P.Lowers P.Temps Lower.newTemp Lower.newTemp := by
  intro g g' hg
  have hleft : Lower.freeNumber g.scheme.tempStem g.reserved g.reserved.length
      (g.names.lastTemp + 1) = P.left.lastTemp P.vars (g.names.temps + 1) := by
    rw [hg.left, hg.reservedLeft, hg.lastLeft]
    rfl
  have hright : Lower.freeNumber g'.scheme.tempStem g'.reserved g'.reserved.length
      (g'.names.lastTemp + 1) = P.right.lastTemp P.vars (g.names.temps + 1) := by
    rw [hg.right, hg.reservedRight, hg.lastRight]
    rfl
  refine .ok ?_ { hg with
    lastLeft := hleft, lastRight := hright, temps := congrArg (· + 1) hg.temps }
  rw [hleft, hright, hg.left, hg.right]
  exact .nth g.names.temps

theorem lowers_newLabel : P.Lowers P.Labels Lower.newLabel Lower.newLabel := by
  intro g g' hg
  refine .ok ?_ { hg with labels := congrArg (· + 1) hg.labels }
  rw [hg.left, hg.right, ← hg.labels]
  exact .nth (g.names.labels + 1)

theorem lowers_type : P.Lowers Eq Lower.type Lower.type := by
  intro g g' hg
  refine .ok ?_ hg
  rw [hg.left, hg.right]
  exact hg.type

theorem contains_eq {t t' : SymbolTable} (h : List.Forall₂ P.Symbols t.symbols t'.symbols)
    (x : Text) : t.contains x = t'.contains x := by
  unfold SymbolTable.contains SymbolTable.lookup
  rw [t.agree, t'.agree]
  generalize t.symbols = symbols at h
  generalize t'.symbols = symbols' at h
  induction h with
  | nil => rfl
  | cons hs _ ih =>
    rw [List.find?_cons, List.find?_cons, ← hs.name]
    split
    · rfl
    · exact ih

theorem lowers_declare {n n' : Name} (h : n.Alike P.places n') (hv : n.text ∈ P.vars) :
    P.Lowers Eq (Lower.declare n) (Lower.declare n') := by
  intro g g' hg
  have hcontains := contains_eq hg.symbols n.text
  have hsymbols : List.Forall₂ P.Symbols
      (g.names.symbols.declare n.text n.span.start).symbols
      (g'.names.symbols.declare n'.text n'.span.start).symbols := by
    rw [← h.text]
    by_cases hold : g.names.symbols.contains n.text
    · rw [SymbolTable.declare_of_contains hold, SymbolTable.declare_of_contains (hcontains ▸ hold)]
      exact hg.symbols
    · rw [SymbolTable.symbols_declare hold, SymbolTable.symbols_declare (hcontains ▸ hold)]
      exact List.rel_append hg.symbols (.cons ⟨rfl, hv, h.start⟩ .nil)
  refine .ok ?_ { hg with symbols := hsymbols }
  rw [← h.text, hcontains]

theorem lowers_innermost {pos pos' : Pos} (h : P.places pos pos') (cause : LoweringError.Cause) :
    P.Lowers P.Loops (Lower.innermost pos cause) (Lower.innermost pos' cause) := by
  intro g g' hg
  refine Lowers.bind (A := P.Generators) (fun _ _ hg => .ok hg hg) (fun g g' hg => ?_) g g' hg
  have hloops := hg.loops
  generalize g.loops = loops at hloops
  generalize g'.loops = loops' at hloops
  cases hloops with
  | nil => exact lowers_throw ⟨rfl, h⟩
  | cons hloop _ => exact lowers_pure hloop

theorem Lowers.inside {x : Lower α} {x' : Lower α'} {l l' : Loop} (hx : P.Lowers A x x')
    (hl : P.Loops l l') : P.Lowers A (Lower.inside l x) (Lower.inside l' x') := by
  have hpush : P.Lowers Eq
      (modify fun g => { g with loops := l :: g.loops } : Lower Unit)
      (modify fun g => { g with loops := l' :: g.loops } : Lower Unit) :=
    fun g g' hg => .ok rfl { hg with loops := .cons hl hg.loops }
  have hpop : P.Lowers Eq (modify fun g => { g with loops := g.loops.tail } : Lower Unit)
      (modify fun g => { g with loops := g.loops.tail } : Lower Unit) := by
    intro g g' hg
    have htail : List.Forall₂ P.Loops g.loops.tail g'.loops.tail := by
      have hloops := hg.loops
      generalize g.loops = loops at hloops ⊢
      generalize g'.loops = loops' at hloops ⊢
      cases hloops with
      | nil => exact .nil
      | cons _ hrest => exact hrest
    exact .ok rfl { hg with loops := htail }
  exact hpush.bind fun _ _ _ => hx.bind fun _ _ ha => hpop.bind fun _ _ _ => lowers_pure ha

theorem Lowers.ite {c : Prop} [Decidable c] {x y : Lower α} {x' y' : Lower α'}
    (hx : c → P.Lowers A x x') (hy : ¬ c → P.Lowers A y y') :
    P.Lowers A (if c then x else y) (if c then x' else y') := by
  by_cases h : c
  · rw [if_pos h, if_pos h]
    exact hx h
  · rw [if_neg h, if_neg h]
    exact hy h

end

variable (P) in
/-- Code that leaves the same value, and the operands that hold it. -/
def Computed (r r' : List Instr × Text) : Prop := P.Codes r.1 r'.1 ∧ P.Operands r.2 r'.2

theorem Temps.isEmpty_eq {t t' : Text} (h : P.Temps t t') : t.isEmpty = t'.isEmpty := by
  obtain ⟨k⟩ := h
  have hne (scheme : Scheme) (n : Nat) : (scheme.temp n).isEmpty = false := by
    simp [Scheme.temp, Text.ofNat]
  exact (hne _ _).trans (hne _ _).symm

theorem Operands.isEmpty_eq {x x' : Text} (h : P.Operands x x') : x.isEmpty = x'.isEmpty := by
  cases h with
  | name | literal => rfl
  | temp h => exact h.isEmpty_eq

theorem rhss_ofParts {op x x' y y' : Text} (hx : P.Operands x x') (hy : P.Operands y y') :
    P.Rhss (.ofParts op x y) (.ofParts op x' y') := by
  unfold Rhs.ofParts
  rw [← hy.isEmpty_eq]
  split
  · exact .binary hx hy
  · split
    · exact .unary hx
    · exact .copy hx

theorem rhss_ofParts_nil {op x x' : Text} (hx : P.Operands x x') :
    P.Rhss (.ofParts op x []) (.ofParts op x' []) := by
  unfold Rhs.ofParts
  simp only [List.isEmpty_nil, Bool.not_true, Bool.false_eq_true, if_false]
  split
  · exact .unary hx
  · exact .copy hx

theorem codes_single {i i' : Instr} (h : P.Actions i.action i'.action)
    (hpos : P.places i.pos i'.pos) : P.Codes [i] [i'] :=
  .cons ⟨h, hpos⟩ .nil

theorem lowers_expr {e e' : Expr} (h : e.Alike P.places e') (hwf : e.WellFormed)
    (hv : ∀ n ∈ e.names, n.text ∈ P.vars) :
    P.Lowers P.Computed (Lower.expr e) (Lower.expr e') := by
  induction h with
  | missing => exact hwf.elim
  | @number _ _ value raw =>
    obtain ⟨hne, hl⟩ := Operand.isLiteral_of_lexed hwf.1
    have htext : numberText value raw = raw := by
      simp [numberText, hne]
    refine lowers_pure ⟨.nil, .literal ?_⟩
    rw [htext]
    exact hl
  | @boolean _ _ value =>
    refine lowers_pure ⟨.nil, .literal ?_⟩
    cases value <;> decide
  | @name n n' hn =>
    have hmem : n.text ∈ P.vars := hv n (by simp [Expr.names])
    refine lowers_pure ⟨.nil, ?_⟩
    rw [← hn.text]
    exact .name hmem
  | binary hpos _ _ ihl ihr =>
    simp only [Expr.names, List.forall_mem_append] at hv
    refine (ihl hwf.2.1 hv.1).bind ?_
    rintro ⟨codeL, x⟩ ⟨codeL', x'⟩ ⟨hl, hx⟩
    refine (ihr hwf.2.2 hv.2).bind ?_
    rintro ⟨codeR, y⟩ ⟨codeR', y'⟩ ⟨hr, hy⟩
    refine lowers_newTemp.bind fun t t' ht => lowers_type.bind ?_
    rintro type _ rfl
    refine lowers_pure ⟨?_, .temp ht⟩
    exact List.rel_append (List.rel_append hl hr)
      (codes_single (.compute ht (rhss_ofParts hx hy)) hpos)
  | unary hpos _ ih =>
    refine (ih hwf.2 hv).bind ?_
    rintro ⟨code, x⟩ ⟨code', x'⟩ ⟨hc, hx⟩
    refine lowers_newTemp.bind fun t t' ht => lowers_type.bind ?_
    rintro type _ rfl
    refine lowers_pure ⟨?_, .temp ht⟩
    exact List.rel_append hc (codes_single (.compute ht (rhss_ofParts_nil hx)) hpos)

theorem lowers_bound {e e' : Expr} (h : e.Alike P.places e') (hwf : e.WellFormed)
    (hv : ∀ n ∈ e.names, n.text ∈ P.vars) :
    P.Lowers P.Computed (Lower.bound e) (Lower.bound e') := by
  have hsnapshot {x x' : Text} (hx : P.Operands x x') :
      P.Lowers P.Computed (Lower.snapshot e x) (Lower.snapshot e' x') := by
    unfold Lower.snapshot
    have hname := h.name?
    generalize e.name? = name at hname
    generalize e'.name? = name' at hname
    cases hname with
    | none => exact lowers_pure ⟨.nil, hx⟩
    | some hn =>
      refine lowers_newTemp.bind fun t t' ht => lowers_type.bind ?_
      rintro type _ rfl
      exact lowers_pure ⟨codes_single (.compute ht (.copy hx)) hn.start, .temp ht⟩
  refine (lowers_expr h hwf hv).bind ?_
  rintro ⟨code, x⟩ ⟨code', x'⟩ ⟨hc, hx⟩
  refine (hsnapshot hx).bind ?_
  rintro ⟨copy, y⟩ ⟨copy', y'⟩ ⟨hcopy, hy⟩
  exact lowers_pure ⟨List.rel_append hc hcopy, hy⟩

variable (P) in
/-- Code that leaves the same values, and the operands that hold them. -/
def AllComputed (r r' : List Instr × List Text) : Prop :=
  P.Codes r.1 r'.1 ∧ List.Forall₂ P.Operands r.2 r'.2

theorem lowers_conditions {bs bs' : List (Branch Stmt)} (h : Stmt.BranchesAlike P.places bs bs')
    (hwf : Stmt.WellFormedBranches bs) (hv : ∀ n ∈ Stmt.namesOfBranches bs, n.text ∈ P.vars) :
    P.Lowers P.AllComputed (Lower.conditions bs) (Lower.conditions bs') := by
  induction bs generalizing bs' with
  | nil =>
    cases h
    exact lowers_pure ⟨.nil, .nil⟩
  | cons b rest ih =>
    obtain ⟨cond, body⟩ := b
    cases h with
    | cons hc hb hrest =>
      simp only [Stmt.namesOfBranches, List.forall_mem_append] at hv
      refine (lowers_expr hc hwf.1 hv.1.1).bind ?_
      rintro ⟨code, x⟩ ⟨code', x'⟩ ⟨hcode, hx⟩
      refine (ih hrest hwf.2.2 hv.2).bind ?_
      rintro ⟨codes, xs⟩ ⟨codes', xs'⟩ ⟨hcodes, hxs⟩
      exact lowers_pure ⟨List.rel_append hcode hcodes, .cons hx hxs⟩

theorem exitTest_eq {e e' : Expr} (h : e.Alike P.places e') :
    Lower.exitTest e = Lower.exitTest e' := by
  unfold Lower.exitTest
  rw [h.const?_eq]

mutual

theorem lowers_stmt : ∀ {s s' : Stmt}, s.Alike P.places s' → s.WellFormed →
    (∀ n ∈ s.names, n.text ∈ P.vars) → P.Lowers P.Codes (Lower.stmt s) (Lower.stmt s')
  | _, _, .missing _, hwf, _ => hwf.elim
  | .assign span target op value, .assign span' target' _ value', .assign hpos ht he, hwf, hv => by
    simp only [Stmt.names, List.forall_mem_cons] at hv
    rw [Lower.stmt, Lower.stmt, ← ht.text]
    refine (lowers_expr he hwf.2.2 hv.2).bind ?_
    rintro ⟨code, x⟩ ⟨code', x'⟩ ⟨hc, hx⟩
    refine (lowers_declare ht hv.1).bind ?_
    rintro isNew _ rfl
    refine lowers_type.bind ?_
    rintro type _ rfl
    have hstore (declared : Option Text) : P.Instrs
        ⟨.store declared target.text op.symbol x, span.start⟩
        ⟨.store declared target.text op.symbol x', span'.start⟩ :=
      ⟨.store hv.1 hx, hpos⟩
    refine .ite (fun _ => ?_) fun _ => .ite (fun _ => ?_) fun _ => ?_
    · exact lowers_pure (List.rel_append hc (.cons (hstore _) .nil))
    · exact lowers_pure (List.rel_append hc
        (.cons ⟨.declare hv.1, hpos⟩ (.cons (hstore _) .nil)))
    · exact lowers_pure (List.rel_append hc (.cons (hstore _) .nil))
  | _, _, .eval he, hwf, hv => by
    rw [Lower.stmt, Lower.stmt]
    refine (lowers_expr he hwf hv).bind ?_
    rintro ⟨code, x⟩ ⟨code', x'⟩ ⟨hc, -⟩
    exact lowers_pure hc
  | .branch span bs otherwise, .branch span' bs' otherwise', .branch hpos hb ho, hwf, hv => by
    simp only [Stmt.names, List.forall_mem_append] at hv
    have hne : bs.isEmpty = bs'.isEmpty := by cases hb <;> rfl
    rw [Lower.stmt, Lower.stmt, ← hne]
    refine .ite (fun _ => lowers_throw ⟨rfl, hpos⟩) fun _ => ?_
    refine (lowers_conditions hb hwf.2.1 hv.1).bind ?_
    rintro ⟨code, xs⟩ ⟨code', xs'⟩ ⟨hc, hxs⟩
    refine lowers_newLabel.bind fun stop stop' hstop => ?_
    refine (lowers_chain hstop hxs hb hwf.2.1 hv.1).bind fun clauses clauses' hclauses => ?_
    refine (lowers_body ho hwf.2.2 hv.2).bind fun last last' hlast => lowers_pure ?_
    exact List.rel_append (List.rel_append (List.rel_append hc hclauses) hlast)
      (codes_single (.label hstop) hpos)
  | .whileLoop span cond block, .whileLoop span' cond' block', .whileLoop hpos hc hb, hwf, hv => by
    simp only [Stmt.names, List.forall_mem_append] at hv
    rw [Lower.stmt, Lower.stmt]
    refine lowers_newLabel.bind fun start start' hstart => ?_
    refine lowers_newLabel.bind fun stop stop' hstop => ?_
    refine (lowers_expr hc hwf.1 hv.1).bind ?_
    rintro ⟨code, x⟩ ⟨code', x'⟩ ⟨hcode, hx⟩
    refine ((lowers_body hb hwf.2.2 hv.2).inside ⟨hstop, hstart⟩).bind
      fun inner inner' hinner => lowers_pure ?_
    refine List.rel_append
      (List.rel_append (List.rel_append (List.rel_append ?_ hcode) ?_) hinner) ?_
    · exact codes_single (.label hstart) hpos
    · exact codes_single (.jumpUnless hx hstop) hc.start
    · exact .cons ⟨.jump hstart, hpos⟩ (codes_single (.label hstop) hpos)
  | .forLoop span var range block, .forLoop span' var' range' block', .forLoop hpos hvar hr hb,
    hwf, hv => by
    simp only [Stmt.names, List.forall_mem_append, List.forall_mem_cons] at hv
    obtain ⟨⟨⟨⟨hmem, hvStart⟩, hvStop⟩, hvStep⟩, hvBody⟩ := hv
    obtain ⟨-, ⟨hwfStart, hwfStop, hwfStep⟩, -, hwfBody⟩ := hwf
    rw [Lower.stmt, Lower.stmt, ← hvar.text, ← exitTest_eq hr.step]
    refine (lowers_expr hr.start hwfStart hvStart).bind ?_
    rintro ⟨codeStart, first⟩ ⟨codeStart', first'⟩ ⟨hcodeStart, hfirst⟩
    refine (lowers_bound hr.stop hwfStop hvStop).bind ?_
    rintro ⟨codeStop, last⟩ ⟨codeStop', last'⟩ ⟨hcodeStop, hlast⟩
    refine (lowers_bound hr.step hwfStep hvStep).bind ?_
    rintro ⟨codeStep, step⟩ ⟨codeStep', step'⟩ ⟨hcodeStep, hstep⟩
    refine (lowers_declare hvar hmem).bind ?_
    rintro isNew _ rfl
    refine lowers_type.bind ?_
    rintro type _ rfl
    refine lowers_newLabel.bind fun again again' hagain => ?_
    refine lowers_newLabel.bind fun next next' hnext => ?_
    refine lowers_newLabel.bind fun stop stop' hstop => ?_
    refine ((lowers_body hb hwfBody hvBody).inside ⟨hstop, hnext⟩).bind
      fun inner inner' hinner => lowers_pure ?_
    refine List.rel_append (List.rel_append (List.rel_append
      (List.rel_append (List.rel_append hcodeStart hcodeStop) hcodeStep) ?_) hinner) ?_
    · exact .cons ⟨.store hmem hfirst, hpos⟩ (.cons ⟨.label hagain, hpos⟩
        (codes_single (.jumpIf (.name hmem) hlast hstop) hpos))
    · exact .cons ⟨.label hnext, hpos⟩ (.cons ⟨.store hmem hstep, hpos⟩
        (.cons ⟨.jump hagain, hpos⟩ (codes_single (.label hstop) hpos)))
  | _, _, .breakLoop hpos, _, _ => by
    rw [Lower.stmt, Lower.stmt]
    refine (lowers_innermost hpos _).bind fun loop loop' hloop => lowers_pure ?_
    exact codes_single (.jump hloop.breakTo) hpos
  | _, _, .continueLoop hpos, _, _ => by
    rw [Lower.stmt, Lower.stmt]
    refine (lowers_innermost hpos _).bind fun loop loop' hloop => lowers_pure ?_
    exact codes_single (.jump hloop.continueTo) hpos

theorem lowers_body : ∀ {b b' : Option (Block Stmt)}, Stmt.BodyAlike P.places b b' →
    Stmt.WellFormedBody b → (∀ n ∈ Stmt.namesOfBody b, n.text ∈ P.vars) →
    P.Lowers P.Codes (Lower.body b) (Lower.body b')
  | _, _, .none, _, _ => by
    rw [Lower.body]
    exact lowers_pure .nil
  | _, _, .some h, hwf, hv => by
    rw [Lower.body, Lower.body]
    exact lowers_list h hwf hv

theorem lowers_list : ∀ {ss ss' : List Stmt}, Stmt.ListAlike P.places ss ss' →
    Stmt.WellFormedList ss → (∀ n ∈ Stmt.namesOfList ss, n.text ∈ P.vars) →
    P.Lowers P.Codes (Lower.list ss) (Lower.list ss')
  | _, _, .nil, _, _ => by
    rw [Lower.list]
    exact lowers_pure .nil
  | _, _, .cons h hs, hwf, hv => by
    simp only [Stmt.namesOfList, List.forall_mem_append] at hv
    rw [Lower.list, Lower.list]
    refine (lowers_stmt h hwf.1 hv.1).bind fun code code' hcode => ?_
    refine (lowers_list hs hwf.2 hv.2).bind fun codes codes' hcodes => lowers_pure ?_
    exact List.rel_append hcode hcodes

theorem lowers_chain {stop stop' : Text} (hstop : P.Labels stop stop') :
    ∀ {xs xs' : List Text} {bs bs' : List (Branch Stmt)}, List.Forall₂ P.Operands xs xs' →
    Stmt.BranchesAlike P.places bs bs' → Stmt.WellFormedBranches bs →
    (∀ n ∈ Stmt.namesOfBranches bs, n.text ∈ P.vars) →
    P.Lowers P.Codes (Lower.chain stop xs bs) (Lower.chain stop' xs' bs')
  | _, _, _, _, .cons hx hxs, .cons hc hb hrest, hwf, hv => by
    simp only [Stmt.namesOfBranches, List.forall_mem_append] at hv
    rw [Lower.chain, Lower.chain]
    refine lowers_newLabel.bind fun next next' hnext => ?_
    refine (lowers_body hb hwf.2.1.2 hv.1.2).bind fun inner inner' hinner => ?_
    refine (lowers_chain hstop hxs hrest hwf.2.2 hv.2).bind
      fun clauses clauses' hclauses => lowers_pure ?_
    refine List.rel_append (List.rel_append (List.rel_append ?_ hinner) ?_) hclauses
    · exact codes_single (.jumpUnless hx hnext) hc.start
    · exact .cons ⟨.jump hstop, hc.start⟩ (codes_single (.label hnext) hc.start)
  | _, _, _, _, .nil, _, _, _ => by
    rw [Lower.chain, Lower.chain]
    · exact lowers_pure .nil
    all_goals simp
  | _, _, _, _, _, .nil, _, _ => by
    rw [Lower.chain, Lower.chain]
    · exact lowers_pure .nil
    all_goals simp

end

variable (P) in
/-- Lowered programs that do the same to the same variables. -/
structure Listings (l l' : Listing) : Prop where
  code : P.Codes l.code l'.code
  type : l.type = l'.type
  symbols : List.Forall₂ P.Symbols l.symbols l'.symbols

/-- The lowerings of a program and of one with the same names, where `R` pairs their places. -/
def ofProgram (R : Pos → Pos → Prop) (scheme scheme' : Scheme) (p : Program) : Pairing :=
  ⟨R, scheme.filled, scheme'.filled, p.names.map (·.text)⟩

variable {R : Pos → Pos → Prop} {scheme scheme' : Scheme} {p p' : Program}

/-- New generators are in step. -/
theorem generators_reserve (h : p.Alike R p') (htype : scheme.filled.type = scheme'.filled.type) :
    (ofProgram R scheme scheme' p).Generators ((Generator.new scheme).reset.reserve p)
      ((Generator.new scheme').reset.reserve p') where
  left := rfl
  right := rfl
  type := htype
  reservedLeft := rfl
  reservedRight := congrArg scheme'.filled.reserved h.names_eq.symm
  lastLeft := rfl
  lastRight := rfl
  temps := rfl
  labels := rfl
  symbols := .nil
  loops := .nil

end Pairing

/-- Alike programs are lowered to code that does the same, or both lowerings fail for the same
reason. -/
theorem Program.lower_alike {R : Pos → Pos → Prop} {p p' : Program} {scheme scheme' : Scheme}
    (h : p.Alike R p') (hwf : Stmt.WellFormedList p.stmts)
    (htype : scheme.filled.type = scheme'.filled.type) :
    Both (Pairing.ofProgram R scheme scheme' p).Errors
      (Pairing.ofProgram R scheme scheme' p).Listings (p.lower scheme) (p'.lower scheme') := by
  have hlowers : (Pairing.ofProgram R scheme scheme' p).Lowers
      (Pairing.ofProgram R scheme scheme' p).Codes (Lower.list p.stmts) (Lower.list p'.stmts) :=
    Pairing.lowers_list h hwf fun n hn => List.mem_map_of_mem hn
  have hresult := hlowers _ _ (Pairing.generators_reserve h htype)
  unfold Program.lower Generator.generate EStateM.run
  generalize Lower.list p.stmts _ = result at hresult ⊢
  generalize Lower.list p'.stmts _ = result' at hresult ⊢
  cases hresult with
  | error he => exact .error he
  | @ok code code' g g' hcode hg =>
    have htypes : g.scheme.type = g'.scheme.type := by
      rw [hg.left, hg.right]
      exact htype
    exact .ok ⟨hcode, htypes, hg.symbols⟩

end ThreeAddress
