import ThreeAddress.Proofs.BodyCode
import ThreeAddress.Proofs.DefiniteAssignment
import ThreeAddress.Proofs.SourceOrder

/-! The order of declarations. A variable is declared by the first statement that assigns it, once
and before anything else is stored into it; the table of symbols lists the variables in that order,
and so does the one that warnings are found with. -/
namespace ThreeAddress

namespace SymbolTable

/-- Declares names one after the other, each where it stands. -/
def declareAll (t : SymbolTable) (ns : List Name) : SymbolTable :=
  ns.foldl (fun t n => t.declare n.text n.span.start) t

variable {t : SymbolTable} {ns : List Name} {n : Name}

@[simp] theorem declareAll_nil : t.declareAll [] = t := rfl

@[simp] theorem declareAll_cons :
    t.declareAll (n :: ns) = (t.declare n.text n.span.start).declareAll ns := rfl

theorem declareAll_append (ms : List Name) :
    t.declareAll (ns ++ ms) = (t.declareAll ns).declareAll ms := List.foldl_append

theorem contains_declareAll {x : Text} :
    (t.declareAll ns).contains x ↔ t.contains x ∨ ∃ n ∈ ns, n.text = x := by
  induction ns generalizing t with
  | nil => simp
  | cons n ns ih =>
    rw [declareAll_cons, ih, contains_declare, or_assoc]
    simp only [List.mem_cons, exists_eq_or_imp, eq_comm (a := x)]

theorem declareAll_of_contains (h : ∀ n ∈ ns, t.contains n.text) : t.declareAll ns = t := by
  induction ns with
  | nil => rfl
  | cons n ns ih =>
    obtain ⟨hn, hns⟩ := List.forall_mem_cons.1 h
    rw [declareAll_cons, declare_of_contains hn, ih hns]

/-- The table holds the names `ns`, each where it first stands. -/
def Lists (t : SymbolTable) (ns : List Name) : Prop :=
  Represents t (ns.map fun n => (n.text, n.span.start))

theorem lists_empty : Lists .empty [] := .empty

namespace Lists

theorem numbered (h : Lists t ns) (i : Nat) (s : Symbol) (hs : t.symbols[i]? = some s) :
    s.index = i :=
  (h.entry i s hs).1

theorem nodup (h : Lists t ns) : t.names.Nodup := Represents.nodup h

theorem first (h : Lists t ns) (s : Symbol) (hs : s ∈ t.symbols) :
    ∃ n, ns.find? (·.text == s.name) = some n ∧ s.pos = n.span.start := by
  obtain ⟨i, hi⟩ := List.getElem?_of_mem hs
  obtain ⟨-, -, hfirst⟩ := h.entry i s hi
  rw [List.find?_map] at hfirst
  obtain ⟨n, hn, heq⟩ := Option.map_eq_some_iff.1 hfirst
  exact ⟨n, hn, (Prod.mk.inj heq).2.symm⟩

theorem declareAll (h : Lists t ns) (ms : List Name) : Lists (t.declareAll ms) (ns ++ ms) := by
  induction ms generalizing t ns with
  | nil => simpa using h
  | cons m ms ih =>
    have hm : Lists (t.declare m.text m.span.start) (ns ++ [m]) := by
      rw [Lists, List.map_append]
      exact Represents.declare h m.text m.span.start
    simpa using ih hm

end Lists

end SymbolTable

namespace Stmt

/-- The variable that a statement itself assigns. -/
def target? : Stmt → Option Name
  | .assign _ target _ _ => some target
  | .forLoop _ var _ _ => some var
  | _ => none

theorem declares?_eq (s : Stmt) : s.declares? = s.target?.map (·.text) := by
  cases s <;> rfl

/-- The variables that statements assign, in order. -/
def targets (ss : List Stmt) : List Name := ss.flatMap (·.target?.toList)

theorem mem_targets {ss : List Stmt} {x : Text} :
    (∃ n ∈ targets ss, n.text = x) ↔ ∃ st ∈ ss, st.declares? = some x := by
  simp only [targets, List.mem_flatMap, Option.mem_toList, declares?_eq, Option.map_eq_some_iff]
  constructor
  · rintro ⟨n, ⟨st, hst, hn⟩, hx⟩
    exact ⟨st, hst, n, hn, hx⟩
  · rintro ⟨st, hst, n, hn, hx⟩
    exact ⟨n, ⟨st, hst, hn⟩, hx⟩

/-- The first assignment of a variable has its first target. -/
theorem find?_targets (ss : List Stmt) (x : Text) :
    (targets ss).find? (·.text == x) = (ss.find? (·.declares? == some x)).bind target? := by
  induction ss with
  | nil => rfl
  | cons s rest ih =>
    have hcons : targets (s :: rest) = s.target?.toList ++ targets rest := rfl
    rw [hcons, List.find?_append, ih]
    cases hs : s.target? with
    | none =>
      have hnot : (s.declares? == some x) = false := by simp [declares?_eq, hs]
      simp [hnot]
    | some n =>
      have hdeclares : (s.declares? == some x) = (n.text == x) := by simp [declares?_eq, hs]
      by_cases hn : n.text = x <;> simp [hdeclares, hn, hs]

end Stmt

/-- The statements of a task in the order of the source. -/
def Task.inOrder : Task → List Stmt
  | .stmt s => s.inOrder
  | .list ss => Stmt.inOrderOfList ss
  | .chain _ _ bs => Stmt.inOrderOfBranches bs

namespace Task

theorem inOrder_branch (span : Span) (bs : List (Branch Stmt)) (otherwise : Option (Block Stmt))
    (stop : Text) (xs : List Text) : (Task.stmt (.branch span bs otherwise)).inOrder =
      [.branch span bs otherwise] ++ (Task.chain stop xs bs).inOrder ++
        (Task.list (Stmt.ofBody otherwise)).inOrder := by
  rw [inOrder, Stmt.inOrder, Stmt.inOrderOfBody_eq]
  rfl

theorem inOrder_chain_cons (stop x : Text) (xs : List Text) (cond : Expr)
    (body : Option (Block Stmt)) (rest : List (Branch Stmt)) :
    (Task.chain stop (x :: xs) (⟨cond, body⟩ :: rest)).inOrder =
      (Task.list (Stmt.ofBody body)).inOrder ++ (Task.chain stop xs rest).inOrder := by
  simp only [inOrder, Stmt.inOrderOfBranches, Stmt.inOrderOfBody_eq]

theorem inOrder_whileLoop (span : Span) (cond : Expr) (body : Option (Block Stmt)) :
    (Task.stmt (.whileLoop span cond body)).inOrder =
      [.whileLoop span cond body] ++ (Task.list (Stmt.ofBody body)).inOrder := by
  rw [inOrder, Stmt.inOrder, Stmt.inOrderOfBody_eq]
  rfl

theorem inOrder_forLoop (span : Span) (var : Name) (range : Range) (body : Option (Block Stmt)) :
    (Task.stmt (.forLoop span var range body)).inOrder =
      [.forLoop span var range body] ++ (Task.list (Stmt.ofBody body)).inOrder := by
  rw [inOrder, Stmt.inOrder, Stmt.inOrderOfBody_eq]
  rfl

end Task

/-- The variable that is stored into without being declared. -/
def Action.updates : Action → List Text
  | .store none dest _ _ => [dest]
  | _ => []

namespace Instr

/-- The variables that code declares, in order. -/
def variablesOf (code : List Instr) : List Text := code.flatMap (·.action.introduces?.toList)

@[simp] theorem variablesOf_nil : variablesOf [] = [] := rfl

@[simp] theorem variablesOf_cons (i : Instr) (code : List Instr) :
    variablesOf (i :: code) = i.action.introduces?.toList ++ variablesOf code := rfl

@[simp] theorem variablesOf_append (a b : List Instr) :
    variablesOf (a ++ b) = variablesOf a ++ variablesOf b := List.flatMap_append

theorem variablesOf_eq_nil {code : List Instr} (h : ∀ i ∈ code, i.action.introduces? = none) :
    variablesOf code = [] :=
  List.flatMap_eq_nil_iff.2 fun i hi => by rw [h i hi, Option.toList_none]

theorem count_variablesOf (code : List Instr) (x : Text) :
    (variablesOf code).count x = code.countP (·.action.introduces? == some x) := by
  induction code with
  | nil => rfl
  | cons i rest ih =>
    rw [variablesOf_cons, List.count_append, ih, List.countP_cons, Nat.add_comm]
    cases hi : i.action.introduces? with
    | none => simp
    | some y => by_cases hy : y = x <;> simp [hy]

theorem mem_variablesOf {code : List Instr} {i : Instr} {x : Text} (hi : i ∈ code)
    (hx : i.action.introduces? = some x) : x ∈ variablesOf code :=
  List.mem_flatMap.2 ⟨i, hi, by simp [hx]⟩

/-- No two instructions declare one variable. -/
theorem unique_of_nodup {code : List Instr} (h : (variablesOf code).Nodup) {j n : Nat} {b i : Instr}
    {x : Text} (hlt : j < n) (hb : code[j]? = some b) (hi : code[n]? = some i)
    (hbx : b.action.introduces? = some x) : i.action.introduces? ≠ some x := by
  intro hix
  rw [← List.take_append_drop n code, variablesOf_append, List.nodup_append] at h
  have hbefore : b ∈ code.take n :=
    List.mem_of_getElem? (by rw [List.getElem?_take_of_lt hlt, hb])
  have hbehind : i ∈ code.drop n :=
    List.mem_of_getElem? (by rw [List.getElem?_drop, Nat.add_zero, hi])
  exact h.2.2 x (mem_variablesOf hbefore hbx) x (mem_variablesOf hbehind hix) rfl

/-- The instruction `i`, which has the number `n`, declares `x` on behalf of the statement `st`. If
it gives no value, the statement is a compound assignment and is carried out next. -/
def DeclaresFor (st : Stmt) (code : List Instr) (n : Nat) (i : Instr) (x : Text) : Prop :=
  i.pos = st.start ∧ ∀ type, i.action = .declare type x → ∃ span target op value y,
    st = .assign span target op value ∧ op.isCompound ∧
      code[n + 1]? = some ⟨.store none x op.symbol y, st.start⟩

end Instr

open Instr

/-- What the code of the statements `ss` does to a table of symbols. -/
structure Declares (t : SymbolTable) (ss : List Stmt) (code : List Instr) (t' : SymbolTable) :
    Prop where
  table : t' = t.declareAll (Stmt.targets ss)
  /-- Symbols are added in the order of the instructions that declare them. -/
  listed : t'.names = t.names ++ variablesOf code
  /-- Whatever is stored into was declared before. -/
  stored : DeclaredFirst (·.action.updates) (·.action.introduces?.toList) t.names code
  /-- What is declared is new, and is declared for the first statement that assigns it. -/
  explained : ∀ (n : Nat) (i : Instr) (x : Text), code[n]? = some i →
    i.action.introduces? = some x → ¬ t.contains x ∧
      ∃ st, ss.find? (·.declares? == some x) = some st ∧ i.DeclaresFor st code n x

namespace Declares

variable {t t₁ t₂ : SymbolTable} {ss rs : List Stmt} {code codes : List Instr}

theorem contains_iff (h : Declares t ss code t₁) {x : Text} :
    t₁.contains x ↔ t.contains x ∨ ∃ st ∈ ss, st.declares? = some x := by
  rw [h.table, SymbolTable.contains_declareAll, Stmt.mem_targets]

theorem append (h : Declares t ss code t₁) (h' : Declares t₁ rs codes t₂) :
    Declares t (ss ++ rs) (code ++ codes) t₂ := by
  refine ⟨?_, ?_, ?_, ?_⟩
  · rw [h'.table, h.table, Stmt.targets, Stmt.targets, Stmt.targets, List.flatMap_append,
      SymbolTable.declareAll_append]
  · rw [h'.listed, h.listed, variablesOf_append, List.append_assoc]
  · refine DeclaredFirst.append_iff.2 ⟨h.stored, ?_⟩
    exact h.listed ▸ h'.stored
  · intro n i x hi hx
    by_cases hn : n < code.length
    · rw [List.getElem?_append_left hn] at hi
      obtain ⟨hnew, st, hst, hpos, hdecl⟩ := h.explained n i x hi hx
      refine ⟨hnew, st, by rw [List.find?_append, hst, Option.some_or], hpos, ?_⟩
      intro type hact
      obtain ⟨span, target, op, value, y, heq, hop, hnext⟩ := hdecl type hact
      refine ⟨span, target, op, value, y, heq, hop, ?_⟩
      have hlt : n + 1 < code.length := (List.getElem?_eq_some_iff.1 hnext).1
      rw [List.getElem?_append_left hlt, hnext]
    · rw [List.getElem?_append_right (by omega)] at hi
      obtain ⟨hnew, st, hst, hpos, hdecl⟩ := h'.explained _ i x hi hx
      rw [h.contains_iff, not_or, not_exists] at hnew
      have hnone : ss.find? (·.declares? == some x) = none := by
        rw [List.find?_eq_none]
        intro r hr hrx
        exact hnew.2 r ⟨hr, eq_of_beq hrx⟩
      refine ⟨hnew.1, st, by rw [List.find?_append, hnone, Option.none_or, hst], hpos, ?_⟩
      intro type hact
      obtain ⟨span, target, op, value, y, heq, hop, hnext⟩ := hdecl type hact
      refine ⟨span, target, op, value, y, heq, hop, ?_⟩
      rw [List.getElem?_append_right (by omega), ← hnext]
      congr 1
      omega

/-- Code that declares nothing and stores only into what is known, of statements that assign only
what is known. -/
theorem of_known (hcode : ∀ i ∈ code, i.action.introduces? = none ∧
    ∀ x ∈ i.action.updates, t.contains x) (hss : ∀ n ∈ Stmt.targets ss, t.contains n.text) :
    Declares t ss code t := by
  have hvariables : variablesOf code = [] := variablesOf_eq_nil fun i hi => (hcode i hi).1
  refine ⟨(SymbolTable.declareAll_of_contains hss).symm, ?_, ?_, ?_⟩
  · rw [hvariables, List.append_nil]
  · clear hvariables
    induction code with
    | nil => trivial
    | cons i rest ih =>
      obtain ⟨hi, hrest⟩ := List.forall_mem_cons.1 hcode
      refine ⟨fun x hx => SymbolTable.contains_iff_mem_names.1 (hi.2 x hx), ?_⟩
      simpa [hi.1] using ih hrest
  · intro n i x hi hx
    rw [(hcode i (List.mem_of_getElem? hi)).1] at hx
    cases hx

/-- Code that computes and jumps. -/
theorem of_none (hcode : ∀ i ∈ code, i.action.introduces? = none ∧ i.action.updates = [])
    (hss : Stmt.targets ss = []) : Declares t ss code t :=
  of_known (fun i hi => ⟨(hcode i hi).1, by simp [(hcode i hi).2]⟩) (by simp [hss])

theorem of_temps (hcode : ∀ i ∈ code, i.action.writes? = i.action.temp?)
    (hss : Stmt.targets ss = []) : Declares t ss code t := by
  refine of_none (fun i hi => ?_) hss
  have hi := hcode i hi
  cases hact : i.action <;>
    simp_all [Action.writes?, Action.temp?, Action.introduces?, Action.updates]

/-- Code in front that computes and jumps makes no difference. -/
theorem after_none (h : Declares t ss code t₁)
    (hcodes : ∀ i ∈ codes, i.action.introduces? = none ∧ i.action.updates = []) :
    Declares t ss (codes ++ code) t₁ := by
  have hfirst : Declares t [] codes t := of_none hcodes rfl
  exact hfirst.append h

/-- Neither does code behind that declares nothing. -/
theorem before_known (h : Declares t ss code t₁) (hcodes : ∀ i ∈ codes,
    i.action.introduces? = none ∧ ∀ x ∈ i.action.updates, t₁.contains x) :
    Declares t ss (code ++ codes) t₁ := by
  have hlast : Declares t₁ [] codes t₁ := of_known hcodes (by simp [Stmt.targets])
  simpa using h.append hlast

/-- The first assignment of a variable. -/
theorem introduce {st : Stmt} {target : Name} {i : Instr} {rest : List Instr}
    (hst : st.target? = some target) (hnew : ¬ t.contains target.text)
    (hi : i.action.introduces? = some target.text) (hupdates : i.action.updates = [])
    (hrest : ∀ j ∈ rest, j.action.introduces? = none ∧ ∀ x ∈ j.action.updates, x = target.text)
    (hfor : i.DeclaresFor st (i :: rest) 0 target.text) :
    Declares t [st] (i :: rest) (t.declare target.text target.span.start) := by
  have hknown : (t.declare target.text target.span.start).contains target.text :=
    (SymbolTable.contains_declare _ _ _ _).2 (Or.inr rfl)
  have hlater : Declares (t.declare target.text target.span.start) [] rest
      (t.declare target.text target.span.start) := by
    refine of_known (fun j hj => ⟨(hrest j hj).1, fun x hx => ?_⟩) (by simp [Stmt.targets])
    rw [(hrest j hj).2 x hx]
    exact hknown
  have hnames := SymbolTable.names_declare_of_new hnew target.span.start
  refine ⟨by simp [Stmt.targets, hst], ?_, ⟨by simp [hupdates], ?_⟩, ?_⟩
  · rw [hnames, variablesOf_cons, variablesOf_eq_nil fun j hj => (hrest j hj).1, hi]
    rfl
  · show DeclaredFirst _ _ (t.names ++ i.action.introduces?.toList) rest
    rw [hi]
    exact hnames ▸ hlater.stored
  · intro n j x hj hx
    cases n with
    | zero =>
      obtain rfl : i = j := by simpa using hj
      obtain rfl : target.text = x := Option.some.inj (hi.symm.trans hx)
      exact ⟨hnew, st, by simp [Stmt.declares?_eq, hst], hfor⟩
    | succ n =>
      rw [(hrest j (List.mem_of_getElem? (by simpa using hj))).1] at hx
      cases hx

/-- An assignment declares its target if that is new. -/
theorem assign {scheme : Scheme} {span : Span} {target : Name} {op : Kind} {value : Expr} {x : Text}
    (hop : op.isAssign)
    (h : StoreCode scheme (!t.contains target.text) target.text op x span.start code) :
    Declares t [.assign span target op value] code (t.declare target.text target.span.start) := by
  cases h with
  | first hnew _ =>
    refine introduce rfl (by simpa using hnew) rfl rfl (by simp) ⟨rfl, ?_⟩
    intro type hact
    cases hact
  | declared hnew hne =>
    refine introduce rfl (by simpa using hnew) rfl rfl ?_ ⟨rfl, fun _ _ => ?_⟩
    · exact List.forall_mem_singleton.2 ⟨rfl, fun y hy => List.mem_singleton.1 hy⟩
    · exact ⟨span, target, op, value, x, rfl, by simp [Kind.isCompound, hop, hne], rfl⟩
  | plain hold =>
    have hold : t.contains target.text := by simpa using hold
    rw [SymbolTable.declare_of_contains hold]
    exact of_known (by simpa [Action.introduces?, Action.updates] using hold)
      (by simpa [Stmt.targets, Stmt.target?] using hold)

/-- A loop declares its variable if that is new. -/
theorem counter {scheme : Scheme} {span : Span} {var : Name} {range : Range}
    {body : Option (Block Stmt)} {type : Option Text} {x : Text}
    (htype : type = if t.contains var.text then none else some scheme.type) :
    Declares t [.forLoop span var range body] [⟨.store type var.text "=" x, span.start⟩]
      (t.declare var.text var.span.start) := by
  by_cases hold : t.contains var.text
  · rw [SymbolTable.declare_of_contains hold, htype, if_pos hold]
    exact of_known (by simpa [Action.introduces?, Action.updates] using hold)
      (by simpa [Stmt.targets, Stmt.target?] using hold)
  · rw [htype, if_neg hold]
    refine introduce rfl hold rfl rfl (by simp) ⟨rfl, ?_⟩
    intro type hact
    cases hact

end Declares

namespace Lowered

variable {scheme : Scheme} {reserved : List Text} {loop : Option Loop} {task : Task}
  {names names' : Names} {code : List Instr}

/-- The code of a task declares what its statements assign. -/
theorem declares (h : Lowered scheme reserved loop task names code names')
    (hwf : task.WellFormed) : Declares names.symbols task.inOrder code names'.symbols := by
  induction h with
  | nil | chainNil => exact .of_none (by simp) rfl
  | breakLoop | continueLoop => exact .of_none (by simp [Action.introduces?, Action.updates]) rfl
  | cons _ _ ih ih' => exact (ih hwf.1).append (ih' hwf.2)
  | @assign _ span target op value n n₁ code stores x he hs =>
    have hvalue : Declares n.symbols [] code n₁.symbols :=
      he.symbols_eq ▸ .of_temps he.writes_eq rfl
    exact hvalue.append (.assign hwf.2.1 hs)
  | @eval _ span e n n₁ code x he => exact he.symbols_eq ▸ .of_temps he.writes_eq rfl
  | @branch _ span bs otherwise n n₁ _ _ code clauses last xs _ hc _ _ ih ih' =>
    have hconds : Declares n.symbols [.branch span bs otherwise] code n₁.symbols :=
      hc.symbols_eq ▸ .of_temps hc.writes_eq rfl
    rw [Task.inOrder_branch span bs otherwise (scheme.label (n₁.labels + 1)) xs]
    refine .before_known ?_ (by simp [Action.introduces?, Action.updates])
    exact (hconds.append (ih hwf.2.1)).append (ih' ((Stmt.wellFormedBody_iff _).1 hwf.2.2))
  | @chainCons _ stop x xs cond body rest n n₁ _ inner clauses _ _ ih ih' =>
    have hinner := ih ((Stmt.wellFormedBody_iff _).1 hwf.2.1.2)
    rw [Task.inOrder_chain_cons]
    refine .append (.before_known (.after_none hinner ?_) ?_) (ih' hwf.2.2) <;>
      simp [Action.introduces?, Action.updates]
  | @whileLoop _ span cond body n n₁ _ code inner x he _ ih =>
    have hcond : Declares n.symbols [.whileLoop span cond body] code n₁.symbols :=
      he.symbols_eq ▸ .of_temps he.writes_eq rfl
    have hinner := ih ((Stmt.wellFormedBody_iff _).1 hwf.2.2)
    rw [Task.inOrder_whileLoop]
    refine .before_known (.append (.before_known (.after_none hcond ?_) ?_) hinner) ?_ <;>
      simp [Action.introduces?, Action.updates]
  | @forLoop _ span var range body n n₁ n₂ n₃ named n₄ code₁ code₂ code₃ inner first last step type
      h₁ h₂ h₃ hn ht hb ih =>
    have hbounds : Declares n.symbols [] (code₁ ++ code₂ ++ code₃) n₃.symbols := by
      rw [h₃.symbols_eq, h₂.symbols_eq, h₁.symbols_eq]
      refine .of_temps (List.forall_mem_append.2 ⟨List.forall_mem_append.2 ⟨?_, ?_⟩, ?_⟩) rfl
      · exact h₁.writes_eq
      · exact h₂.writes_eq
      · exact h₃.writes_eq
    have hentry : Declares n₃.symbols [.forLoop span var range body]
        [⟨.store type var.text "=" first, span.start⟩,
          ⟨.label (scheme.label (named.labels + 1)), span.start⟩,
          ⟨.jumpIf var.text (Lower.exitTest range.step) last (scheme.label (named.labels + 3)),
            span.start⟩] named.symbols := by
      rw [hn]
      refine (Declares.counter ht).before_known ?_
      simp [Action.introduces?, Action.updates]
    have hinner := ih ((Stmt.wellFormedBody_iff _).1 hwf.2.2.2)
    have hvar : n₄.symbols.contains var.text := by
      refine hinner.contains_iff.2 (Or.inl ?_)
      rw [hn]
      exact (SymbolTable.contains_declare _ _ _ _).2 (Or.inr rfl)
    rw [Task.inOrder_forLoop]
    refine ((hbounds.append hentry).append hinner).before_known ?_
    simp [Action.introduces?, Action.updates, hvar]

end Lowered

/-- Nothing but a temporary is written before what is declared. -/
theorem Declares.temp_of_writes {ss : List Stmt} {code : List Instr} {t : SymbolTable}
    (h : Declares .empty ss code t) (hnodup : t.names.Nodup) {j n : Nat} {b i : Instr} {x : Text}
    (hi : code[n]? = some i) (hx : i.action.introduces? = some x) (hlt : j < n)
    (hb : code[j]? = some b) (hwrites : b.action.writes? = some x) : b.action.temp? = some x := by
  rw [h.listed] at hnodup
  have hfirst : ∀ {k : Nat} {d : Instr}, k < n → code[k]? = some d →
      d.action.introduces? ≠ some x := fun hk hd hdx => unique_of_nodup hnodup hk hd hi hdx hx
  cases hact : b.action with
  | compute type dest rhs => simpa [hact, Action.writes?, Action.temp?] using hwrites
  | declare type name =>
    refine absurd ?_ (hfirst hlt hb)
    simpa [hact, Action.writes?, Action.introduces?] using hwrites
  | store type dest op y =>
    obtain rfl : dest = x := by simpa [hact, Action.writes?] using hwrites
    cases type with
    | some type => exact absurd (by simp [hact, Action.introduces?]) (hfirst hlt hb)
    | none =>
      rcases h.stored.earlier hb (x := dest) (by simp [hact, Action.updates]) with
        hknown | ⟨k, d, hk, hd, hdx⟩
      · cases hknown
      · exact absurd (by simpa using hdx) (hfirst (by omega) hd)
  | _ => simp [hact, Action.writes?] at hwrites

/-- The name that an event declares. -/
def Event.declared? : Event → Option Name
  | .declare n => some n
  | _ => none

theorem Warning.declared_foldl (es : List Event) (k : Warning.Known) :
    (es.foldl Warning.Known.after k).declared =
      k.declared.declareAll (es.filterMap (·.declared?)) := by
  induction es generalizing k with
  | nil => rfl
  | cons e es ih =>
    rw [List.foldl_cons, ih]
    cases e with
    | zeroStep pos => rfl
    | declare n => rfl
    | read n => by_cases hn : k.isFresh n.text <;> simp [Known.after, hn, Event.declared?]

theorem Event.declared_reads (ns : List Name) : (ns.map Event.read).filterMap (·.declared?) = [] :=
  List.filterMap_eq_nil_iff.2 fun e he => by
    obtain ⟨n, -, rfl⟩ := List.mem_map.1 he
    rfl

/-- A statement declares what it assigns. -/
theorem Stmt.declared_ownEvents (s : Stmt) :
    s.ownEvents.filterMap (·.declared?) = s.target?.toList := by
  cases s with
  | missing | breakLoop | continueLoop => rfl
  | eval | branch | whileLoop => exact Event.declared_reads _
  | assign span target op value =>
    simp only [ownEvents, nameEvents, List.filterMap_append, Event.declared_reads]
    split <;> rfl
  | forLoop span var range body =>
    simp only [ownEvents, List.filterMap_append, Event.declared_reads]
    cases zeroStep? (.forLoop span var range body) <;> rfl

namespace Program

variable {source : Text} {scheme : Scheme} {p : Program} {listing : Listing}

theorem lower_symbols (h : p.lower scheme = .ok listing) : ∃ names, Lowered scheme.filled
    (scheme.filled.reserved (p.names.map (·.text))) none (.list p.stmts) .initial listing.code
    names ∧ listing.symbols = names.symbols.symbols := by
  unfold Program.lower Generator.generate at h
  cases hrun : (Lower.list p.stmts).run ((Generator.new scheme).reset.reserve p) with
  | error e g => simp [hrun, Except.map] at h
  | ok code g =>
    obtain ⟨names, rfl, hcode⟩ := Lower.lowered_of_list p.stmts hrun
    simp only [hrun, Except.map, Except.ok.injEq] at h
    subst h
    exact ⟨names, hcode, rfl⟩

/-- The first statement in the source that assigns a variable. -/
def firstAssign? (p : Program) (x : Text) : Option Stmt :=
  p.inOrder.find? (·.declares? == some x)

theorem declares_of_firstAssign {x : Text} {st : Stmt} (h : p.firstAssign? x = some st) :
    st ∈ p.inOrder ∧ st.declares? = some x := by
  have hx := List.find?_some h
  exact ⟨List.mem_of_find?_eq_some h, by simpa using hx⟩

theorem declared_events (p : Program) : (p.events.foldl Warning.Known.after .none).declared =
    SymbolTable.empty.declareAll (Stmt.targets p.inOrder) := by
  rw [Warning.declared_foldl, events_eq, List.filterMap_flatMap, Stmt.targets]
  simp only [Stmt.declared_ownEvents]
  rfl

theorem mem_names_of_declares {st : Stmt} {x : Text} (hst : st ∈ p.inOrder)
    (hx : st.declares? = some x) : x ∈ p.names.map (·.text) := by
  have hdeclare : ∃ n, Event.declare n ∈ st.nameEvents ∧ n.text = x := by
    cases st <;> simp_all [Stmt.declares?, Stmt.nameEvents]
  obtain ⟨n, hn, rfl⟩ := hdeclare
  exact List.mem_map_of_mem (p.mem_names_iff.2 ⟨_, List.mem_flatMap.2 ⟨st, hst, hn⟩, rfl⟩)

/-- Every variable is declared once, by the first statement that assigns it and before anything else
is stored into it. The symbols of the listing are the variables in the order of their declarations,
and warnings are found with the same table. -/
theorem variables_are_declared_once_and_first (hparse : Program.parse source = .ok p)
    (hlower : p.lower scheme = .ok listing) :
    (∀ x, (∃ st ∈ p.allStmts, st.declares? = some x) →
      listing.code.countP (·.action.introduces? == some x) = 1) ∧
    (∀ (n : Nat) i x, listing.code[n]? = some i → i.action.introduces? = some x →
      (∀ (j : Nat) b, j < n → listing.code[j]? = some b → b.action.writes? ≠ some x) ∧
      ∃ st, p.firstAssign? x = some st ∧ i.DeclaresFor st listing.code n x) ∧
    listing.symbols.map (·.name) = variablesOf listing.code ∧
    (listing.symbols.map (·.name)).Nodup ∧
    (∀ x, x ∈ listing.symbols.map (·.name) ↔ ∃ st ∈ p.allStmts, st.declares? = some x) ∧
    (∀ (n : Nat) s, listing.symbols[n]? = some s → s.index = n ∧ ∃ st target,
      p.firstAssign? s.name = some st ∧ st.target? = some target ∧ s.pos = target.span.start) ∧
    (p.events.foldl Warning.Known.after .none).declared.symbols = listing.symbols := by
  obtain ⟨names, hcode, hsymbols⟩ := lower_symbols hlower
  have hwf : Task.WellFormed (.list p.stmts) := Program.wellFormed_of_parse hparse
  have hdeclares : Declares .empty p.inOrder listing.code names.symbols := hcode.declares hwf
  have hlists : names.symbols.Lists (Stmt.targets p.inOrder) := by
    rw [hdeclares.table]
    exact SymbolTable.lists_empty.declareAll _
  have hnames : listing.symbols.map (·.name) = names.symbols.names := by rw [hsymbols]; rfl
  have hassigned : ∀ x, x ∈ names.symbols.names ↔ ∃ st ∈ p.allStmts, st.declares? = some x := by
    intro x
    rw [← SymbolTable.contains_iff_mem_names, hdeclares.contains_iff]
    simp [SymbolTable.contains_iff, SymbolTable.empty, p.mem_inOrder]
  rw [hnames]
  refine ⟨?_, ?_, ?_, hlists.nodup, hassigned, ?_, ?_⟩
  · intro x hx
    have hmem := (hassigned x).2 hx
    have hnodup := hlists.nodup
    rw [hdeclares.listed] at hmem hnodup
    rw [← count_variablesOf]
    exact Nat.le_antisymm (List.nodup_iff_count.1 hnodup x) (List.count_pos_iff.2 hmem)
  · intro n i x hi hx
    obtain ⟨-, st, hst, hfor⟩ := hdeclares.explained n i x hi hx
    refine ⟨fun j b hlt hb hwrites => ?_, st, hst, hfor⟩
    have htemp := hdeclares.temp_of_writes hlists.nodup hi hx hlt hb hwrites
    have hsound := hcode.sound hwf b (List.mem_of_getElem? hb)
    cases hact : b.action with
    | compute type dest rhs =>
      rw [hact] at hsound htemp
      obtain rfl : dest = x := by simpa [Action.temp?] using htemp
      obtain ⟨hmem, hdeclared⟩ := declares_of_firstAssign hst
      exact hsound (mem_names_of_declares hmem hdeclared)
    | _ => simp [hact, Action.temp?] at htemp
  · exact hdeclares.listed
  · intro n s hs
    rw [hsymbols] at hs
    refine ⟨hlists.numbered n s hs, ?_⟩
    obtain ⟨target, htarget, hpos⟩ := hlists.first s (List.mem_of_getElem? hs)
    rw [Stmt.find?_targets] at htarget
    obtain ⟨st, hst, htarget⟩ := Option.bind_eq_some_iff.1 htarget
    exact ⟨st, target, hst, htarget, hpos⟩
  · rw [declared_events, ← hdeclares.table, hsymbols]

/-- A compound assignment in a branch comes first, and the variable of a loop second. -/
theorem compound_assignment_declares : ∃ t : Compilation,
    Program.parse "if a: { x += 1 } for i in range(0, b, x): { x = i }" =
        .ok t.program ∧
      t.program.lower ⟨"int", "t", "l"⟩ = .ok t.listing ∧
      variablesOf t.listing.code = [Text.ofString "x", Text.ofString "i"] ∧
      t.listing.code.countP (·.action.introduces? == some (Text.ofString "x")) = 1 ∧
      (t.program.events.foldl Warning.Known.after .none).declared.symbols = t.listing.symbols := by
  have hrun : (compile ⟨⟨"int", "t", "l"⟩, true, []⟩
      "if a: { x += 1 } for i in range(0, b, x): { x = i }").outcome.toOption.map
        (fun t => t.listing.symbols.map (·.name)) =
      some [Text.ofString "x", Text.ofString "i"] := by
    decide +kernel
  obtain ⟨t, hcompile, hsymbols⟩ := exists_of_map_compile hrun
  obtain ⟨-, hparse, hlower⟩ := compile_eq_ok hcompile
  obtain ⟨honce, -, horder, -, hassigned, -, hchecked⟩ :=
    variables_are_declared_once_and_first hparse hlower
  refine ⟨t, hparse, hlower, horder.symm.trans hsymbols, honce _ ((hassigned _).1 ?_), hchecked⟩
  rw [hsymbols]
  exact List.mem_cons_self

end Program

end ThreeAddress
