import ThreeAddress.Proofs.Execution
import ThreeAddress.Proofs.LoweredCode

/-! Labels of lowered code. Every label is defined once and every jump goes to one that is defined,
so that the code can be loaded, and then a jump leads to the place of its label. -/
namespace ThreeAddress

namespace Instr

def labelsOf (code : List Instr) : List Text := code.filterMap (·.action.label?)

def targetsOf (code : List Instr) : List Text := code.filterMap (·.action.target?)

@[simp] theorem labelsOf_nil : labelsOf [] = [] := rfl

@[simp] theorem labelsOf_append (a b : List Instr) :
    labelsOf (a ++ b) = labelsOf a ++ labelsOf b := by
  simp [labelsOf]

@[simp] theorem targetsOf_nil : targetsOf [] = [] := rfl

@[simp] theorem targetsOf_append (a b : List Instr) :
    targetsOf (a ++ b) = targetsOf a ++ targetsOf b := by
  simp [targetsOf]

@[simp] theorem labelsOf_cons (i : Instr) (rest : List Instr) :
    labelsOf (i :: rest) = i.action.label?.toList ++ labelsOf rest := by
  cases h : i.action.label? <;> simp [labelsOf, h]

@[simp] theorem targetsOf_cons (i : Instr) (rest : List Instr) :
    targetsOf (i :: rest) = i.action.target?.toList ++ targetsOf rest := by
  cases h : i.action.target? <;> simp [targetsOf, h]

end Instr

open Instr

variable {scheme : Scheme} {reserved : List Text} {names names' : Names} {code : List Instr}

/-- Code that neither jumps nor is jumped to. -/
def Straight (code : List Instr) : Prop := labelsOf code = [] ∧ targetsOf code = []

theorem ExprCode.straight {e : Expr} {x : Text}
    (h : ExprCode scheme reserved e names code x names') : Straight code := by
  induction h with
  | number | boolean | name => exact ⟨rfl, rfl⟩
  | binary _ _ ihl ihr => simp_all [Straight, Action.label?, Action.target?]
  | unary _ ih => simp_all [Straight, Action.label?, Action.target?]

theorem BoundCode.straight {e : Expr} {x : Text}
    (h : BoundCode scheme reserved e names code x names') : Straight code := by
  cases h with
  | plain _ h => exact h.straight
  | copied => exact ⟨rfl, rfl⟩

theorem ConditionsCode.straight {bs : List (Branch Stmt)} {xs : List Text}
    (h : ConditionsCode scheme reserved bs names code xs names') : Straight code := by
  induction h with
  | nil => exact ⟨rfl, rfl⟩
  | cons he _ ih =>
    have := he.straight
    simp_all [Straight]

theorem StoreCode.straight {isNew : Bool} {target x : Text} {op : Kind} {pos : Pos}
    (h : StoreCode scheme isNew target op x pos code) : Straight code := by
  cases h <;> exact ⟨rfl, rfl⟩

theorem ExprCode.labels_eq {e : Expr} {x : Text}
    (h : ExprCode scheme reserved e names code x names') : names'.labels = names.labels := by
  induction h with
  | number | boolean | name => rfl
  | binary _ _ ihl ihr => exact ihr.trans ihl
  | unary _ ih => exact ih

theorem BoundCode.labels_eq {e : Expr} {x : Text}
    (h : BoundCode scheme reserved e names code x names') : names'.labels = names.labels := by
  cases h with
  | plain _ h => exact h.labels_eq
  | copied => rfl

theorem ConditionsCode.labels_eq {bs : List (Branch Stmt)} {xs : List Text}
    (h : ConditionsCode scheme reserved bs names code xs names') :
    names'.labels = names.labels := by
  induction h with
  | nil => rfl
  | cons he _ ih => exact ih.trans he.labels_eq

/-- The names with the numbers above `low` up to `high`, some of them left out, in any order. -/
def Numbered (name : Nat → Text) (low high : Nat) (ls : List Text) : Prop :=
  low ≤ high ∧ ∃ nums : List Nat, ls.Perm (nums.map name) ∧ nums.Nodup ∧
    ∀ n ∈ nums, low < n ∧ n ≤ high

namespace Numbered

variable {name : Nat → Text} {low mid high : Nat} {ls ms : List Text}

theorem nil (low : Nat) : Numbered name low low [] :=
  ⟨Nat.le_refl low, [], .refl _, List.nodup_nil, by simp⟩

theorem single (name : Nat → Text) (h : low < high) : Numbered name low high [name high] :=
  ⟨Nat.le_of_lt h, [high], .refl _, by simp, by simpa using h⟩

theorem append (h : Numbered name low mid ls) (h' : Numbered name mid high ms) :
    Numbered name low high (ls ++ ms) := by
  obtain ⟨hle, nums, hperm, hnodup, hrange⟩ := h
  obtain ⟨hle', nums', hperm', hnodup', hrange'⟩ := h'
  refine ⟨Nat.le_trans hle hle', nums ++ nums', ?_, ?_, ?_⟩
  · rw [List.map_append]
    exact hperm.append hperm'
  · refine List.nodup_append.2 ⟨hnodup, hnodup', fun a ha b hb => ?_⟩
    have := (hrange a ha).2
    have := (hrange' b hb).1
    omega
  · intro n hn
    obtain hn | hn := List.mem_append.1 hn
    · have := hrange n hn
      omega
    · have := hrange' n hn
      omega

theorem perm (h : Numbered name low high ls) (hp : ms.Perm ls) : Numbered name low high ms := by
  obtain ⟨hle, nums, hperm, hnodup, hrange⟩ := h
  exact ⟨hle, nums, hp.trans hperm, hnodup, hrange⟩

theorem nodup (h : Numbered name low high ls) (hname : ∀ {m n}, name m = name n → m = n) :
    ls.Nodup := by
  obtain ⟨-, nums, hperm, hnodup, -⟩ := h
  refine hperm.nodup_iff.2 (List.pairwise_map.2 (hnodup.imp fun hne heq => hne ?_))
  exact hname heq

end Numbered

/-- The labels outside its code that a task may jump to. -/
def Task.exits (loop : Option Loop) : Task → List Text
  | .chain stop _ _ => stop :: (loop.toList.flatMap fun l => [l.breakTo, l.continueTo])
  | _ => loop.toList.flatMap fun l => [l.breakTo, l.continueTo]

namespace Lowered

variable {loop : Option Loop} {task : Task}

/-- Lowered code defines the labels that are handed out for it, each of them once. -/
theorem numbered (h : Lowered scheme reserved loop task names code names') :
    Numbered scheme.label names.labels names'.labels (labelsOf code) := by
  induction h with
  | nil | chainNil => exact .nil _
  | cons _ _ ih ih' =>
    rw [labelsOf_append]
    exact ih.append ih'
  | assign he hs =>
    rw [labelsOf_append, he.straight.1, hs.straight.1, Names.withName, he.labels_eq]
    exact .nil _
  | eval he =>
    rw [he.straight.1, he.labels_eq]
    exact .nil _
  | breakLoop | continueLoop => exact .nil _
  | @branch loop span bs otherwise n n₁ n₂ n₃ code clauses last xs _ hc hchain hlast ih ih' =>
    rw [← hc.labels_eq]
    have hstop := Numbered.single scheme.label (Nat.lt_succ_self n₁.labels)
    refine (hstop.append (ih.append ih')).perm ?_
    simp only [labelsOf_append, hc.straight.1, List.nil_append]
    exact List.perm_append_comm
  | @chainCons loop stop x xs cond body rest n n₁ n₂ inner clauses hb hr ih ih' =>
    have hnext := Numbered.single scheme.label (Nat.lt_succ_self n.labels)
    refine (hnext.append (ih.append ih')).perm ?_
    simp only [labelsOf_append]
    rw [← List.append_assoc]
    exact List.perm_append_comm.append_right _
  | @whileLoop loop span cond body n n₁ n₂ code inner x he hb ih =>
    rw [he.labels_eq] at ih
    have hstart := Numbered.single scheme.label (Nat.lt_succ_self n.labels)
    have hstop := Numbered.single scheme.label (Nat.lt_succ_self (n.labels + 1))
    refine ((hstart.append hstop).append ih).perm ?_
    simp only [labelsOf_append, he.straight.1]
    exact List.perm_append_comm.cons _
  | @forLoop loop span var range body n n₁ n₂ n₃ named n₄ code₁ code₂ code₃ inner first last step
      type h₁ h₂ h₃ hn _ hb ih =>
    have hlabels : n.labels = named.labels := by
      rw [hn, ← h₁.labels_eq, ← h₂.labels_eq, ← h₃.labels_eq]
      rfl
    rw [hlabels]
    have hagain := Numbered.single scheme.label (Nat.lt_succ_self named.labels)
    have hnext := Numbered.single scheme.label (Nat.lt_succ_self (named.labels + 1))
    have hstop := Numbered.single scheme.label (Nat.lt_succ_self (named.labels + 2))
    refine (((hagain.append hnext).append hstop).append ih).perm ?_
    simp only [labelsOf_append, h₁.straight.1, h₂.straight.1, h₃.straight.1]
    exact List.perm_append_comm.cons _

/-- Every jump goes to a label of the code, or out of it. -/
theorem targets (h : Lowered scheme reserved loop task names code names') :
    ∀ t ∈ targetsOf code, t ∈ labelsOf code ∨ t ∈ task.exits loop := by
  induction h with
  | nil | chainNil => simp
  | cons _ _ ih ih' =>
    intro t ht
    simp only [targetsOf_append, List.mem_append] at ht
    simp only [labelsOf_append, List.mem_append]
    obtain ht | ht := ht
    · exact (ih t ht).imp_left Or.inl
    · exact (ih' t ht).imp_left Or.inr
  | assign he hs => simp [he.straight.2, hs.straight.2]
  | eval he => simp [he.straight.2]
  | breakLoop | continueLoop => simp [Action.target?, Task.exits]
  | @branch loop span bs otherwise n n₁ n₂ n₃ code clauses last xs _ hc hchain hlast ih ih' =>
    intro t ht
    have ht : t ∈ targetsOf clauses ∨ t ∈ targetsOf last := by
      simpa [hc.straight.2, Action.target?] using ht
    obtain ht | ht := ht
    · obtain hl | he := ih t ht
      · exact Or.inl (by simp [hl])
      · obtain rfl | he := List.mem_cons.1 he
        · exact Or.inl (by simp [Action.label?])
        · exact Or.inr he
    · obtain hl | he := ih' t ht
      · exact Or.inl (by simp [hl])
      · exact Or.inr he
  | @chainCons loop stop x xs cond body rest n n₁ n₂ inner clauses hb hr ih ih' =>
    intro t ht
    have ht : t = scheme.label (n.labels + 1) ∨ t ∈ targetsOf inner ∨ t = stop ∨
        t ∈ targetsOf clauses := by
      simpa [Action.target?] using ht
    obtain rfl | ht | rfl | ht := ht
    · exact Or.inl (by simp [Action.label?])
    · obtain hl | he := ih t ht
      · exact Or.inl (by simp [hl])
      · exact Or.inr (List.mem_cons_of_mem _ he)
    · exact Or.inr List.mem_cons_self
    · obtain hl | he := ih' t ht
      · exact Or.inl (by simp [hl])
      · exact Or.inr he
  | @whileLoop loop span cond body n n₁ n₂ code inner x he hb ih =>
    intro t ht
    have ht : t = scheme.label (n.labels + 2) ∨ t ∈ targetsOf inner ∨
        t = scheme.label (n.labels + 1) := by
      simpa [he.straight.2, Action.target?] using ht
    obtain rfl | ht | rfl := ht
    · exact Or.inl (by simp [Action.label?])
    · obtain hl | he := ih t ht
      · exact Or.inl (by simp [hl])
      · have he : t = scheme.label (n.labels + 2) ∨ t = scheme.label (n.labels + 1) := by
          simpa [Task.exits] using he
        obtain rfl | rfl := he <;> exact Or.inl (by simp [Action.label?])
    · exact Or.inl (by simp [Action.label?])
  | @forLoop loop span var range body n n₁ n₂ n₃ named n₄ code₁ code₂ code₃ inner first last step
      type h₁ h₂ h₃ hn _ hb ih =>
    intro t ht
    have ht : t = scheme.label (named.labels + 3) ∨ t ∈ targetsOf inner ∨
        t = scheme.label (named.labels + 1) := by
      simpa [h₁.straight.2, h₂.straight.2, h₃.straight.2, Action.target?] using ht
    obtain rfl | ht | rfl := ht
    · exact Or.inl (by simp [Action.label?])
    · obtain hl | he := ih t ht
      · exact Or.inl (by simp [hl])
      · have he : t = scheme.label (named.labels + 3) ∨ t = scheme.label (named.labels + 2) := by
          simpa [Task.exits] using he
        obtain rfl | rfl := he <;> exact Or.inl (by simp [Action.label?])
    · exact Or.inl (by simp [Action.label?])

/-- Outside of loops and chains no jump leaves the code. -/
theorem closed (h : Lowered scheme reserved none task names code names')
    (hexits : task.exits none = []) : ∀ t ∈ targetsOf code, t ∈ labelsOf code := by
  intro t ht
  rcases h.targets t ht with hl | he
  · exact hl
  · simp [hexits] at he

end Lowered

namespace Machine

/-- The machine executes the code, and jumps go to the places of their labels. -/
structure Executes (m : Machine) (code : List Instr) (place : Text → Nat) : Prop where
  fetch : ∀ ip : Nat, m.code[ip]? =
    (code[ip]?).map fun i => (Step.ofAction place i.action, i.pos)
  label : ∀ (ip : Nat) (i : Instr) (name : Text), code[ip]? = some i →
    i.action.label? = some name → place name = ip

/-- Labels that are all different, and not placed yet, get the places of their definitions. -/
theorem placeLabels_eq_ok (code : List Instr) (n : Nat) (placed : Dictionary Nat)
    (hnodup : (labelsOf code).Nodup) (hnew : ∀ name ∈ labelsOf code, placed.get? name = none) :
    ∃ placed', placeLabels n placed code = .ok placed' ∧
      (∀ (ip : Nat) (i : Instr) (name : Text), code[ip]? = some i →
        i.action.label? = some name → placed'.get? name = some (n + ip)) ∧
      ∀ name, name ∉ labelsOf code → placed'.get? name = placed.get? name := by
  induction code generalizing n placed with
  | nil => exact ⟨placed, rfl, by simp, fun _ _ => rfl⟩
  | cons i rest ih =>
    cases hl : i.action.label? with
    | none =>
      have hlabels : labelsOf (i :: rest) = labelsOf rest := by simp [hl]
      rw [hlabels] at hnodup hnew
      obtain ⟨placed', hok, hplace, hother⟩ := ih (n + 1) placed hnodup hnew
      refine ⟨placed', by simp [placeLabels, hl, hok], ?_, by rwa [hlabels]⟩
      intro ip j name hip hname
      cases ip with
      | zero =>
        simp at hip
        simp [← hip, hl] at hname
      | succ ip =>
        have := hplace ip j name (by simpa using hip) hname
        rw [this]
        congr 1
        omega
    | some label =>
      have hlabels : labelsOf (i :: rest) = label :: labelsOf rest := by simp [hl]
      rw [hlabels] at hnodup hnew
      obtain ⟨hnot, hnodup⟩ := List.nodup_cons.1 hnodup
      have hfree : placed.get? label = none := hnew label List.mem_cons_self
      have hnew' : ∀ name ∈ labelsOf rest, (placed.insert label n).get? name = none := by
        intro name hname
        have hne : label ≠ name := by
          rintro rfl
          exact hnot hname
        rw [Dictionary.get?_insert, if_neg hne]
        exact hnew name (List.mem_cons_of_mem _ hname)
      obtain ⟨placed', hok, hplace, hother⟩ := ih (n + 1) (placed.insert label n) hnodup hnew'
      refine ⟨placed', by simp [placeLabels, hl, hfree, hok], ?_, ?_⟩
      · intro ip j name hip hname
        cases ip with
        | zero =>
          obtain rfl : i = j := by simpa using hip
          obtain rfl : label = name := by simpa [hl] using hname
          rw [hother label hnot, Dictionary.get?_insert, if_pos rfl]
          rfl
        | succ ip =>
          have := hplace ip j name (by simpa using hip) hname
          rw [this]
          congr 1
          omega
      · intro name hname
        rw [hlabels, List.mem_cons, not_or] at hname
        rw [hother name hname.2, Dictionary.get?_insert, if_neg (Ne.symm hname.1)]

/-- Code whose labels are all different and that jumps to no others can be loaded. -/
theorem load_eq_ok {l : Listing} {k : NumKind} (hk : NumKind.ofType? l.type = some k)
    (hnodup : (labelsOf l.code).Nodup) (htargets : ∀ t ∈ targetsOf l.code, t ∈ labelsOf l.code)
    (limit : Option Nat) (inputs : List (Text × Float)) :
    ∃ m place, load l limit inputs = .ok m ∧ m.kind = k ∧ m.limit = limit ∧ m.inputs = inputs ∧
      m.Executes l.code place := by
  obtain ⟨placed, hok, hplace, -⟩ := placeLabels_eq_ok l.code 0 .empty hnodup (by simp)
  have hdefined : undefinedLabel? placed l.code = none := by
    refine List.find?_eq_none.2 fun t ht => ?_
    obtain ⟨i, hi, hlabel⟩ := List.mem_filterMap.1 (htargets t ht)
    obtain ⟨ip, hip⟩ := List.mem_iff_getElem?.1 hi
    simp [hplace ip i t hip hlabel]
  refine ⟨⟨(l.code.map fun i => (Step.ofAction (placeOf placed) i.action, i.pos)).toArray,
    l.symbols, k, limit, inputs⟩, placeOf placed, ?_, rfl, rfl, rfl, ?_, ?_⟩
  · simp only [load, hk, hok, hdefined]
  · intro ip
    simp
  · intro ip i name hip hname
    simp [placeOf, hplace ip i name hip hname]

end Machine

/-- The code of a lowered program can be loaded. -/
theorem Lowered.load {l : Listing} {k : NumKind} {ss : List Stmt}
    (h : Lowered scheme reserved none (.list ss) names l.code names')
    (hk : NumKind.ofType? l.type = some k) (limit : Option Nat) (inputs : List (Text × Float)) :
    ∃ m place, Machine.load l limit inputs = .ok m ∧ m.kind = k ∧ m.limit = limit ∧
      m.inputs = inputs ∧ m.Executes l.code place :=
  Machine.load_eq_ok hk (h.numbered.nodup Scheme.label_injective) (h.closed rfl) limit inputs

end ThreeAddress
