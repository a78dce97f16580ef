import ThreeAddress.Proofs.AlikeLowering
import ThreeAddress.Proofs.Safety

/-! Two runs side by side. Code that is paired by its lowering does the same to the variables of the
source, instruction by instruction, as long as no temporary is read before it is computed. What a
store holds under the names of temporaries at the start must not matter, so both runs are compared
with a third one that starts without them: that one would fail for want of a temporary, and lowered
code never does. -/
namespace ThreeAddress

namespace Store

variable {vars : List Text} {s s' : Store}

/-- Inputs for other names than the given ones change none of these. -/
theorem ofInputs_filter (k : NumKind) (inputs : List (Text × Float)) (vars : List Text) :
    (∀ x ∈ vars, (ofInputs k (inputs.filter (·.1 ∈ vars))).get? x = (ofInputs k inputs).get? x) ∧
      ∀ x ∉ vars, (ofInputs k (inputs.filter (·.1 ∈ vars))).get? x = none := by
  unfold ofInputs
  rw [List.foldl_filter]
  refine List.foldl_rel (r := fun s s' : Store =>
    (∀ x ∈ vars, s.get? x = s'.get? x) ∧ ∀ x ∉ vars, s.get? x = none) (by simp) ?_
  rintro ⟨name, v⟩ - s s' ⟨hvars, hothers⟩
  by_cases hname : name ∈ vars
  · simp only [hname, decide_true, if_true, get?_set]
    refine ⟨fun x hx => by rw [hvars x hx], fun x hx => ?_⟩
    rw [if_neg, hothers x hx]
    rintro rfl
    exact hx hname
  · simp only [hname, decide_false, Bool.false_eq_true, if_false, get?_set]
    refine ⟨fun x hx => ?_, hothers⟩
    rw [if_neg, hvars x hx]
    rintro rfl
    exact hname hx

end Store

namespace Pairing

variable (P : Pairing)

/-- The second store has all that the first has for the source and for the temporaries. -/
structure Covers (s s' : Store) : Prop where
  vars : ∀ x ∈ P.vars, s.get? x = s'.get? x
  temps : ∀ k v, s.value? (P.left.nthTemp P.vars k) = some v →
    s'.value? (P.right.nthTemp P.vars k) = some v

/-- The second computation gives what the first one gives, which may only fail in ways that the
source accounts for. -/
def Follows {α : Type} (r r' : Except Fault α) : Prop :=
  (∀ f, r = .error f → f.Expected P.vars) → r' = r

/-- So does the second execution, and the stores remain alike. -/
def Tracks (r r' : Store × Except Fault Flow) : Prop :=
  (∀ f, r.2 = .error f → f.Expected P.vars) → r'.2 = r.2 ∧ P.Covers r.1 r'.1

/-- Both schemes make names that do not look like numbers. -/
structure Readable : Prop where
  left : P.left.tempStem.isIdentifier
  right : P.right.tempStem.isIdentifier

variable {P} {s s' : Store}

namespace Covers

theorem set_temp {t t' : Text} {v : Value} (h : P.Covers s s') (ht : P.Temps t t') :
    P.Covers (s.set t v) (s'.set t' v) := by
  obtain ⟨k⟩ := ht
  constructor
  · intro x hx
    have hne {scheme : Scheme} : scheme.nthTemp P.vars k ≠ x := by
      rintro rfl
      exact Scheme.nthTemp_not_mem k hx
    rw [Store.get?_set, Store.get?_set, if_neg hne, if_neg hne, h.vars x hx]
  · intro j w
    rw [Store.value?_set, Store.value?_set]
    by_cases hjk : k = j
    · simp [hjk]
    · rw [if_neg fun heq => hjk (Scheme.nthTemp_injective heq),
        if_neg fun heq => hjk (Scheme.nthTemp_injective heq)]
      exact h.temps j w

theorem set_var {x : Text} {v : Value} (h : P.Covers s s') (hx : x ∈ P.vars) :
    P.Covers (s.set x v) (s'.set x v) := by
  constructor
  · intro y hy
    rw [Store.get?_set, Store.get?_set, h.vars y hy]
  · intro j w
    have hne {scheme : Scheme} : x ≠ scheme.nthTemp P.vars j := by
      rintro rfl
      exact Scheme.nthTemp_not_mem j hx
    rw [Store.value?_set, Store.value?_set, if_neg hne, if_neg hne]
    exact h.temps j w

theorem declare (h : P.Covers s s') (x : Text) : P.Covers (s.declare x) (s'.declare x) := by
  constructor
  · intro y hy
    rw [Store.get?_declare, Store.get?_declare, Store.value?, Store.value?, h.vars y hy]
  · intro j w
    rw [Store.value?_declare, Store.value?_declare]
    exact h.temps j w

/-- Inputs may name temporaries. -/
theorem ofInputs (k : NumKind) (inputs : List (Text × Float)) :
    P.Covers (Store.ofInputs k (inputs.filter (·.1 ∈ P.vars))) (Store.ofInputs k inputs) := by
  obtain ⟨hvars, hothers⟩ := Store.ofInputs_filter k inputs P.vars
  refine ⟨hvars, fun j v hv => ?_⟩
  rw [Store.value?, hothers _ (Scheme.nthTemp_not_mem j)] at hv
  cases hv

end Covers

namespace Follows

variable {α β : Type}

theorem refl (r : Except Fault α) : P.Follows r r := fun _ => rfl

theorem bind {r r' : Except Fault α} {f f' : α → Except Fault β} (h : P.Follows r r')
    (hf : ∀ a, P.Follows (f a) (f' a)) : P.Follows (r.bind f) (r'.bind f') := by
  intro hexpected
  cases r with
  | error e =>
    rw [h fun f he => hexpected f (by rw [he]; rfl)]
    rfl
  | ok a =>
    rw [h fun f he => by cases he]
    exact hf a hexpected

end Follows

theorem Operands.follows {x x' : Text} (h : P.Operands x x') (hP : P.Readable)
    (hs : P.Covers s s') :
    P.Follows ((Operand.ofText x).value s) ((Operand.ofText x').value s') := by
  cases h with
  | name hx =>
    intro _
    unfold Operand.ofText
    split
    · rfl
    · split
      · split <;> rfl
      · simp only [Operand.value, hs.vars x hx]
  | literal hl =>
    intro _
    unfold Operand.ofText
    rw [if_pos hl]
    split
    · rfl
    · split <;> rfl
  | temp h =>
    obtain ⟨k⟩ := h
    obtain ⟨hne, hl⟩ := Operand.isLiteral_of_isIdentifier hP.left
    obtain ⟨hne', hl'⟩ := Operand.isLiteral_of_isIdentifier hP.right
    have hget := hs.temps k
    have hnot : P.left.nthTemp P.vars k ∉ P.vars := Scheme.nthTemp_not_mem k
    unfold Scheme.nthTemp Store.value? at *
    rw [Operand.ofText_temp hne hl, Operand.ofText_temp hne' hl']
    intro hexpected
    simp only [Operand.value] at hexpected ⊢
    generalize s.get? _ = held at hget hexpected ⊢
    generalize s'.get? _ = held' at hget ⊢
    rcases held with _ | _ | v
    · exact absurd (hexpected _ rfl) hnot
    · exact absurd (hexpected _ rfl) hnot
    · obtain rfl : held' = some (some v) := Option.join_eq_some_iff.1 (hget v rfl)
      rfl

theorem value_unary (op : Except ArithError UnaryOp) (x : Operand) (s : Store) :
    (Calculation.unary op x).value s =
      (x.value s).bind fun u => (op.mapError Fault.arith).map fun op => Value.unary op u := by
  rw [Calculation.value]
  cases x.value s <;> cases op <;> rfl

theorem value_binary (op : Except ArithError BinaryOp) (x y : Operand) (s : Store) :
    (Calculation.binary op x y).value s =
      (x.value s).bind fun u => (y.value s).bind fun v => Calculation.apply op u v := by
  rw [Calculation.value]
  cases x.value s <;> cases y.value s <;> rfl

theorem value_update (op : Except ArithError BinaryOp) (x y : Operand) (s : Store) :
    (Calculation.update op y x).value s =
      (x.value s).bind fun u => (y.value s).bind fun v => Calculation.apply op v u := by
  rw [Calculation.value]
  cases x.value s <;> cases y.value s <;> rfl

theorem Rhss.follows {rhs rhs' : Rhs} (h : P.Rhss rhs rhs') (hP : P.Readable)
    (hs : P.Covers s s') :
    P.Follows ((Calculation.ofRhs rhs).value s) ((Calculation.ofRhs rhs').value s') := by
  cases h with
  | copy hx => exact hx.follows hP hs
  | unary hx =>
    rw [Calculation.ofRhs, Calculation.ofRhs, value_unary, value_unary]
    exact (hx.follows hP hs).bind fun _ => .refl _
  | binary hx hy =>
    rw [Calculation.ofRhs, Calculation.ofRhs, value_binary, value_binary]
    exact (hx.follows hP hs).bind fun _ => (hy.follows hP hs).bind fun _ => .refl _

theorem follows_ofStore {dest op x x' : Text} (hdest : dest ∈ P.vars) (hx : P.Operands x x')
    (hP : P.Readable) (hs : P.Covers s s') :
    P.Follows ((Calculation.ofStore dest op x).value s)
      ((Calculation.ofStore dest op x').value s') := by
  unfold Calculation.ofStore
  split
  · exact hx.follows hP hs
  · have hdest : P.Operands dest dest := .name hdest
    rw [value_update, value_update]
    exact (hx.follows hP hs).bind fun _ => (hdest.follows hP hs).bind fun _ => .refl _

theorem Follows.tracks {r r' : Except Fault Flow} (h : P.Follows r r') (hs : P.Covers s s') :
    P.Tracks (s, r) (s', r') :=
  fun hexpected => ⟨h hexpected, hs⟩

theorem exec_jumpUnless (k : NumKind) (s : Store) (x : Operand) (target : Nat) :
    (Step.jumpUnless x target).exec k s =
      (s, (x.value s).bind fun v => .ok (if v.isTrue then .next else .goto target)) := by
  rw [Step.exec]
  cases x.value s <;> rfl

theorem exec_jumpIf (k : NumKind) (s : Store) (test : Calculation) (target : Nat) :
    (Step.jumpIf test target).exec k s =
      (s, (test.value s).bind fun v => .ok (if v.isTrue then .goto target else .next)) := by
  rw [Step.exec]
  cases test.value s <;> rfl

theorem tracks_assign {dest dest' : Text} {c c' : Calculation} (k : NumKind)
    (hc : P.Follows (c.value s) (c'.value s')) (hs : P.Covers s s')
    (hset : ∀ v, P.Covers (s.set dest v) (s'.set dest' v)) :
    P.Tracks ((Step.assign false dest c).exec k s) ((Step.assign false dest' c').exec k s') := by
  intro hexpected
  have hvalue := hc fun f hf => hexpected f (by simp [Step.exec, hf])
  simp only [Step.exec, Bool.false_eq_true, if_false, hvalue]
  cases c.value s with
  | error f => exact ⟨rfl, hs⟩
  | ok v => exact ⟨rfl, hset _⟩

/-- Paired instructions do the same, if the labels that they jump to are in the same places. -/
theorem Actions.tracks {a a' : Action} {place place' : Text → Nat} (h : P.Actions a a')
    (hP : P.Readable) (hplace : ∀ l l', a.target? = some l → P.Labels l l' → place l = place' l')
    (k : NumKind) (hs : P.Covers s s') :
    P.Tracks ((Step.ofAction place a).exec k s) ((Step.ofAction place' a').exec k s') := by
  cases h with
  | declare _ => exact fun _ => ⟨rfl, hs.declare _⟩
  | compute ht hr => exact tracks_assign k (hr.follows hP hs) hs fun v => hs.set_temp ht
  | @store type dest op x x' hdest hx =>
    -- a store that declares is one that does not, after a declaration
    have hassign {s s' : Store} (hs : P.Covers s s') : P.Tracks
        ((Step.assign false dest (.ofStore dest op x)).exec k s)
        ((Step.assign false dest (.ofStore dest op x')).exec k s') :=
      tracks_assign k (follows_ofStore hdest hx hP hs) hs fun v => hs.set_var hdest
    cases type with
    | none => exact hassign hs
    | some type => exact hassign (hs.declare _)
  | jumpUnless hx hl =>
    rw [Step.ofAction, Step.ofAction, exec_jumpUnless, exec_jumpUnless, ← hplace _ _ rfl hl]
    exact ((hx.follows hP hs).bind fun _ => .refl _).tracks hs
  | @jumpIf x x' op y y' _ _ hx hy hl =>
    have htest : P.Rhss (.binary x op y) (.binary x' op y') := .binary hx hy
    rw [Step.ofAction, Step.ofAction, exec_jumpIf, exec_jumpIf, ← hplace _ _ rfl hl]
    exact ((htest.follows hP hs).bind fun _ => .refl _).tracks hs
  | jump hl =>
    rw [Step.ofAction, Step.ofAction, ← hplace _ _ rfl hl]
    exact fun _ => ⟨rfl, hs⟩
  | label => exact fun _ => ⟨rfl, hs⟩

variable (P) in
/-- Loaded instructions that do the same and come from places that belong together. -/
def Tracked (k : NumKind) (i i' : Step × Pos) : Prop :=
  P.places i.2 i'.2 ∧ ∀ s s', P.Covers s s' → P.Tracks (i.1.exec k s) (i'.1.exec k s')

variable (P) in
/-- Machines that have loaded the same program under different names. -/
structure Machines (m m' : Machine) : Prop where
  code : ∀ ip : Nat, Option.Rel (P.Tracked m.kind) m.code[ip]? m'.code[ip]?
  kind : m.kind = m'.kind
  limit : m.limit = m'.limit
  symbols : List.Forall₂ P.Symbols m.symbols m'.symbols

theorem codes_getElem? {code code' : List Instr} (h : P.Codes code code') (ip : Nat) :
    Option.Rel P.Instrs code[ip]? code'[ip]? := by
  induction h generalizing ip with
  | nil => exact .none
  | cons hi _ ih =>
    cases ip with
    | zero => exact .some hi
    | succ ip => exact ih ip

/-- A label that is defined has the same place in both codes. -/
theorem place_eq {m m' : Machine} {code code' : List Instr} {place place' : Text → Nat}
    (hcode : P.Codes code code') (he : m.Executes code place) (he' : m'.Executes code' place')
    {l l' : Text} (hl : P.Labels l l') (hmem : l ∈ Instr.labelsOf code) :
    place l = place' l' := by
  obtain ⟨i, hi, hlabel⟩ := List.mem_filterMap.1 hmem
  obtain ⟨ip, hip⟩ := List.mem_iff_getElem?.1 hi
  have hrel := codes_getElem? hcode ip
  rw [hip] at hrel
  generalize hip' : code'[ip]? = found at hrel
  cases hrel with
  | @some _ i' hinstr =>
    obtain ⟨n⟩ := hl
    have hlabel' : i'.action.label? = some (P.right.label n) := by
      have haction := hinstr.action
      generalize i.action = a at hlabel haction
      generalize i'.action = a' at haction ⊢
      cases haction with
      | label hl =>
        obtain ⟨j⟩ := hl
        obtain rfl : j = n := Scheme.label_injective (Option.some.inj hlabel)
        rfl
      | _ => cases hlabel
    rw [he.label ip i _ hip hlabel, he'.label ip i' _ hip' hlabel']

theorem tracked_getElem? {m m' : Machine} {code code' : List Instr} {place place' : Text → Nat}
    (hcode : P.Codes code code') (he : m.Executes code place) (he' : m'.Executes code' place')
    (hclosed : ∀ t ∈ Instr.targetsOf code, t ∈ Instr.labelsOf code) (hP : P.Readable)
    (k : NumKind) (ip : Nat) : Option.Rel (P.Tracked k) m.code[ip]? m'.code[ip]? := by
  rw [he.fetch, he'.fetch]
  have hrel := codes_getElem? hcode ip
  generalize hip : code[ip]? = found at hrel
  generalize code'[ip]? = found' at hrel
  cases hrel with
  | none => exact .none
  | @some i i' hinstr =>
    refine .some ⟨hinstr.pos, fun s s' hs => hinstr.action.tracks hP (fun l l' ht hl => ?_) k hs⟩
    have htarget : l ∈ Instr.targetsOf code :=
      List.mem_filterMap.2 ⟨i, List.mem_of_getElem? hip, ht⟩
    exact place_eq hcode he he' hl (hclosed l htarget)

variable (P) in
structure Memories (mem mem' : Memory) : Prop where
  store : P.Covers mem.store mem'.store
  steps : mem.steps = mem'.steps

variable (P) in
/-- Ends for the same reason. A run whose end was not awaited has no place. -/
inductive Halts : Halt → Halt → Prop
  | finished : Halts .finished .finished
  | canceled : Halts .canceled .canceled
  | failed {pos pos' : Pos} {f : Fault} : P.places pos pos' → Halts (.failed pos f) (.failed pos' f)
  | endless {f : Fault} : Halts (.failed .unknown f) (.failed .unknown f)

variable (P) in
/-- Rounds that come to the same. -/
inductive Turns : Machine.Turn → Machine.Turn → Prop
  | stop {mem mem' : Memory} {halt halt' : Halt} : P.Memories mem mem' → P.Halts halt halt' →
      Turns (.stop mem halt) (.stop mem' halt')
  | go {ip : Nat} {mem mem' : Memory} : P.Memories mem mem' → Turns (.go ip mem) (.go ip mem')

section

variable {m m' : Machine} {mem mem' : Memory}

theorem Machines.atLimit_eq (hm : P.Machines m m') (h : P.Memories mem mem') :
    m.atLimit mem = m'.atLimit mem' := by
  unfold Machine.atLimit
  rw [hm.limit, h.steps]

/-- One round. -/
theorem Machines.turns (hm : P.Machines m m') (h : P.Memories mem mem') (ctx : Context) (ip : Nat)
    (hexpected : ∀ last pos f, m.turn ctx ip mem = .stop last (.failed pos f) →
      f.Expected P.vars) :
    P.Turns (m.turn ctx ip mem) (m'.turn ctx ip mem') := by
  unfold Machine.turn at hexpected ⊢
  have hcode := hm.code ip
  rw [← hm.atLimit_eq h, ← hm.kind, ← h.steps]
  generalize m.code[ip]? = found at hcode hexpected ⊢
  generalize m'.code[ip]? = found' at hcode ⊢
  cases hcode with
  | none => exact .stop h .finished
  | @some i i' htracked =>
    obtain ⟨step, pos⟩ := i
    obtain ⟨step', pos'⟩ := i'
    obtain ⟨hpos, htracks⟩ := htracked
    simp only at hexpected ⊢
    split
    · exact .stop h (.failed hpos)
    · rename_i hlimit
      split
      · exact .stop h .canceled
      · rename_i hcancel
        simp only [hlimit, hcancel, Bool.false_eq_true, if_false] at hexpected
        have hexec : P.Tracks (step.exec m.kind mem.store) (step'.exec m.kind mem'.store) :=
          htracks _ _ h.store
        generalize step.exec m.kind mem.store = result at hexec hexpected ⊢
        generalize step'.exec m.kind mem'.store = result' at hexec ⊢
        obtain ⟨store, outcome⟩ := result
        obtain ⟨store', outcome'⟩ := result'
        cases outcome with
        | error f =>
          obtain ⟨rfl, hstore⟩ := hexec fun g hg => hexpected ⟨store, _⟩ pos g (by cases hg; rfl)
          exact .stop ⟨hstore, rfl⟩ (.failed hpos)
        | ok flow =>
          obtain ⟨rfl, hstore⟩ := hexec fun g hg => by cases hg
          exact .go ⟨hstore, rfl⟩

/-- Any number of rounds. -/
theorem Machines.runFor (hm : P.Machines m m') (h : P.Memories mem mem') (ctx : Context)
    (fuel ip : Nat)
    (hexpected : ∀ pos f, (m.runFor ctx fuel ip mem).2 = some (.failed pos f) →
      f.Expected P.vars) :
    P.Memories (m.runFor ctx fuel ip mem).1 (m'.runFor ctx fuel ip mem').1 ∧
      Option.Rel P.Halts (m.runFor ctx fuel ip mem).2 (m'.runFor ctx fuel ip mem').2 := by
  induction fuel generalizing ip mem mem' with
  | zero => exact ⟨h, .none⟩
  | succ fuel ih =>
    rw [Machine.runFor_succ] at hexpected ⊢
    rw [Machine.runFor_succ]
    have hturns := hm.turns h ctx ip fun last pos f hstop => by
      rw [hstop] at hexpected
      exact hexpected pos f rfl
    generalize m.turn ctx ip mem = turn at hexpected hturns ⊢
    generalize m'.turn ctx ip mem' = turn' at hturns ⊢
    cases hturns with
    | stop hmem hhalt => exact ⟨hmem, .some hhalt⟩
    | go hmem => exact ih hmem _ hexpected

/-- Whole runs. -/
theorem Machines.run (hm : P.Machines m m') (h : P.Memories mem mem') (ctx : Context)
    (hexpected : ∀ fuel pos f, (m.runFor ctx fuel 0 mem).2 = some (.failed pos f) →
      f.Expected P.vars) :
    P.Memories (m.run ctx mem).1 (m'.run ctx mem').1 ∧
      P.Halts (m.run ctx mem).2 (m'.run ctx mem').2 := by
  unfold Machine.run
  have hfuel : m.fuel mem = m'.fuel mem' := by
    unfold Machine.fuel
    rw [hm.limit, h.steps]
  rw [← hfuel]
  have hrun := hm.runFor h ctx (m.fuel mem) 0 (hexpected (m.fuel mem))
  generalize m.runFor ctx (m.fuel mem) 0 mem = result at hrun ⊢
  generalize m'.runFor ctx (m.fuel mem) 0 mem' = result' at hrun ⊢
  obtain ⟨last, halt⟩ := result
  obtain ⟨last', halt'⟩ := result'
  obtain ⟨hmem, hhalt⟩ := hrun
  cases hhalt with
  | some hhalt => exact ⟨hmem, hhalt⟩
  | none =>
    have hsteps : last.steps = last'.steps := hmem.steps
    simp only [hsteps]
    exact ⟨hmem, .endless⟩

/-- The variables at the end. -/
theorem Machines.vars_eq (hm : P.Machines m m') (h : P.Memories mem mem') :
    m.vars mem = m'.vars mem' := by
  have hvalue : ∀ x ∈ P.vars, mem.store.value? x = mem'.store.value? x := by
    intro x hx
    unfold Store.value?
    rw [h.store.vars x hx]
  unfold Machine.vars
  have hsymbols := hm.symbols
  generalize m.symbols = symbols at hsymbols
  generalize m'.symbols = symbols' at hsymbols
  induction hsymbols with
  | nil => rfl
  | cons hs _ ih => rw [List.filterMap_cons, List.filterMap_cons, ← hs.name, hvalue _ hs.mem, ih]

end

end Pairing

/-- The same reason to fail, at places that `R` pairs if there are any. -/
inductive RunError.Alike (R : Pos → Pos → Prop) : RunError → RunError → Prop
  | load (e : LoadError) : Alike R (.load e) (.load e)
  | canceled : Alike R .canceled .canceled
  | failed {pos pos' : Pos} (f : Fault) : R pos pos' → Alike R (.failed pos f) (.failed pos' f)
  | endless (f : Fault) : Alike R (.failed .unknown f) (.failed .unknown f)

/-- A compiled program can be loaded for the class of its type. -/
theorem Program.load_of_lower {p : Program} {scheme : Scheme} {l : Listing} {k : NumKind}
    (hlower : p.lower scheme = .ok l) (hk : NumKind.ofType? l.type = some k) (limit : Option Nat)
    (inputs : List (Text × Float)) :
    ∃ m place, Machine.load l limit inputs = .ok m ∧ m.Executes l.code place ∧
      ∀ t ∈ Instr.targetsOf l.code, t ∈ Instr.labelsOf l.code := by
  obtain ⟨names, hcode⟩ := Program.lowered_of_lower hlower
  obtain ⟨m, place, hload, -, -, -, hexec⟩ := hcode.load hk limit inputs
  exact ⟨m, place, hload, hexec, hcode.closed rfl⟩

theorem Program.listings_of_lower {R : Pos → Pos → Prop} {p p' : Program} {scheme scheme' : Scheme}
    {l l' : Listing} (h : p.Alike R p') (hwf : Stmt.WellFormedList p.stmts)
    (htype : scheme.filled.type = scheme'.filled.type) (hlower : p.lower scheme = .ok l)
    (hlower' : p'.lower scheme' = .ok l') :
    (Pairing.ofProgram R scheme scheme' p).Listings l l' := by
  have hboth := Program.lower_alike h hwf htype
  rw [hlower, hlower'] at hboth
  cases hboth with
  | ok hl => exact hl

/-- The programs of two listings that are paired become machines that are. -/
theorem Pairing.Listings.machines {P : Pairing} {p p' : Program} {scheme scheme' : Scheme}
    {l l' : Listing} {k : NumKind} (h : P.Listings l l') (hP : P.Readable)
    (hlower : p.lower scheme = .ok l) (hlower' : p'.lower scheme' = .ok l')
    (hk : NumKind.ofType? l.type = some k) (limit : Option Nat) (inputs : List (Text × Float)) :
    ∃ m m', Machine.load l limit inputs = .ok m ∧ Machine.load l' limit inputs = .ok m' ∧
      P.Machines m m' := by
  obtain ⟨m, place, hload, hexec, hclosed⟩ := Program.load_of_lower hlower hk limit inputs
  obtain ⟨m', place', hload', hexec', -⟩ :=
    Program.load_of_lower hlower' (h.type ▸ hk) limit inputs
  obtain ⟨hkind, hsymbols, hlimit, -⟩ := Machine.load_parts hload
  obtain ⟨hkind', hsymbols', hlimit', -⟩ := Machine.load_parts hload'
  refine ⟨m, m', hload, hload', ?_, ?_, hlimit.trans hlimit'.symm, ?_⟩
  · exact tracked_getElem? h.code hexec hexec' hclosed hP m.kind
  · rw [h.type, hkind'] at hkind
    exact (Option.some.inj hkind).symm
  · rw [hsymbols, hsymbols']
    exact h.symbols

/-- What a compiled program answers when a run has ended. -/
def Machine.answer (m : Machine) : Memory × Halt → Except RunError RunResult
  | (_, .canceled) => .error .canceled
  | (_, .failed pos fault) => .error (.failed pos fault)
  | (mem, .finished) => .ok ⟨(m.vars mem).map fun (name, v) => (name, v.toFloat), mem.steps⟩

/-- What a compiled program answers within so many rounds, if its run ends within them. -/
def Compilation.runFor (t : Compilation) (ctx : Context) (limit : Option Nat)
    (inputs : List (Text × Float)) (fuel : Nat) : Option (Except RunError RunResult) :=
  match Machine.load t.listing limit inputs with
  | .error e => some (.error (.load e))
  | .ok m =>
    let result := m.runFor ctx fuel 0 m.reset
    result.2.map fun halt => m.answer (result.1, halt)

theorem Compilation.outcome_run {t : Compilation} {limit : Option Nat}
    {inputs : List (Text × Float)} {m : Machine}
    (hload : Machine.load t.listing limit inputs = .ok m) (ctx : Context) :
    (t.run ctx limit inputs).outcome = m.answer (m.run ctx m.reset) := by
  unfold Compilation.run
  rw [hload]
  simp only
  generalize m.run ctx m.reset = result
  obtain ⟨mem, halt⟩ := result
  cases halt <;> rfl

theorem Pairing.Machines.answers {P : Pairing} {m m' : Machine} {r r' : Memory × Halt}
    (hm : P.Machines m m') (hmem : P.Memories r.1 r'.1) (hhalt : P.Halts r.2 r'.2) :
    Both (RunError.Alike P.places) Eq (m.answer r) (m'.answer r') := by
  obtain ⟨mem, halt⟩ := r
  obtain ⟨mem', halt'⟩ := r'
  cases hhalt with
  | canceled => exact .error .canceled
  | failed hpos => exact .error (.failed _ hpos)
  | endless => exact .error (.endless _)
  | finished =>
    have hsteps : mem.steps = mem'.steps := hmem.steps
    refine .ok ?_
    rw [hm.vars_eq hmem, hsteps]

theorem Pairing.Machines.bounded_answers {P : Pairing} {m m' : Machine}
    {r r' : Memory × Option Halt} (hm : P.Machines m m') (hmem : P.Memories r.1 r'.1)
    (hhalt : Option.Rel P.Halts r.2 r'.2) :
    Option.Rel (Both (RunError.Alike P.places) Eq) (r.2.map fun halt => m.answer (r.1, halt))
      (r'.2.map fun halt => m'.answer (r'.1, halt)) := by
  obtain ⟨mem, halt?⟩ := r
  obtain ⟨mem', halt?'⟩ := r'
  cases hhalt with
  | none => exact .none
  | some hhalt => exact .some (hm.answers hmem hhalt)

theorem Both.eq_of_alike {x x' : Except RunError RunResult} (h : Both (RunError.Alike Eq) Eq x x') :
    x = x' := by
  cases h with
  | ok h => rw [h]
  | error he =>
    cases he with
    | failed _ hpos => rw [hpos]
    | _ => rfl

theorem Both.eq_of_rel_alike {x x' : Option (Except RunError RunResult)}
    (h : Option.Rel (Both (RunError.Alike Eq) Eq) x x') : x = x' := by
  cases h with
  | none => rfl
  | some h => rw [h.eq_of_alike]

/-- Whatever it starts with, a lowered program fails only in ways that the source accounts for. -/
theorem Program.runFor_expected {source : Text} {p : Program} {scheme : Scheme} {l : Listing}
    {limit : Option Nat} {inputs : List (Text × Float)} {m : Machine}
    (hparse : Program.parse source = .ok p) (hlower : p.lower scheme = .ok l)
    (hstem : scheme.filled.tempStem.isIdentifier) (hload : Machine.load l limit inputs = .ok m)
    {ctx : Context} {fuel : Nat} {mem : Memory} {halt : Halt}
    (hrun : (m.runFor ctx fuel 0 mem).2 = some halt) :
    halt.Expected (p.names.map (·.text)) ctx := by
  obtain ⟨-, hliteral⟩ := Operand.isLiteral_of_isIdentifier hstem
  obtain ⟨m', hload', -, -, -, hperforms⟩ :=
    Program.performs hparse hlower hliteral (Machine.load_parts hload).1 limit inputs
  obtain rfl := Except.ok.inj (hload.symm.trans hload')
  exact Machine.runFor_expected
    (fun rounds => ⟨_, hperforms mem.store.value? mem.store rounds fun _ _ => rfl⟩) hrun

/-- Alike programs, lowered under any names, give the same answers, after as many rounds if there is
no limit to them. -/
theorem Compilation.run_alike {R : Pos → Pos → Prop} {source : Text} {scheme scheme' : Scheme}
    {t t' : Compilation} (hparse : Program.parse source = .ok t.program)
    (hlower : t.program.lower scheme = .ok t.listing)
    (hlower' : t'.program.lower scheme' = .ok t'.listing) (halike : t.program.Alike R t'.program)
    (hstem : scheme.filled.tempStem.isIdentifier) (hstem' : scheme'.filled.tempStem.isIdentifier)
    (htype : scheme.filled.type = scheme'.filled.type) (ctx : Context) (limit : Option Nat)
    (inputs : List (Text × Float)) :
    Both (RunError.Alike R) Eq (t.run ctx limit inputs).outcome
      (t'.run ctx limit inputs).outcome ∧
    ∀ fuel, Option.Rel (Both (RunError.Alike R) Eq) (t.runFor ctx limit inputs fuel)
      (t'.runFor ctx limit inputs fuel) := by
  have hwf := Program.wellFormed_of_parse hparse
  have hself : t.program.Alike Eq t.program := Stmt.ListAlike.refl (fun _ => rfl) _
  have hP := Program.listings_of_lower halike hwf htype hlower hlower'
  have hQ := Program.listings_of_lower hself hwf rfl hlower hlower
  cases hk : NumKind.ofType? t.listing.type with
  | none =>
    have hk' : NumKind.ofType? t'.listing.type = none := hP.type ▸ hk
    simp only [Compilation.run, Compilation.runFor, Machine.load, hk', hP.type]
    exact ⟨.error (.load _), fun _ => .some (.error (.load _))⟩
  | some k =>
    obtain ⟨m, m', hload, hload', hm⟩ :=
      hP.machines ⟨hstem, hstem'⟩ hlower hlower' hk limit inputs
    obtain ⟨_, _, hload₁, hload₂, hmself⟩ :=
      hQ.machines ⟨hstem, hstem⟩ hlower hlower hk limit inputs
    obtain rfl := Except.ok.inj (hload.symm.trans hload₁)
    obtain rfl := Except.ok.inj (hload.symm.trans hload₂)
    have hinputs := (Machine.load_parts hload).2.2.2
    have hinputs' := (Machine.load_parts hload').2.2.2
    -- the third run starts with the inputs for the names of the source alone
    let bare : Memory :=
      ⟨.ofInputs m.kind (inputs.filter (·.1 ∈ t.program.names.map (·.text))), 0⟩
    have hexpected : ∀ fuel pos f, (m.runFor ctx fuel 0 bare).2 = some (.failed pos f) →
        f.Expected (t.program.names.map (·.text)) :=
      fun _ _ _ hfailed => Program.runFor_expected hparse hlower hstem hload hfailed
    have hreset : (Pairing.ofProgram Eq scheme scheme t.program).Memories bare m.reset := by
      refine ⟨?_, rfl⟩
      rw [Machine.reset, hinputs]
      exact .ofInputs m.kind inputs
    have hreset' : (Pairing.ofProgram R scheme scheme' t.program).Memories bare m'.reset := by
      refine ⟨?_, rfl⟩
      rw [Machine.reset, hinputs', ← hm.kind]
      exact .ofInputs m.kind inputs
    constructor
    · have hfirst := hmself.run hreset ctx hexpected
      have hsecond := hm.run hreset' ctx hexpected
      rw [outcome_run hload, outcome_run hload',
        ← (hmself.answers hfirst.1 hfirst.2).eq_of_alike]
      exact hm.answers hsecond.1 hsecond.2
    · intro fuel
      have hfirst := hmself.runFor hreset ctx fuel 0 (hexpected fuel)
      have hsecond := hm.runFor hreset' ctx fuel 0 (hexpected fuel)
      simp only [runFor, hload, hload']
      rw [← Both.eq_of_rel_alike (hmself.bounded_answers hfirst.1 hfirst.2)]
      exact hm.bounded_answers hsecond.1 hsecond.2

end ThreeAddress
