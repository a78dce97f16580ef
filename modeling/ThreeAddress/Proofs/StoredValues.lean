import ThreeAddress.Proofs.StepBudget

/-! The values of variables through any requests to a machine. An instruction gives at most one name
a value, which has the class of the program's type, and gives none if it fails. So a run only adds
values and replaces them, and one that fails leaves those that the instructions before have left. -/
namespace ThreeAddress

namespace Store

variable {s : Store} {k : NumKind} {x : Text}

/-- The name has a value. -/
def Has (s : Store) (x : Text) : Prop := (s.value? x).isSome

theorem has_declare {y : Text} : (s.declare y).Has x ↔ s.Has x := by
  rw [Has, value?_declare, Has]

theorem has_set (s : Store) (x : Text) (v : Value) : (s.set x v).Has x := by
  simp [Has, value?_set]

theorem Has.set (h : s.Has x) (y : Text) (v : Value) : (s.set y v).Has x := by
  by_cases hxy : y = x
  · rw [hxy]
    exact has_set s x v
  · rwa [Has, value?_set, if_neg hxy]

theorem Has.isDeclared (h : s.Has x) : s.isDeclared x := by
  rw [Has, value?_eq] at h
  exact s.covered x h

/-- All values are of the class `k`. -/
def OfKind (k : NumKind) (s : Store) : Prop := ∀ x v, s.value? x = some v → v.kind = k

theorem OfKind.set (h : s.OfKind k) (x : Text) (v : Value) : (s.set x (v.convert k)).OfKind k := by
  intro y w hw
  rw [value?_set] at hw
  split at hw
  · obtain rfl := Option.some.inj hw
    exact Value.kind_convert k v
  · exact h y w hw

theorem ofKind_ofInputs (k : NumKind) (inputs : List (Text × Float)) :
    (ofInputs k inputs).OfKind k := by
  have hfold : ∀ s : Store, s.OfKind k → (inputs.foldl
      (fun s (input : Text × Float) => s.set input.1 (Value.convert k (.float input.2))) s).OfKind
        k := by
    induction inputs with
    | nil => exact fun _ h => h
    | cons input rest ih => exact fun s h => ih _ (h.set _ _)
  exact hfold .empty fun x v hv => by simp [value?] at hv

end Store

namespace Step

variable {k : NumKind} {s s' : Store} {step : Step} {result : Except Fault Flow} {x : Text}

/-- What an instruction does to values. -/
inductive Effect (k : NumKind) (s s' : Store) (result : Except Fault Flow) : Prop
  | keeps : (∀ x, s'.value? x = s.value? x) → Effect k s s' result
  /-- One name gets a value, and control goes on. -/
  | gives (dest : Text) (v : Value) : result = .ok .next →
      (∀ x, s'.value? x = if dest = x then some (v.convert k) else s.value? x) →
      Effect k s s' result

theorem exec_effect (h : step.exec k s = (s', result)) : Effect k s s' result := by
  cases step with
  | declare name =>
    cases h
    exact .keeps (s.value?_declare name)
  | assign declares dest calculation =>
    have hdeclare : ∀ x, (if declares then s.declare dest else s).value? x = s.value? x := by
      cases declares with
      | true => exact s.value?_declare dest
      | false => exact fun _ => rfl
    simp only [exec] at h
    split at h <;> cases h
    · rename_i v _
      refine .gives dest v rfl fun x => ?_
      rw [Store.value?_set, hdeclare]
    · exact .keeps hdeclare
  | jumpUnless o target | jumpIf test target =>
    simp only [exec] at h
    split at h <;> cases h <;> exact .keeps fun _ => rfl
  | jump target | label | unknown code =>
    cases h
    exact .keeps fun _ => rfl

/-- No step takes a value away. -/
theorem exec_has (h : step.exec k s = (s', result)) (hx : s.Has x) : s'.Has x := by
  cases exec_effect h with
  | keeps hkeeps => rwa [Store.Has, hkeeps]
  | gives dest v _ hgives =>
    rw [Store.Has, hgives]
    split
    · rfl
    · exact hx

theorem exec_ofKind (h : step.exec k s = (s', result)) (hs : s.OfKind k) : s'.OfKind k := by
  intro x w hw
  cases exec_effect h with
  | keeps hkeeps => exact hs x w (hkeeps x ▸ hw)
  | gives dest v _ hgives =>
    rw [hgives] at hw
    split at hw
    · obtain rfl := Option.some.inj hw
      exact Value.kind_convert k v
    · exact hs x w hw

/-- A step that fails gives no name a value. -/
theorem exec_values_of_error {f : Fault} (h : step.exec k s = (s', .error f)) (x : Text) :
    s'.value? x = s.value? x := by
  cases exec_effect h with
  | keeps hkeeps => exact hkeeps x
  | gives _ _ hresult => cases hresult

end Step

namespace Machine

variable {m : Machine} {n : Nat} {c c' : Config} {x : Text}

theorem Steps.has (h : m.Steps n c c') (hx : c.store.Has x) : c'.store.Has x := by
  induction h with
  | refl => exact hx
  | head hmoves _ ih =>
    obtain ⟨step, pos, flow, -, hexec, -⟩ := hmoves
    exact ih (Step.exec_has hexec hx)

theorem Steps.ofKind (h : m.Steps n c c') (hc : c.store.OfKind m.kind) :
    c'.store.OfKind m.kind := by
  induction h with
  | refl => exact hc
  | head hmoves _ ih =>
    obtain ⟨step, pos, flow, -, hexec, -⟩ := hmoves
    exact ih (Step.exec_ofKind hexec hc)

/-- The values that a run leaves are those after the `n` instructions that it has completed. The
next one was not begun, or it is the one that failed. -/
theorem runFor_completed (m : Machine) (ctx : Context) (fuel ip : Nat) (mem : Memory) :
    ∃ n c, m.Steps n ⟨ip, mem.store⟩ c ∧
      (∀ x, (m.runFor ctx fuel ip mem).1.store.value? x = c.store.value? x) ∧
      ((m.runFor ctx fuel ip mem).1.steps = mem.steps + n ∨
        ((m.runFor ctx fuel ip mem).1.steps = mem.steps + n + 1 ∧
          ∃ pos f, (m.runFor ctx fuel ip mem).2 = some (.failed pos f) ∧
            m.Faults c pos f)) := by
  induction fuel generalizing ip mem with
  | zero => exact ⟨0, _, .refl _, fun _ => rfl, Or.inl rfl⟩
  | succ fuel ih =>
    rw [runFor_succ]
    have ht := m.turned ctx ip mem
    cases hturn : m.turn ctx ip mem with
    | stop mem' halt =>
      rw [hturn] at ht
      cases ht with
      | ends | limited | canceled => exact ⟨0, _, .refl _, fun _ => rfl, Or.inl rfl⟩
      | fails hcode _ _ hexec =>
        exact ⟨0, _, .refl _, Step.exec_values_of_error hexec,
          Or.inr ⟨rfl, _, _, rfl, _, _, hcode, hexec⟩⟩
    | go ip' mem' =>
      rw [hturn] at ht
      cases ht with
      | goes hcode _ _ hexec =>
        obtain ⟨n, c, hsteps, hvalues, hcount⟩ := ih (follow ip _) ⟨_, mem.steps + 1⟩
        refine ⟨n + 1, c, .head ⟨_, _, _, hcode, hexec, rfl⟩ hsteps, hvalues, ?_⟩
        simp only [Turn.resume, Nat.add_assoc, Nat.add_comm 1] at hcount ⊢
        exact hcount

/-- What a run from `mem` to `mem'` does to values. It takes none away, and leaves those after the
`n` instructions that it has completed, also where one more has failed. -/
def Leaves (m : Machine) (mem mem' : Memory) (halt : Option Halt) : Prop :=
  (∀ x, mem.store.Has x → mem'.store.Has x) ∧
  ∃ n c, m.Steps n ⟨0, mem.store⟩ c ∧ (∀ x, mem'.store.value? x = c.store.value? x) ∧
    (mem'.steps = mem.steps + n ∨
      (mem'.steps = mem.steps + n + 1 ∧ ∃ pos f, halt = some (.failed pos f) ∧ m.Faults c pos f))

theorem runFor_leaves (m : Machine) (ctx : Context) (fuel : Nat) (mem : Memory) :
    m.Leaves mem (m.runFor ctx fuel 0 mem).1 (m.runFor ctx fuel 0 mem).2 := by
  refine ⟨fun x hx => ?_, m.runFor_completed ctx fuel 0 mem⟩
  obtain ⟨n, c, hsteps, hvalues, -⟩ := m.runFor_completed ctx fuel 0 mem
  rw [Store.Has, hvalues]
  exact hsteps.has hx

theorem run_leaves (m : Machine) (ctx : Context) (mem : Memory) :
    m.Leaves mem (m.run ctx mem).1 (some (m.run ctx mem).2) := by
  have h := m.runFor_leaves ctx (m.fuel mem) mem
  unfold run
  generalize m.runFor ctx (m.fuel mem) 0 mem = result at h ⊢
  obtain ⟨mem', _ | halt⟩ := result
  · obtain ⟨hhas, n, c, hsteps, hvalues, hcount⟩ := h
    refine ⟨hhas, n, c, hsteps, hvalues, hcount.imp_right ?_⟩
    rintro ⟨-, pos, f, hnone, -⟩
    cases hnone
  · exact h

/-- The memories of a machine after any requests, or at any moment of a run. -/
inductive Reaches (m : Machine) : Memory → Prop
  | reset : Reaches m m.reset
  | run {mem : Memory} (ctx : Context) (fuel : Nat) :
      Reaches m mem → Reaches m (m.runFor ctx fuel 0 mem).1

theorem Reaches.ofKind {mem : Memory} (h : m.Reaches mem) : mem.store.OfKind m.kind := by
  induction h with
  | reset => exact Store.ofKind_ofInputs m.kind m.inputs
  | run ctx fuel _ ih =>
    obtain ⟨-, n, c, hsteps, hvalues, -⟩ := m.runFor_leaves ctx fuel _
    intro x v hv
    exact hsteps.ofKind ih x v (hvalues x ▸ hv)

theorem reaches_session (m : Machine) (requests : List Request) :
    m.Reaches (m.session requests) := by
  have hfold : ∀ mem : Memory, m.Reaches mem → m.Reaches (requests.foldl m.serve mem) := by
    induction requests with
    | nil => exact fun _ h => h
    | cons request rest ih =>
      intro mem h
      cases request with
      | run ctx =>
        refine ih _ ?_
        rw [serve, run_memory]
        exact .run ctx _ h
      | reset => exact ih _ .reset
  exact hfold m.reset .reset

/-- After any requests to a machine, also where a run is left before its end, and after any number
of instructions of the next run, every value is of the class of the program's type and belongs to a
declared name, and none has been taken away since the run began. However a run ends, and however far
it has come if it does not, it leaves the values that its completed instructions have left. -/
theorem values_survive_failure {l : Listing} {maxSteps : Int} {inputs : List (Text × Float)}
    (hload : load l (limitOf maxSteps) inputs = .ok m) :
    (∀ requests, m.Reaches (m.session requests)) ∧
    ∀ mem, m.Reaches mem →
      (∀ n c, m.Steps n ⟨0, mem.store⟩ c →
        (∀ x v, c.store.value? x = some v →
          NumKind.ofType? l.type = some v.kind ∧ c.store.isDeclared x) ∧
        ∀ x, mem.store.Has x → c.store.Has x) ∧
      (∀ ctx fuel mem' halt, m.runFor ctx fuel 0 mem = (mem', halt) → m.Leaves mem mem' halt) ∧
      ∀ ctx mem' halt, m.run ctx mem = (mem', halt) → m.Leaves mem mem' (some halt) := by
  refine ⟨m.reaches_session, fun mem hmem => ⟨fun n c hsteps => ?_, ?_, ?_⟩⟩
  · refine ⟨fun x v hv => ?_, fun x hx => hsteps.has hx⟩
    rw [(load_parts hload).1, hsteps.ofKind hmem.ofKind x v hv]
    exact ⟨rfl, Store.Has.isDeclared (by simp [Store.Has, hv])⟩
  · intro ctx fuel mem' halt hrun
    have h := m.runFor_leaves ctx fuel mem
    rwa [hrun] at h
  · intro ctx mem' halt hrun
    have h := m.run_leaves ctx mem
    rwa [hrun] at h

/-- A compound assignment declares a new variable, cannot read it, and fails without a value for it;
what an earlier run gave to `x` is still there. -/
theorem failed_assignment_gives_no_value : ∃ m mem mem',
    load ⟨[⟨.store (some "int") "x" "=" "1", .unknown⟩,
      ⟨.store (some "int") "y" "+=" "x", .unknown⟩], "int", [], 0, 0⟩ (limitOf 0) [] = .ok m ∧
    m.session [.run .background] = mem ∧
    m.run .background mem = (mem', .failed .unknown (.unassigned "y")) ∧
    mem'.store.isDeclared "y" ∧ mem'.store.value? "y" = none ∧ mem'.store.Has "x" ∧
    m.Leaves mem mem' (some (.failed .unknown (.unassigned "y"))) := by
  have hrun : ∃ m mem',
      load ⟨[⟨.store (some "int") "x" "=" "1", .unknown⟩,
        ⟨.store (some "int") "y" "+=" "x", .unknown⟩], "int", [], 0, 0⟩ (limitOf 0) [] = .ok m ∧
      m.run .background (m.session [.run .background]) =
        (mem', .failed .unknown (.unassigned "y")) ∧
      mem'.store.isDeclared "y" ∧ mem'.store.value? "y" = none ∧
      (m.session [.run .background]).store.Has "x" := ⟨_, _, rfl, rfl, rfl, rfl, rfl⟩
  obtain ⟨m, mem', hload, hrun, hdeclared, hnone, hx⟩ := hrun
  obtain ⟨hreaches, hvalues⟩ := values_survive_failure hload
  obtain ⟨-, -, hends⟩ := hvalues _ (hreaches [.run .background])
  have hleaves := hends .background mem' _ hrun
  exact ⟨m, _, mem', hload, rfl, hrun, hdeclared, hnone, hleaves.1 _ hx, hleaves⟩

end Machine

end ThreeAddress
