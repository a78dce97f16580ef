import ThreeAddress.Proofs.Declarations
import ThreeAddress.Proofs.StoredValues

/-! The inputs that a program needs. If every variable is declared first at the top of the program,
no jump passes over a declaration, so that whatever stands in front of an instruction has a value
when control comes to it. All else that is read was reported. -/
namespace ThreeAddress

open Event Instr

theorem Store.has_ofInputs {k : NumKind} {inputs : List (Text × Float)} {x : Text} {v : Float}
    (h : (x, v) ∈ inputs) : (Store.ofInputs k inputs).Has x := by
  unfold ofInputs
  -- in the course of the fold the name has a value, or its input is still to come
  have hstart : Store.Has .empty x ∨ (x, v) ∈ inputs := Or.inr h
  clear h
  generalize Store.empty = s at hstart ⊢
  induction inputs generalizing s with
  | nil => simpa using hstart
  | cons input rest ih =>
    apply ih
    rcases hstart with hs | hmem
    · exact Or.inl (hs.set _ _)
    · rcases List.mem_cons.1 hmem with rfl | hmem
      · exact Or.inl (has_set _ _ _)
      · exact Or.inr hmem

/-- The name that a fault finds without a value. -/
def Fault.name? : Fault → Option Text
  | .unassigned n | .undeclared n => some n
  | _ => none

theorem Operand.value_error {y x : Text} {s : Store} {f : Fault}
    (h : (Operand.ofText y).value s = .error f) (hf : f.name? = some x) :
    y = x ∧ isLiteral y = false ∧ ¬ s.Has x := by
  unfold ofText at h
  split at h
  · cases h
    simp [Fault.name?] at hf
  · split at h
    · split at h <;> cases h
      simp [Fault.name?] at hf
    · rename_i hl
      simp only [value] at h
      split at h <;> cases h
      all_goals
        rename_i hget
        obtain rfl : y = x := by simpa [Fault.name?] using hf
        exact ⟨rfl, by simpa using hl, by simp [Store.Has, Store.value?, hget]⟩

namespace Calculation

def operands : Calculation → List Operand
  | .copy x | .unary _ x => [x]
  | .binary _ x y | .update _ x y => [x, y]

theorem operands_ofRhs (rhs : Rhs) : (ofRhs rhs).operands = rhs.operands.map .ofText := by
  cases rhs <;> rfl

theorem operands_ofStore (type : Option Text) (dest op x : Text) :
    (ofStore dest op x).operands = (Action.store type dest op x).reads.map .ofText := by
  by_cases hop : op = Text.ofString "="
  · simp [ofStore, Action.reads, hop, operands]
  · simp [ofStore, Action.reads, hop, operands]

theorem apply_error {op : Except ArithError BinaryOp} {u v : Value} {f : Fault}
    (h : apply op u v = .error f) : f.name? = none := by
  unfold apply at h
  split at h
  · cases h
    rfl
  · split at h <;> cases h
    rfl

/-- A calculation finds a name without a value when it reads an operand. -/
theorem value_error {c : Calculation} {s : Store} {f : Fault} {x : Text}
    (h : c.value s = .error f) (hf : f.name? = some x) :
    ∃ o ∈ c.operands, o.value s = .error f := by
  cases c with
  | copy o => exact ⟨o, by simp [operands], h⟩
  | unary op o =>
    cases ho : o.value s with
    | error g => exact ⟨o, by simp [operands], by simp_all [value]⟩
    | ok v =>
      cases op with
      | ok op => simp [value, ho] at h
      | error e =>
        simp only [value, ho] at h
        cases h
        simp [Fault.name?] at hf
  | binary op o o' | update op o o' =>
    cases ho : o.value s with
    | error g =>
      cases ho' : o'.value s with
      | error g' => simp_all [value, operands]
      | ok v' => simp_all [value, operands]
    | ok v =>
      cases ho' : o'.value s with
      | error g' => exact ⟨o', by simp [operands], by simp_all [value]⟩
      | ok v' =>
        simp only [value, ho, ho'] at h
        simp [apply_error h] at hf

end Calculation

/-- The variable that an instruction brings into being. -/
def Action.introduces? : Action → Option Text
  | .declare _ name => some name
  | .store type dest _ _ => type.map fun _ => dest
  | _ => none

theorem Action.introduces_of_declares {a : Action} {x : Text} (h : a.declares? = some x) :
    a.introduces? = some x ∨ ∃ type rhs, a = .compute type x rhs := by
  cases a with
  | compute type dest rhs =>
    obtain rfl : dest = x := by simpa [declares?] using h
    exact Or.inr ⟨type, rhs, rfl⟩
  | _ => exact Or.inl h

namespace Step

variable {k : NumKind} {s s' : Store} {step : Step} {a : Action} {place : Text → Nat} {x : Text}

/-- A step that finds a name without a value reads it. -/
theorem exec_error {f : Fault} (h : (ofAction place a).exec k s = (s', .error f))
    (hf : f.name? = some x) : x ∈ a.reads ∧ Operand.isLiteral x = false ∧ ¬ s.Has x := by
  have hread : ∀ {c : Calculation} {t : Store}, c.operands = a.reads.map .ofText →
      (t.Has x ↔ s.Has x) → c.value t = .error f →
      x ∈ a.reads ∧ Operand.isLiteral x = false ∧ ¬ s.Has x := by
    intro c t hops hhas hvalue
    obtain ⟨o, ho, herror⟩ := Calculation.value_error hvalue hf
    rw [hops] at ho
    obtain ⟨y, hy, rfl⟩ := List.mem_map.1 ho
    obtain ⟨rfl, hl, hnot⟩ := Operand.value_error herror hf
    exact ⟨hy, hl, fun hs => hnot (hhas.2 hs)⟩
  cases a with
  | declare | jump | label => cases h
  | unknown code =>
    cases h
    simp [Fault.name?] at hf
  | compute type dest rhs =>
    simp only [ofAction, exec] at h
    split at h <;> cases h
    exact hread (Calculation.operands_ofRhs rhs) Iff.rfl ‹_›
  | store type dest op y =>
    simp only [ofAction, exec] at h
    split at h <;> cases h
    refine hread (Calculation.operands_ofStore type dest op y) ?_ ‹_›
    cases type with
    | none => exact Iff.rfl
    | some type => exact Store.has_declare
  | jumpUnless y target =>
    simp only [ofAction, exec] at h
    split at h <;> cases h
    exact hread (c := .copy (.ofText y)) rfl Iff.rfl ‹_›
  | jumpIf y op z target =>
    simp only [ofAction, exec] at h
    split at h <;> cases h
    exact hread (Calculation.operands_ofRhs (.binary y op z)) Iff.rfl ‹_›

/-- Control goes on, or it goes where the instruction jumps. -/
theorem exec_flow {flow : Flow} (h : (ofAction place a).exec k s = (s', .ok flow)) :
    flow = .next ∨ ∃ l, a.target? = some l ∧ flow = .goto (place l) := by
  cases a with
  | declare | label =>
    cases h
    exact Or.inl rfl
  | unknown => cases h
  | compute | store =>
    simp only [ofAction, exec] at h
    split at h <;> cases h
    exact Or.inl rfl
  | jump l =>
    cases h
    exact Or.inr ⟨l, rfl, rfl⟩
  | jumpUnless y l =>
    simp only [ofAction, exec] at h
    split at h <;> cases h
    split
    · exact Or.inl rfl
    · exact Or.inr ⟨l, rfl, rfl⟩
  | jumpIf y op z l =>
    simp only [ofAction, exec] at h
    split at h <;> cases h
    split
    · exact Or.inr ⟨l, rfl, rfl⟩
    · exact Or.inl rfl

/-- A variable that is brought into being gets a value, unless it is only declared. -/
theorem exec_introduces {flow : Flow} (h : (ofAction place a).exec k s = (s', .ok flow))
    (hx : a.introduces? = some x) : s'.Has x ∨ ∃ type, a = .declare type x := by
  cases a with
  | declare type name =>
    obtain rfl : name = x := by simpa [Action.introduces?] using hx
    exact Or.inr ⟨type, rfl⟩
  | store type dest op y =>
    obtain ⟨-, -, rfl⟩ := Option.map_eq_some_iff.1 hx
    simp only [ofAction, exec] at h
    split at h <;> cases h
    exact Or.inl (Store.has_set _ _ _)
  | _ => simp [Action.introduces?] at hx

end Step

/-- No jump leaves out a variable that is brought into being on the way. -/
def NoLeap (code : List Instr) : Prop :=
  ∀ (i j q : Nat) (a d b : Instr) (l : Text), i < j → j < q → code[i]? = some a →
    code[j]? = some d → code[q]? = some b → a.action.target? = some l →
    b.action.label? = some l → d.action.introduces? = none

namespace NoLeap

variable {code codes : List Instr}

theorem append (h : NoLeap code) (h' : NoLeap codes)
    (hout : ∀ t ∈ targetsOf code, t ∉ labelsOf codes) : NoLeap (code ++ codes) := by
  intro i j q a d b l hij hjq ha hd hb htarget hlabel
  by_cases hi : i < code.length
  · by_cases hq : q < code.length
    · rw [List.getElem?_append_left (by omega)] at ha hd hb
      exact h i j q a d b l hij hjq ha hd hb htarget hlabel
    · rw [List.getElem?_append_left hi] at ha
      rw [List.getElem?_append_right (by omega)] at hb
      have hta : l ∈ targetsOf code := List.mem_filterMap.2 ⟨a, List.mem_of_getElem? ha, htarget⟩
      have hlb : l ∈ labelsOf codes := List.mem_filterMap.2 ⟨b, List.mem_of_getElem? hb, hlabel⟩
      exact absurd hlb (hout l hta)
  · rw [List.getElem?_append_right (by omega)] at ha hd hb
    exact h' _ _ _ a d b l (by omega) (by omega) ha hd hb htarget hlabel

theorem of_targets (h : targetsOf code = []) : NoLeap code := by
  intro i j q a d b l _ _ ha _ _ htarget _
  have hta : l ∈ targetsOf code := List.mem_filterMap.2 ⟨a, List.mem_of_getElem? ha, htarget⟩
  simp [h] at hta

theorem of_none (h : ∀ d ∈ code, d.action.introduces? = none) : NoLeap code := by
  intro i j q a d b l _ _ _ hd _ _ _
  exact h d (List.mem_of_getElem? hd)

/-- Code that brings variables into being before it jumps. -/
theorem of_straight (h : targetsOf code = []) (h' : ∀ d ∈ codes, d.action.introduces? = none) :
    NoLeap (code ++ codes) :=
  (of_targets h).append (of_none h') (by simp [h])

end NoLeap

namespace Machine

/-- The given names have values, and so has every variable brought into being by an instruction in
front of the next one. -/
def Supplied (given : List Text) (code : List Instr) (c : Config) : Prop :=
  (∀ x ∈ given, c.store.Has x) ∧ ∀ {j : Nat} {d : Instr} {x : Text}, j < c.ip →
    code[j]? = some d → d.action.introduces? = some x → c.store.Has x

variable {m : Machine} {code : List Instr} {place : Text → Nat} {given : List Text}
  {c c' : Config} {n : Nat}

/-- The instruction that is executed next. -/
theorem Executes.fetched (h : m.Executes code place) {step : Step} {pos : Pos}
    (hcode : m.code[n]? = some (step, pos)) :
    ∃ i, code[n]? = some i ∧ step = Step.ofAction place i.action := by
  rw [h.fetch] at hcode
  obtain ⟨i, hi, heq⟩ := Option.map_eq_some_iff.1 hcode
  exact ⟨i, hi, (Prod.mk.inj heq).1.symm⟩

theorem Supplied.moves (hexec : m.Executes code place) (hleap : NoLeap code)
    (htargets : ∀ t ∈ targetsOf code, t ∈ labelsOf code)
    (hgiven : ∀ i ∈ code, ∀ type x, i.action = .declare type x → x ∈ given)
    (h : Supplied given code c) (hmoves : m.Moves c c') : Supplied given code c' := by
  obtain ⟨step, pos, flow, hcode, hstep, hip⟩ := hmoves
  obtain ⟨i, hi, rfl⟩ := hexec.fetched hcode
  have hmem := List.mem_of_getElem? hi
  refine ⟨fun x hx => Step.exec_has hstep (h.1 x hx), ?_⟩
  intro j d x hj hd hx
  rcases Nat.lt_trichotomy j c.ip with hlt | rfl | hgt
  · exact Step.exec_has hstep (h.2 hlt hd hx)
  · obtain rfl : i = d := by simpa [hi] using hd
    rcases Step.exec_introduces hstep hx with hhas | ⟨type, hact⟩
    · exact hhas
    · exact Step.exec_has hstep (h.1 x (hgiven i hmem type x hact))
  · -- only a jump gets so far, and then it would leave out `d`
    rcases Step.exec_flow hstep with rfl | ⟨l, htarget, rfl⟩
    · rw [hip, follow] at hj
      omega
    · rw [hip, follow] at hj
      have hl := htargets l (List.mem_filterMap.2 ⟨i, hmem, htarget⟩)
      obtain ⟨b, hb, hlabel⟩ := List.mem_filterMap.1 hl
      obtain ⟨q, hq⟩ := List.mem_iff_getElem?.1 hb
      rw [hexec.label q b l hq hlabel] at hj
      simp [hleap _ _ _ _ _ _ _ hgt hj hi hd hq htarget hlabel] at hx

theorem Supplied.steps (hexec : m.Executes code place) (hleap : NoLeap code)
    (htargets : ∀ t ∈ targetsOf code, t ∈ labelsOf code)
    (hgiven : ∀ i ∈ code, ∀ type x, i.action = .declare type x → x ∈ given)
    (h : Supplied given code c) (hsteps : m.Steps n c c') : Supplied given code c' := by
  induction hsteps with
  | refl => exact h
  | head hmoves _ ih => exact ih (h.moves hexec hleap htargets hgiven hmoves)

/-- Where everything is supplied, a fault finds no name without a value but a temporary. -/
theorem Supplied.name_of_faults {pos : Pos} {f : Fault} {x : Text}
    (hexec : m.Executes code place) (hscope : Scoped given code) (h : Supplied given code c)
    (hfault : m.Faults c pos f) (hf : f.name? = some x) :
    ∃ i ∈ code, ∃ type rhs, i.action = .compute type x rhs := by
  obtain ⟨step, store, hcode, hstep⟩ := hfault
  obtain ⟨i, hi, rfl⟩ := hexec.fetched hcode
  obtain ⟨hread, hl, hnot⟩ := Step.exec_error hstep hf
  have hneeds : x ∈ i.action.needs := by simp [Action.needs, hread, hl]
  rcases hscope.earlier hi hneeds with hknown | ⟨j, d, hj, hd, hdx⟩
  · exact absurd (h.1 x hknown) hnot
  · rcases Action.introduces_of_declares (by simpa using hdx) with hintro | ⟨type, rhs, hact⟩
    · exact absurd (h.2 hj hd hintro) hnot
    · exact ⟨d, List.mem_of_getElem? hd, type, rhs, hact⟩

end Machine

section

variable {scheme : Scheme} {reserved : List Text} {names names' : Names} {code : List Instr}
  {e : Expr} {x : Text} {xs : List Text} {bs : List (Branch Stmt)}

theorem ExprCode.introduces_eq (h : ExprCode scheme reserved e names code x names') :
    ∀ i ∈ code, i.action.introduces? = none := by
  induction h with
  | number | boolean | name => simp
  | binary _ _ ihl ihr =>
    simp only [List.forall_mem_append, List.forall_mem_singleton]
    exact ⟨⟨ihl, ihr⟩, rfl⟩
  | unary _ ih =>
    simp only [List.forall_mem_append, List.forall_mem_singleton]
    exact ⟨ih, rfl⟩

theorem BoundCode.introduces_eq (h : BoundCode scheme reserved e names code x names') :
    ∀ i ∈ code, i.action.introduces? = none := by
  cases h with
  | plain _ h => exact h.introduces_eq
  | copied => exact List.forall_mem_singleton.2 rfl

theorem ConditionsCode.introduces_eq (h : ConditionsCode scheme reserved bs names code xs names') :
    ∀ i ∈ code, i.action.introduces? = none := by
  induction h with
  | nil => simp
  | cons he _ ih => exact List.forall_mem_append.2 ⟨he.introduces_eq, ih⟩

end

/-- The instruction brings into being only what is new to the table and declared by the events; and
what it declares without a value is known. -/
def Introduces (known : List Text) (t : SymbolTable) (es : List Event) (i : Instr) : Prop :=
  ∀ x, i.action.introduces? = some x →
    ¬ t.contains x ∧ x ∈ declaredIn es ∧ ∀ type, i.action = .declare type x → x ∈ known

namespace Introduces

variable {known : List Text} {t t' : SymbolTable} {es fs : List Event} {i : Instr}

theorem of_none (h : i.action.introduces? = none) : Introduces known t es i := by
  intro x hx
  simp [h] at hx

theorem earlier (h : Introduces known t es i) (fs : List Event) :
    Introduces known t (es ++ fs) i := by
  intro x hx
  obtain ⟨hnew, hmem, hdeclare⟩ := h x hx
  exact ⟨hnew, by simp [hmem], hdeclare⟩

theorem later (h : Introduces (known ++ declaredIn es) t' fs i)
    (ht : ∀ x, t'.contains x ↔ t.contains x ∨ x ∈ declaredIn es) :
    Introduces known t (es ++ fs) i := by
  intro x hx
  obtain ⟨hnew, hmem, hdeclare⟩ := h x hx
  rw [ht, not_or] at hnew
  refine ⟨hnew.1, by simp [hmem], fun type hact => ?_⟩
  rcases List.mem_append.1 (hdeclare type hact) with hknown | hes
  · exact hknown
  · exact absurd hes hnew.2

end Introduces

theorem StoreCode.introduced {scheme : Scheme} {known : List Text} {t : SymbolTable}
    {es : List Event} {code : List Instr} {target : Name} {op : Kind} {x : Text} {pos : Pos}
    (h : StoreCode scheme (!t.contains target.text) target.text op x pos code)
    (hcompound : op ≠ .op .assign → target.text ∈ known) (hes : declaredIn es = []) :
    ∀ i ∈ code, Introduces known t (es ++ [.declare target]) i := by
  have hmem : target.text ∈ declaredIn (es ++ [.declare target]) := by
    simp [hes, Event.declares]
  cases h with
  | first hnew =>
    refine List.forall_mem_singleton.2 fun y hy => ?_
    obtain rfl : target.text = y := by simpa [Action.introduces?] using hy
    exact ⟨by simpa using hnew, hmem, by simp⟩
  | declared hnew hop =>
    refine List.forall_mem_cons.2 ⟨fun y hy => ?_, List.forall_mem_singleton.2 (.of_none rfl)⟩
    obtain rfl : target.text = y := by simpa [Action.introduces?] using hy
    exact ⟨by simpa using hnew, hmem, fun _ _ => hcompound hop⟩
  | plain => exact List.forall_mem_singleton.2 (.of_none rfl)

namespace Lowered

variable {scheme : Scheme} {reserved : List Text} {loop : Option Loop} {task : Task}
  {names names' : Names} {code : List Instr}

/-- A task brings into being only what it is the first to declare; where that gets no value at once,
it is known. -/
theorem introduced (h : Lowered scheme reserved loop task names code names')
    (hwf : task.WellFormed) {known : List Text} (hclean : Clean known task.events) :
    ∀ i ∈ code, Introduces known names.symbols task.events i := by
  induction h generalizing known with
  | nil | chainNil => simp
  | breakLoop | continueLoop => exact List.forall_mem_singleton.2 (.of_none rfl)
  | @cons _ s rest _ _ _ code codes hs _ ih ih' =>
    rcases clean_append.1 hclean with ⟨hfirst, hrest⟩
    refine List.forall_mem_append.2 ⟨fun i hi => ?_, fun i hi => ?_⟩
    · exact (ih hwf.1 hfirst i hi).earlier _
    · exact (ih' hwf.2 hrest i hi).later hs.symbols
  | @assign _ span target op value _ n₁ code stores x he hs =>
    rcases hwf with ⟨-, hop, -⟩
    have hclean : Clean known (Stmt.assign span target op value).events := hclean
    simp only [Stmt.events, clean_append] at hclean
    refine List.forall_mem_append.2 ⟨fun i hi => .of_none (he.introduces_eq i hi), ?_⟩
    rw [he.symbols_eq] at hs
    refine hs.introduced (fun hne => ?_) ?_
    · have hc : op.isCompound := by simp [Kind.isCompound, hop, hne]
      simpa [hc, Clean, DeclaredFirst.cons_iff, Event.uses] using hclean.1.2
    · cases hc : op.isCompound <;> simp [Event.declares]
  | eval he => exact fun i hi => .of_none (he.introduces_eq i hi)
  | @branch _ span bs otherwise _ n₁ _ _ code clauses last xs _ hc hchain _ ih ih' =>
    rcases hwf with ⟨-, hwb, hwo⟩
    rw [Task.events_branch span bs otherwise (scheme.label (n₁.labels + 1)) xs] at hclean ⊢
    rcases clean_append.1 hclean with ⟨hbodies, hlast⟩
    rcases clean_append.1 hbodies with ⟨-, hbodies⟩
    simp only [List.forall_mem_append, List.forall_mem_singleton]
    refine ⟨⟨⟨fun i hi => .of_none (hc.introduces_eq i hi), fun i hi => ?_⟩, fun i hi => ?_⟩,
      .of_none rfl⟩
    · refine ((ih hwb hbodies i hi).later fun x => ?_).earlier _
      simp [Names.withLabel, hc.symbols_eq]
    · refine (ih' ((Stmt.wellFormedBody_iff _).1 hwo) hlast i hi).later fun x => ?_
      rw [hchain.symbols]
      simp [Names.withLabel, hc.symbols_eq]
  | @chainCons _ stop x xs cond body rest n _ _ inner clauses hb _ ih ih' =>
    rcases hwf with ⟨-, ⟨-, hwb⟩, hwr⟩
    rw [Task.events_chain_cons] at hclean ⊢
    rcases clean_append.1 hclean with ⟨hfirst, hrest⟩
    simp only [List.forall_mem_append, List.forall_mem_cons]
    refine ⟨⟨⟨⟨.of_none rfl, by simp⟩, fun i hi => ?_⟩, .of_none rfl, .of_none rfl, by simp⟩,
      fun i hi => ?_⟩
    · exact (ih ((Stmt.wellFormedBody_iff _).1 hwb) hfirst i hi).earlier _
    · exact (ih' hwr hrest i hi).later hb.symbols
  | @whileLoop _ span cond body n n₁ _ code inner x he _ ih =>
    rcases hwf with ⟨-, -, hwb⟩
    rw [Task.events_whileLoop] at hclean ⊢
    rcases clean_append.1 hclean with ⟨-, hbody⟩
    simp only [List.forall_mem_append, List.forall_mem_cons]
    refine ⟨⟨⟨⟨⟨.of_none rfl, by simp⟩, fun i hi => .of_none (he.introduces_eq i hi)⟩,
      .of_none rfl, by simp⟩, fun i hi => ?_⟩, .of_none rfl, .of_none rfl, by simp⟩
    refine (ih ((Stmt.wellFormedBody_iff _).1 hwb) hbody i hi).later fun x => ?_
    simp [he.symbols_eq, Names.withLabel]
  | @forLoop _ span var range body _ _ _ n₃ named _ code₁ code₂ code₃ inner first last step type
      h₁ h₂ h₃ hn ht _ ih =>
    rcases hwf with ⟨-, -, -, hwb⟩
    obtain ⟨zero, hzero, hevents⟩ := Task.events_forLoop span var range body
    rw [hevents] at hclean ⊢
    rcases clean_append.1 hclean with ⟨-, hbody⟩
    have hsymbols := h₃.symbols_eq.trans (h₂.symbols_eq.trans h₁.symbols_eq)
    simp only [List.forall_mem_append, List.forall_mem_cons]
    refine ⟨⟨⟨⟨⟨fun i hi => .of_none (h₁.introduces_eq i hi),
      fun i hi => .of_none (h₂.introduces_eq i hi)⟩, fun i hi => .of_none (h₃.introduces_eq i hi)⟩,
      ?_, .of_none rfl, .of_none rfl, by simp⟩, fun i hi => ?_⟩, .of_none rfl, .of_none rfl,
      .of_none rfl, .of_none rfl, by simp⟩
    · intro x hx
      obtain ⟨declared, htype, rfl⟩ := Option.map_eq_some_iff.1 hx
      refine ⟨fun hold => ?_, by simp [Event.declares], by simp⟩
      rw [← hsymbols] at hold
      simp [ht, hold] at htype
    · refine (ih ((Stmt.wellFormedBody_iff _).1 hwb) hbody i hi).later fun x => ?_
      rw [hn, Names.withLabel, Names.withLabel, Names.withLabel, Names.withName,
        SymbolTable.contains_declare, hsymbols]
      simp [hzero, Event.declares]

end Lowered

namespace Stmt

/-- The variable that a statement itself declares. -/
def declares? : Stmt → Option Text
  | .assign _ target _ _ => some target.text
  | .forLoop _ var _ _ => some var.text
  | _ => none

/-- The other variables that are declared somewhere in a statement. -/
def innerDeclared (s : Stmt) : List Text := (declaredIn s.events).filter (s.declares? != some ·)

end Stmt

/-- The first declaration of every variable is an assignment at the top of the program, or a loop at
the top whose counter it is: what is declared further in was declared by a statement in front. -/
def Program.DeclaresAtTop (p : Program) : Prop :=
  DeclaredFirst Stmt.innerDeclared (declaredIn ·.events) [] p.stmts

instance (p : Program) : Decidable p.DeclaresAtTop :=
  inferInstanceAs (Decidable (DeclaredFirst _ _ _ _))

namespace Lowered

variable {scheme : Scheme} {reserved known : List Text} {names names' : Names} {code : List Instr}

theorem noLeap_stmt {s : Stmt} (h : Lowered scheme reserved none (.stmt s) names code names')
    (hwf : s.WellFormed) (hclean : Clean known s.events)
    (hinner : ∀ x ∈ s.innerDeclared, names.symbols.contains x) : NoLeap code := by
  -- a statement that declares nothing itself brings nothing into being
  have hnone : s.declares? = none → NoLeap code := by
    intro hs
    refine .of_none fun i hi => ?_
    cases hx : i.action.introduces? with
    | none => rfl
    | some x =>
      obtain ⟨hnew, hmem, -⟩ := h.introduced hwf hclean i hi x hx
      exact absurd (hinner x (List.mem_filter.2 ⟨hmem, by simp [hs]⟩)) hnew
  cases h with
  | eval | branch | whileLoop => exact hnone rfl
  | assign he hs => exact .of_targets (by simp [he.straight.2, hs.straight.2])
  | @forLoop _ span var range body _ _ _ _ named _ _ _ _ inner _ _ _ _ h₁ h₂ h₃ hn _ hb =>
    obtain ⟨zero, hzero, hevents⟩ := Task.events_forLoop span var range body
    have hevents : (Stmt.forLoop span var range body).events = _ := hevents
    have hbody : Clean _ (Task.list (Stmt.ofBody body)).events :=
      (clean_append.1 (hevents ▸ hclean)).2
    have hinner' : ∀ i ∈ inner, i.action.introduces? = none := by
      intro i hi
      cases hx : i.action.introduces? with
      | none => rfl
      | some x =>
        obtain ⟨hnew, hmem, -⟩ :=
          hb.introduced ((Stmt.wellFormedBody_iff _).1 hwf.2.2.2) hbody i hi x hx
        rw [hn, Names.withLabel, Names.withLabel, Names.withLabel, Names.withName,
          SymbolTable.contains_declare, not_or, h₃.symbols_eq, h₂.symbols_eq, h₁.symbols_eq] at hnew
        refine absurd (hinner x (List.mem_filter.2 ⟨?_, ?_⟩)) hnew.1
        · simp [hevents, hmem]
        · simpa [Stmt.declares?] using Ne.symm hnew.2
    -- the store that brings the counter into being is the last instruction before the test
    rw [List.append_assoc _ _ inner, List.append_assoc]
    rw [List.cons_append, List.cons_append, List.append_cons]
    refine .of_straight ?_ ?_
    · simp [h₁.straight.2, h₂.straight.2, h₃.straight.2, Action.target?]
    · simpa [or_imp, forall_and, Action.introduces?] using hinner'

theorem noLeap {ss : List Stmt} {seen : List Text}
    (h : Lowered scheme reserved none (.list ss) names code names')
    (hwf : Stmt.WellFormedList ss) (hclean : Clean known (Stmt.eventsOfList ss))
    (htop : DeclaredFirst Stmt.innerDeclared (declaredIn ·.events) seen ss)
    (hseen : ∀ x ∈ seen, names.symbols.contains x) : NoLeap code := by
  induction ss generalizing names code known seen with
  | nil =>
    cases h
    exact .of_none (by simp)
  | cons s rest ih =>
    rcases htop with ⟨hinner, hrest⟩
    rcases clean_append.1 hclean with ⟨hclean, hcleanRest⟩
    cases h with
    | @cons _ _ _ _ names₁ _ code codes hs hr =>
      have hfirst := hs.noLeap_stmt hwf.1 hclean fun x hx => hseen x (hinner x hx)
      refine hfirst.append (ih hr hwf.2 hcleanRest hrest fun x hx => ?_) fun t ht => ?_
      · rw [hs.symbols]
        rcases List.mem_append.1 hx with hx | hx
        · exact Or.inl (hseen x hx)
        · exact Or.inr hx
      · have hnodup := (Lowered.cons hs hr).numbered.nodup Scheme.label_injective
        rw [labelsOf_append, List.nodup_append] at hnodup
        exact fun hl => hnodup.2.2 t (hs.closed rfl t ht) t hl rfl

end Lowered

/-- From a memory in which the reported names have values, a run of a program whose variables are
declared at the top never comes upon a name that has none. -/
theorem Program.name_of_faults {source : Text} {p : Program} {scheme : Scheme} {listing : Listing}
    {k : NumKind} (hparse : Program.parse source = .ok p) (hlower : p.lower scheme = .ok listing)
    (hstem : Operand.isLiteral scheme.filled.tempStem = false)
    (hk : NumKind.ofType? listing.type = some k) (htop : p.DeclaresAtTop) {limit : Option Nat}
    {inputs : List (Text × Float)} {m : Machine}
    (hload : Machine.load listing limit inputs = .ok m) {s : Store}
    (hs : ∀ x ∈ p.reported, s.Has x) {n : Nat} {c : Machine.Config} {pos : Pos} {f : Fault}
    (hsteps : m.Steps n ⟨0, s⟩ c) (hfault : m.Faults c pos f) : f.name? = none := by
  obtain ⟨names, hcode⟩ := Program.lowered_of_lower hlower
  have hwf : Task.WellFormed (.list p.stmts) := Program.wellFormed_of_parse hparse
  obtain ⟨m', place, hload', -, -, -, hexec⟩ := hcode.load hk limit inputs
  obtain rfl : m = m' := by simpa [hload] using hload'
  obtain ⟨m', hload', -, -, -, hperforms⟩ := Program.performs hparse hlower hstem hk limit inputs
  obtain rfl : m = m' := by simpa [hload] using hload'
  have hgiven : ∀ i ∈ listing.code, ∀ type x, i.action = .declare type x → x ∈ p.reported := by
    intro i hi type x hact
    obtain ⟨-, -, hdeclare⟩ := hcode.introduced hwf p.clean_events i hi x (by rw [hact]; rfl)
    exact hdeclare type hact
  have hleap := hcode.noLeap hwf p.clean_events htop (by simp)
  have hstart : Machine.Supplied p.reported listing.code ⟨0, s⟩ :=
    ⟨hs, fun hj _ _ => absurd hj (Nat.not_lt_zero _)⟩
  have hsupplied := hstart.steps hexec hleap (hcode.closed rfl) hgiven hsteps
  cases hf : f.name? with
  | none => rfl
  | some x =>
    obtain ⟨i, hi, type, rhs, hact⟩ :=
      hsupplied.name_of_faults hexec (Program.scoped_of_lower hparse hlower) hfault hf
    -- a temporary is no name of the program, and only such a name can be missing
    have hsound := hcode.sound hwf i hi
    rw [hact] at hsound
    obtain ⟨-, hexpected⟩ :=
      (hperforms s.value? s (n + 1) fun _ _ => rfl).of_faults hsteps hfault (Nat.lt_succ_self n)
    cases f <;> simp only [Fault.name?, Option.some.injEq, reduceCtorEq] at hf <;> subst hf <;>
      exact absurd hexpected hsound

/-- The warnings list the inputs that a program needs. If the variables of a program are declared at
the top, and every name that is reported as used before it is assigned is given a value, then no
run of the compiled program fails for want of a value, whatever the limit. -/
theorem reported_inputs_suffice {settings : Settings} {source : Text} {t : Compilation}
    {k : NumKind} (hcompile : (compile settings source).outcome = .ok t)
    (htop : t.program.DeclaresAtTop) (hk : NumKind.ofType? t.listing.type = some k)
    (limit : Option Nat) (inputs : List (Text × Float))
    (hinputs : ∀ x ∈ t.program.reported, ∃ v, (x, v) ∈ inputs) :
    ∃ m, Machine.load t.listing limit inputs = .ok m ∧
      (∀ ctx pos x, (m.run ctx m.reset).2 ≠ .failed pos (.undeclared x) ∧
        (m.run ctx m.reset).2 ≠ .failed pos (.unassigned x)) ∧
      ∀ ctx fuel pos x,
        (m.runFor ctx fuel 0 m.reset).2 ≠ some (.failed pos (.undeclared x)) ∧
        (m.runFor ctx fuel 0 m.reset).2 ≠ some (.failed pos (.unassigned x)) := by
  obtain ⟨hstem, hparse, hlower⟩ := compile_eq_ok hcompile
  obtain ⟨hne, hliteral⟩ := Operand.isLiteral_of_isIdentifier hstem
  rw [← Scheme.tempStem_filled hne] at hliteral
  obtain ⟨m, hload, rfl, -, rfl, -⟩ := Program.performs hparse hlower hliteral hk limit inputs
  have hstart : ∀ x ∈ t.program.reported, m.reset.store.Has x := by
    intro x hx
    obtain ⟨v, hv⟩ := hinputs x hx
    exact Store.has_ofInputs hv
  have hbounded : ∀ ctx fuel pos f,
      (m.runFor ctx fuel 0 m.reset).2 = some (.failed pos f) → f.name? = none := by
    intro ctx fuel pos f hfailed
    obtain ⟨n, c, hsteps, hexplains, -⟩ := m.runFor_steps ctx fuel 0 m.reset
    rw [hfailed] at hexplains
    rcases hexplains with hfault | ⟨-, steps, rfl⟩
    · exact Program.name_of_faults hparse hlower hliteral hk htop hload hstart hsteps hfault
    · rfl
  have hrun : ∀ ctx pos f, (m.run ctx m.reset).2 = .failed pos f → f.name? = none := by
    intro ctx pos f hfailed
    unfold Machine.run at hfailed
    split at hfailed
    · rename_i hhalt
      exact hbounded ctx (m.fuel m.reset) pos f (by simpa [hhalt] using hfailed)
    · cases hfailed
      rfl
  refine ⟨m, hload, fun ctx pos x => ⟨?_, ?_⟩, fun ctx fuel pos x => ⟨?_, ?_⟩⟩
  · intro hfailed
    simpa [Fault.name?] using hrun ctx pos _ hfailed
  · intro hfailed
    simpa [Fault.name?] using hrun ctx pos _ hfailed
  · intro hfailed
    simpa [Fault.name?] using hbounded ctx fuel pos _ hfailed
  · intro hfailed
    simpa [Fault.name?] using hbounded ctx fuel pos _ hfailed

/-- A loop around a compound assignment, with the one input that is reported. -/
theorem reported_input_of_countdown : ∃ (t : Compilation) (m : Machine),
    (compile ⟨⟨"int", [], []⟩, true, []⟩ "x = y; while x: { x -= y }").outcome = .ok t ∧
      t.program.DeclaresAtTop ∧ t.program.reported = [Text.ofString "y"] ∧
      Machine.load t.listing none [("y", 1.0)] = .ok m ∧
      ∀ ctx pos x, (m.run ctx m.reset).2 ≠ .failed pos (.undeclared x) := by
  have hrun : (compile ⟨⟨"int", [], []⟩, true, []⟩
      "x = y; while x: { x -= y }").outcome.toOption.map
        (fun t => (decide t.program.DeclaresAtTop, t.program.reported, t.listing.type)) =
      some (true, [Text.ofString "y"], Text.ofString "int") := by
    decide +kernel
  obtain ⟨t, hcompile, hvalues⟩ := exists_of_map_compile hrun
  simp only [Prod.mk.injEq, decide_eq_true_eq] at hvalues
  obtain ⟨htop, hreported, htype⟩ := hvalues
  have hk : NumKind.ofType? t.listing.type = some .int := by
    rw [htype]
    decide
  obtain ⟨m, hload, hnever, -⟩ := reported_inputs_suffice hcompile htop hk none
    [("y", 1.0)] (by simp [hreported])
  exact ⟨t, m, hcompile, htop, hreported, hload, fun ctx pos x => (hnever ctx pos x).1⟩

end ThreeAddress
