import ThreeAddress.Proofs.Safety
import ThreeAddress.Proofs.SymbolTables
import ThreeAddress.Warning

/-! Names are declared before they are used. The warnings about a program are found in the order of
the source, and lowered code keeps to that order: whatever an instruction uses is declared by one in
front of it, or there was a warning. -/
namespace ThreeAddress

/-- Whatever is used is known from the start, or something in front of it declares it. -/
def DeclaredFirst {α : Type} (uses declares : α → List Text) (known : List Text) : List α → Prop
  | [] => True
  | a :: rest =>
    (∀ x ∈ uses a, x ∈ known) ∧ DeclaredFirst uses declares (known ++ declares a) rest

namespace DeclaredFirst

variable {α : Type} {uses declares : α → List Text} {known known' : List Text}

instance decide (known : List Text) : (as : List α) →
    Decidable (DeclaredFirst uses declares known as)
  | [] => .isTrue trivial
  | a :: rest =>
    have := decide (known ++ declares a) rest
    inferInstanceAs (Decidable (_ ∧ _))

@[simp] theorem nil : DeclaredFirst uses declares known [] := trivial

theorem cons_iff {a : α} {rest : List α} : DeclaredFirst uses declares known (a :: rest) ↔
    (∀ x ∈ uses a, x ∈ known) ∧ DeclaredFirst uses declares (known ++ declares a) rest := Iff.rfl

theorem append_iff {as bs : List α} : DeclaredFirst uses declares known (as ++ bs) ↔
    DeclaredFirst uses declares known as ∧
      DeclaredFirst uses declares (known ++ as.flatMap declares) bs := by
  induction as generalizing known with
  | nil => simp
  | cons a as ih => simp [cons_iff, ih, and_assoc]

theorem mono {as : List α} (h : DeclaredFirst uses declares known as) (hsub : known ⊆ known') :
    DeclaredFirst uses declares known' as := by
  induction as generalizing known known' with
  | nil => trivial
  | cons a as ih =>
    rcases h with ⟨huses, hrest⟩
    refine ⟨fun x hx => hsub (huses x hx), ih hrest ?_⟩
    intro x hx
    rcases List.mem_append.1 hx with hx | hx
    · exact List.mem_append_left _ (hsub hx)
    · exact List.mem_append_right _ hx

/-- Where something is used, it is known or declared at an earlier place. -/
theorem earlier {as : List α} (h : DeclaredFirst uses declares known as) {n : Nat} {a : α}
    {x : Text} (ha : as[n]? = some a) (hx : x ∈ uses a) :
    x ∈ known ∨ ∃ j b, j < n ∧ as[j]? = some b ∧ x ∈ declares b := by
  induction as generalizing known n with
  | nil => simp at ha
  | cons b as ih =>
    rcases h with ⟨huses, hrest⟩
    cases n with
    | zero =>
      obtain rfl : b = a := by simpa using ha
      exact Or.inl (huses x hx)
    | succ n =>
      rcases ih hrest (by simpa using ha) with hknown | ⟨j, d, hj, hd, hdx⟩
      · rcases List.mem_append.1 hknown with hknown | hb
        · exact Or.inl hknown
        · exact Or.inr ⟨0, b, by omega, by simp, hb⟩
      · exact Or.inr ⟨j + 1, d, by omega, by simpa using hd, hdx⟩

end DeclaredFirst

namespace Event

def uses : Event → List Text
  | .read n => [n.text]
  | _ => []

def declares : Event → List Text
  | .declare n => [n.text]
  | _ => []

/-- The names that are declared by events. -/
def declaredIn (es : List Event) : List Text := es.flatMap declares

/-- Names are read only after they are declared, or if they are known. -/
def Clean (known : List Text) (es : List Event) : Prop := DeclaredFirst uses declares known es

@[simp] theorem declaredIn_nil : declaredIn [] = [] := rfl

@[simp] theorem declaredIn_cons (e : Event) (es : List Event) :
    declaredIn (e :: es) = e.declares ++ declaredIn es := rfl

@[simp] theorem declaredIn_append (es fs : List Event) :
    declaredIn (es ++ fs) = declaredIn es ++ declaredIn fs := List.flatMap_append

@[simp] theorem declaredIn_reads (ns : List Name) : declaredIn (ns.map .read) = [] := by
  induction ns with
  | nil => rfl
  | cons n ns ih => simp [declares, ih]

theorem clean_append {known : List Text} {es fs : List Event} :
    Clean known (es ++ fs) ↔ Clean known es ∧ Clean (known ++ declaredIn es) fs :=
  DeclaredFirst.append_iff

theorem clean_reads {known : List Text} {ns : List Name} :
    Clean known (ns.map .read) ↔ ∀ n ∈ ns, n.text ∈ known := by
  induction ns with
  | nil => simp [Clean]
  | cons n ns ih => simp_all [Clean, DeclaredFirst.cons_iff, uses, declares]

end Event

open Event

/-- The name that is used before it is assigned, if the warning is about one. -/
def Warning.unassigned? (w : Warning) : Option Text :=
  match w.cause with
  | .unassigned x => some x
  | _ => none

/-- The names about which there is a warning that they are used before they are assigned. -/
def Program.reported (p : Program) : List Text := p.warnings.filterMap (·.unassigned?)

/-- Where every name that is read too early is reported, all others are declared first. -/
theorem Warning.clean_of_ofEvents {reported known : List Text} {es : List Event}
    (hsub : reported ⊆ known) (k : Warning.Known) (hr : k.reported ⊆ reported)
    (hd : ∀ x, k.declared.contains x → x ∈ known)
    (hw : ∀ w ∈ Warning.ofEvents k es, ∀ x ∈ w.unassigned?, x ∈ reported) :
    Clean known es := by
  induction es generalizing k known with
  | nil => trivial
  | cons e es ih =>
    simp only [ofEvents, List.forall_mem_append] at hw
    rcases hw with ⟨hfirst, hrest⟩
    cases e with
    | read n =>
      by_cases hfresh : k.isFresh n.text
      · have hn : n.text ∈ reported := by
          refine hfirst ⟨n.span.start, .unassigned n.text⟩ ?_ n.text rfl
          simp [Known.warnings, hfresh]
        refine ⟨by simpa [uses] using hsub hn, ih (k := k.after (.read n)) ?_ ?_ ?_ hrest⟩
        · simpa [declares] using hsub
        · simpa [Known.after, hfresh] using And.intro hn hr
        · simpa [Known.after, hfresh, declares] using hd
      · have hn : n.text ∈ known := by
          simp only [Known.isFresh, Bool.and_eq_true, Bool.not_eq_true', not_and,
            Bool.not_eq_false] at hfresh
          by_cases hdeclared : k.declared.contains n.text
          · exact hd _ hdeclared
          · exact hsub (hr (by simpa using hfresh (by simpa using hdeclared)))
        refine ⟨by simpa [uses] using hn, ih (k := k.after (.read n)) ?_ ?_ ?_ hrest⟩
        · simpa [declares] using hsub
        · simpa [Known.after, hfresh] using hr
        · simpa [Known.after, hfresh, declares] using hd
    | declare n =>
      refine ⟨by simp [uses], ih (k := k.after (.declare n)) ?_ hr ?_ hrest⟩
      · exact fun x hx => List.mem_append_left _ (hsub hx)
      · intro x hx
        rcases (SymbolTable.contains_declare _ _ _ _).1 hx with hx | rfl
        · exact List.mem_append_left _ (hd x hx)
        · simp [declares]
    | zeroStep pos =>
      refine ⟨by simp [uses], ih (k := k) ?_ hr ?_ hrest⟩
      · simpa [declares] using hsub
      · simpa [declares] using hd

theorem Stmt.eventsOfBody_eq (b : Option (Block Stmt)) :
    eventsOfBody b = eventsOfList (ofBody b) := by
  cases b with
  | none => rfl
  | some b => rfl

/-- The events of a task. The conditions of a chain do not belong to its clauses. -/
def Task.events : Task → List Event
  | .stmt s => s.events
  | .list ss => Stmt.eventsOfList ss
  | .chain _ _ bs => Stmt.eventsOfBranches bs

namespace Task

theorem events_branch (span : Span) (bs : List (Branch Stmt)) (otherwise : Option (Block Stmt))
    (stop : Text) (xs : List Text) : (Task.stmt (.branch span bs otherwise)).events =
      (bs.flatMap (·.cond.names)).map .read ++ (Task.chain stop xs bs).events ++
        (Task.list (Stmt.ofBody otherwise)).events := by
  rw [events, Stmt.events, Stmt.eventsOfBody_eq]
  rfl

theorem events_chain_cons (stop x : Text) (xs : List Text) (cond : Expr)
    (body : Option (Block Stmt)) (rest : List (Branch Stmt)) :
    (Task.chain stop (x :: xs) (⟨cond, body⟩ :: rest)).events =
      (Task.list (Stmt.ofBody body)).events ++ (Task.chain stop xs rest).events := by
  simp only [events, Stmt.eventsOfBranches, Stmt.eventsOfBody_eq]

theorem events_whileLoop (span : Span) (cond : Expr) (body : Option (Block Stmt)) :
    (Task.stmt (.whileLoop span cond body)).events =
      cond.names.map .read ++ (Task.list (Stmt.ofBody body)).events := by
  rw [events, Stmt.events, Stmt.eventsOfBody_eq]
  rfl

theorem events_forLoop (span : Span) (var : Name) (range : Range) (body : Option (Block Stmt)) :
    ∃ zero, declaredIn zero = [] ∧ (Task.stmt (.forLoop span var range body)).events =
      (range.start.names ++ range.stop.names ++ range.step.names).map .read ++ zero ++
        [.declare var] ++ (Task.list (Stmt.ofBody body)).events := by
  refine ⟨_, ?_, by rw [events, Stmt.events, Stmt.eventsOfBody_eq]; rfl⟩
  cases range.step.const? with
  | none => rfl
  | some v =>
    by_cases hv : v == 0
    · simp [hv, Event.declares]
    · simp [hv]

end Task

def Rhs.operands : Rhs → List Text
  | .copy x | .unary _ x => [x]
  | .binary x _ y => [x, y]

theorem Rhs.operands_ofParts {op x y z : Text} (h : z ∈ (Rhs.ofParts op x y).operands) :
    z = x ∨ (z = y ∧ y ≠ []) := by
  unfold ofParts at h
  split at h
  · simp_all [operands]
  · split at h <;> simp_all [operands]

namespace Action

/-- The operands that are read. A compound assignment reads its target too. -/
def reads : Action → List Text
  | .compute _ _ rhs => rhs.operands
  | .store _ dest op x => if op = "=" then [x] else [dest, x]
  | .jumpUnless x _ => [x]
  | .jumpIf x _ y _ => [x, y]
  | _ => []

/-- The name that is declared. -/
def declares? : Action → Option Text
  | .declare _ name => some name
  | .compute _ dest _ => some dest
  | .store type dest _ _ => type.map fun _ => dest
  | _ => none

/-- The names that have to be declared before: those that are read, and one that is stored into
without being declared. -/
def needs (a : Action) : List Text :=
  a.reads.filter (!Operand.isLiteral ·) ++ if a.declares?.isSome then [] else a.writes?.toList

end Action

/-- The operand is a number or a known name. -/
def Available (known : List Text) (x : Text) : Prop := Operand.isLiteral x = true ∨ x ∈ known

theorem Available.mono {known known' : List Text} {x : Text} (h : Available known x)
    (hsub : known ⊆ known') : Available known' x := h.imp_right fun hx => hsub hx

namespace Instr

def declaredOf (code : List Instr) : List Text := code.flatMap (·.action.declares?.toList)

/-- Names are used only after they are declared, or if they are known. -/
def Scoped (known : List Text) (code : List Instr) : Prop :=
  DeclaredFirst (·.action.needs) (·.action.declares?.toList) known code

@[simp] theorem declaredOf_nil : declaredOf [] = [] := rfl

@[simp] theorem declaredOf_cons (i : Instr) (code : List Instr) :
    declaredOf (i :: code) = i.action.declares?.toList ++ declaredOf code := rfl

@[simp] theorem declaredOf_append (a b : List Instr) :
    declaredOf (a ++ b) = declaredOf a ++ declaredOf b := List.flatMap_append

@[simp] theorem scoped_nil (known : List Text) : Scoped known [] := trivial

@[simp] theorem scoped_cons {known : List Text} {i : Instr} {code : List Instr} :
    Scoped known (i :: code) ↔ ((∀ x ∈ i.action.reads, Available known x) ∧
      (i.action.declares? = none → ∀ x ∈ i.action.writes?, x ∈ known)) ∧
        Scoped (known ++ i.action.declares?.toList) code := by
  refine and_congr_left fun _ => ?_
  simp only [Action.needs, List.forall_mem_append, List.mem_filter, Bool.not_eq_true']
  refine and_congr (forall_congr' fun x => ?_) ?_
  · cases h : Operand.isLiteral x <;> simp [Available, h]
  · cases h : i.action.declares? <;> simp

@[simp] theorem scoped_append {known : List Text} {a b : List Instr} :
    Scoped known (a ++ b) ↔ Scoped known a ∧ Scoped (known ++ declaredOf a) b :=
  DeclaredFirst.append_iff

end Instr

open Instr

section

variable {scheme : Scheme} {reserved : List Text} {names names' : Names} {code : List Instr}
  {e : Expr} {x : Text} {xs : List Text} {bs : List (Branch Stmt)}

theorem ExprCode.symbols_eq (h : ExprCode scheme reserved e names code x names') :
    names'.symbols = names.symbols := by
  induction h with
  | number | boolean | name => rfl
  | binary _ _ ihl ihr => exact ihr.trans ihl
  | unary _ ih => exact ih

theorem BoundCode.symbols_eq (h : BoundCode scheme reserved e names code x names') :
    names'.symbols = names.symbols := by
  cases h with
  | plain _ h => exact h.symbols_eq
  | copied => rfl

theorem ConditionsCode.symbols_eq (h : ConditionsCode scheme reserved bs names code xs names') :
    names'.symbols = names.symbols := by
  induction h with
  | nil => rfl
  | cons he _ ih => exact ih.trans he.symbols_eq

/-- An expression uses its names and the temporaries that it has computed. -/
theorem ExprCode.inScope (h : ExprCode scheme reserved e names code x names') (known : List Text)
    (hwf : e.WellFormed) (hreads : ∀ n ∈ e.names, n.text ∈ known) :
    Scoped known code ∧ Available (known ++ declaredOf code) x := by
  induction h generalizing known with
  | @number _ value raw =>
    obtain ⟨hne, hl⟩ := Operand.isLiteral_of_lexed hwf.1
    refine ⟨scoped_nil _, Or.inl ?_⟩
    simpa [numberText, hne] using hl
  | @boolean _ value =>
    refine ⟨scoped_nil _, Or.inl ?_⟩
    cases value <;> decide
  | @name n =>
    refine ⟨scoped_nil _, Or.inr ?_⟩
    simpa using hreads n (by simp [Expr.names])
  | @binary _ op l r _ _ _ codeL codeR x y _ _ ihl ihr =>
    rcases hwf with ⟨-, hwl, hwr⟩
    simp only [Expr.names, List.forall_mem_append] at hreads
    obtain ⟨hscopeL, hx⟩ := ihl known hwl hreads.1
    obtain ⟨hscopeR, hy⟩ := ihr (known ++ declaredOf codeL) hwr
      fun n hn => List.mem_append_left _ (hreads.2 n hn)
    refine ⟨?_, Or.inr (by simp [Action.declares?])⟩
    simp only [scoped_append, scoped_cons, declaredOf_append, ← List.append_assoc]
    refine ⟨⟨hscopeL, hscopeR⟩, ⟨fun z hz => ?_, by simp [Action.declares?]⟩, scoped_nil _⟩
    rcases Rhs.operands_ofParts hz with rfl | ⟨rfl, -⟩
    · exact hx.mono (List.subset_append_left _ _)
    · exact hy
  | @unary _ op e _ _ code x _ ih =>
    obtain ⟨hscope, hx⟩ := ih known hwf.2 hreads
    refine ⟨?_, Or.inr (by simp [Action.declares?])⟩
    simp only [scoped_append, scoped_cons]
    refine ⟨hscope, ⟨fun z hz => ?_, by simp [Action.declares?]⟩, scoped_nil _⟩
    rcases Rhs.operands_ofParts hz with rfl | ⟨rfl, hne⟩
    · exact hx
    · exact absurd rfl hne

theorem BoundCode.inScope (h : BoundCode scheme reserved e names code x names')
    (known : List Text) (hwf : e.WellFormed) (hreads : ∀ n ∈ e.names, n.text ∈ known) :
    Scoped known code ∧ Available (known ++ declaredOf code) x := by
  cases h with
  | plain _ h => exact h.inScope known hwf hreads
  | @copied n =>
    have hn : n.text ∈ known := hreads n (by simp [Expr.names])
    refine ⟨?_, Or.inr (by simp [Action.declares?])⟩
    simp [Action.reads, Rhs.operands, Action.declares?, Available, hn]

theorem ConditionsCode.inScope (h : ConditionsCode scheme reserved bs names code xs names')
    (known : List Text) (hwf : ∀ b ∈ bs, b.cond.WellFormed)
    (hreads : ∀ n ∈ bs.flatMap (·.cond.names), n.text ∈ known) :
    Scoped known code ∧ ∀ x ∈ xs, Available (known ++ declaredOf code) x := by
  induction h generalizing known with
  | nil => simp
  | @cons b rest _ _ _ code codes x xs he _ ih =>
    simp only [List.flatMap_cons, List.forall_mem_append, List.forall_mem_cons] at hreads hwf
    obtain ⟨hscope, hx⟩ := he.inScope known hwf.1 hreads.1
    obtain ⟨hscopes, hxs⟩ := ih (known ++ declaredOf code) hwf.2
      fun n hn => List.mem_append_left _ (hreads.2 n hn)
    simp only [scoped_append, declaredOf_append, List.forall_mem_cons, ← List.append_assoc]
    exact ⟨⟨hscope, hscopes⟩, hx.mono (List.subset_append_left _ _), hxs⟩

/-- The bounds of a loop. -/
theorem scoped_bounds {known : List Text} {range : Range} {names₁ names₂ names₃ : Names}
    {code₁ code₂ code₃ : List Instr} {first last step : Text}
    (h₁ : ExprCode scheme reserved range.start names code₁ first names₁)
    (h₂ : BoundCode scheme reserved range.stop names₁ code₂ last names₂)
    (h₃ : BoundCode scheme reserved range.step names₂ code₃ step names₃) (hwf : range.WellFormed)
    (hreads : ∀ n ∈ range.start.names ++ range.stop.names ++ range.step.names, n.text ∈ known) :
    Scoped known (code₁ ++ code₂ ++ code₃) ∧ ∀ x ∈ [first, last, step],
      Available (known ++ declaredOf (code₁ ++ code₂ ++ code₃)) x := by
  rcases hwf with ⟨hw₁, hw₂, hw₃⟩
  simp only [List.forall_mem_append] at hreads
  rcases hreads with ⟨⟨hr₁, hr₂⟩, hr₃⟩
  obtain ⟨hs₁, hfirst⟩ := h₁.inScope known hw₁ hr₁
  obtain ⟨hs₂, hlast⟩ := h₂.inScope (known ++ declaredOf code₁) hw₂
    fun n hn => List.mem_append_left _ (hr₂ n hn)
  obtain ⟨hs₃, hstep⟩ := h₃.inScope (known ++ declaredOf code₁ ++ declaredOf code₂) hw₃
    fun n hn => List.mem_append_left _ (List.mem_append_left _ (hr₃ n hn))
  simp only [scoped_append, declaredOf_append, ← List.append_assoc, List.forall_mem_cons]
  refine ⟨⟨⟨hs₁, hs₂⟩, hs₃⟩, ?_, ?_, hstep, by simp⟩
  · exact hfirst.mono (List.subset_append_of_subset_left _ (List.subset_append_left _ _))
  · exact hlast.mono (List.subset_append_left _ _)

theorem StoreCode.inScope {known : List Text} {isNew : Bool} {target : Text} {op : Kind} {pos : Pos}
    (h : StoreCode scheme isNew target op x pos code) (hx : Available known x)
    (hold : isNew = false → target ∈ known) :
    Scoped known code ∧ target ∈ known ++ declaredOf code := by
  have hreads : ∀ type known', Available known' x → target ∈ known' →
      ∀ y ∈ (Action.store type target op.symbol x).reads, Available known' y := by
    intro type known' hx htarget y hy
    have hy : y = target ∨ y = x := by
      by_cases hop : op.symbol = Text.ofString "=" <;> simp_all [Action.reads]
    rcases hy with rfl | rfl
    · exact Or.inr htarget
    · exact hx
  cases h with
  | first _ hop =>
    have hsymbol : op.symbol = Text.ofString "=" := by
      rw [hop]
      rfl
    simpa [Action.reads, hsymbol, Action.declares?] using hx
  | declared =>
    refine ⟨?_, by simp [Action.declares?]⟩
    rw [scoped_cons, scoped_cons]
    refine ⟨by simp [Action.reads, Action.declares?], ⟨?_, ?_⟩, scoped_nil _⟩
    · refine hreads none _ (hx.mono (List.subset_append_left _ _)) ?_
      simp [Action.declares?]
    · simp [Action.declares?, Action.writes?]
  | plain hnew =>
    have htarget := hold hnew
    refine ⟨?_, List.mem_append_left _ htarget⟩
    rw [scoped_cons]
    refine ⟨⟨hreads none known hx htarget, ?_⟩, scoped_nil _⟩
    simpa [Action.writes?] using fun _ => htarget

end

/-- A loop that counts, from where its bounds are computed on. Its counter is known, or else the
first store declares it. -/
theorem scoped_counting {known : List Text} {type : Option Text}
    {var first last step test again next stop : Text} {pos : Pos} {inner : List Instr}
    (hfirst : Available known first) (hlast : Available known last) (hstep : Available known step)
    (hold : type = none → var ∈ known)
    (hinner : Scoped (known ++ (type.map fun _ => var).toList) inner) :
    Scoped known ([⟨.store type var "=" first, pos⟩, ⟨.label again, pos⟩,
      ⟨.jumpIf var test last stop, pos⟩] ++ inner ++ [⟨.label next, pos⟩,
      ⟨.store none var "+=" step, pos⟩, ⟨.jump again, pos⟩, ⟨.label stop, pos⟩]) := by
  have hvar : var ∈ known ++ (type.map fun _ => var).toList := by
    cases type with
    | none => simpa using hold rfl
    | some => simp
  have hsub : known ⊆ known ++ (type.map fun _ => var).toList := List.subset_append_left _ _
  simp only [scoped_append, scoped_cons, declaredOf_cons, declaredOf_append,
    Action.declares?, Action.reads, Action.writes?, Option.toList_none, List.append_nil,
    declaredOf_nil]
  refine ⟨⟨⟨⟨?_, ?_⟩, by simp, ⟨?_, by simp⟩, scoped_nil _⟩, hinner⟩, by simp, ⟨?_, ?_⟩, by simp⟩
  · simpa using hfirst
  · intro hnone x hx
    obtain rfl : var = x := by simpa using hx
    exact hold (by simpa using hnone)
  · rw [List.forall_mem_cons, List.forall_mem_singleton]
    exact ⟨Or.inr hvar, hlast.mono hsub⟩
  · have hne : Text.ofString "+=" ≠ Text.ofString "=" := by decide
    have hsub' := List.subset_append_of_subset_left (declaredOf inner) hsub
    rw [if_neg hne]
    have hvar' := List.mem_append_left (declaredOf inner) hvar
    rw [List.forall_mem_cons, List.forall_mem_singleton, ← List.append_assoc]
    exact ⟨Or.inr hvar', hstep.mono hsub'⟩
  · intro _ x hx
    obtain rfl : var = x := by simpa using hx
    rw [← List.append_assoc]
    exact List.mem_append_left _ hvar

/-- The operands of the conditions of a chain. -/
def Task.operands : Task → List Text
  | .chain _ xs _ => xs
  | _ => []

theorem Stmt.wellFormed_conditions {bs : List (Branch Stmt)} (h : WellFormedBranches bs) :
    ∀ b ∈ bs, b.cond.WellFormed := by
  induction bs with
  | nil => simp
  | cons b rest ih => exact List.forall_mem_cons.2 ⟨h.1, ih h.2.2⟩

namespace Lowered

variable {scheme : Scheme} {reserved : List Text} {loop : Option Loop} {task : Task}
  {names names' : Names} {code : List Instr}

/-- After a task, the table has the names that it declares. -/
theorem symbols (h : Lowered scheme reserved loop task names code names') (x : Text) :
    names'.symbols.contains x ↔ names.symbols.contains x ∨ x ∈ declaredIn task.events := by
  induction h with
  | nil | chainNil | breakLoop | continueLoop =>
    simp [Task.events, Stmt.events, Stmt.eventsOfList, Stmt.eventsOfBranches, declaredIn]
  | cons _ _ ih ih' => simp [ih, ih', Task.events, Stmt.eventsOfList, or_assoc]
  | @assign _ _ target op _ _ _ _ _ _ he =>
    rw [Names.withName, SymbolTable.contains_declare, he.symbols_eq]
    cases hc : op.isCompound <;> simp [Task.events, Stmt.events, hc, Event.declares]
  | eval he => simp [he.symbols_eq, Task.events, Stmt.events]
  | @branch _ span bs otherwise _ n₁ _ _ _ _ _ xs _ hc _ _ ih ih' =>
    rw [ih', ih, Task.events_branch span bs otherwise (scheme.label (n₁.labels + 1)) xs]
    simp [Names.withLabel, hc.symbols_eq, or_assoc]
  | chainCons _ _ ih ih' =>
    rw [ih', ih, Task.events_chain_cons]
    simp [Names.withLabel, or_assoc]
  | whileLoop he _ ih =>
    rw [ih, he.symbols_eq, Task.events_whileLoop]
    simp [Names.withLabel]
  | @forLoop _ span var range body _ _ _ _ _ _ _ _ _ _ _ _ _ _ h₁ h₂ h₃ hn _ _ ih =>
    obtain ⟨zero, hzero, hevents⟩ := Task.events_forLoop span var range body
    rw [ih, hevents, hn, Names.withLabel, Names.withLabel, Names.withLabel, Names.withName,
      SymbolTable.contains_declare, h₃.symbols_eq, h₂.symbols_eq, h₁.symbols_eq]
    simp [hzero, Event.declares, or_assoc]

/-- What a task declares is known after it, if its table is. -/
theorem append_declaredIn_subset {known known' : List Text}
    (h : Lowered scheme reserved loop task names code names') (hsub : known ⊆ known')
    (hsym : ∀ x, names'.symbols.contains x → x ∈ known') :
    known ++ declaredIn task.events ⊆ known' := by
  intro x hx
  rcases List.mem_append.1 hx with hx | hx
  · exact hsub hx
  · exact hsym x ((h.symbols x).2 (Or.inr hx))

/-- The code of a task uses only known names and names that it has declared, if the source does. The
names of the table are known before, and so are the operands of conditions. -/
def InScope (task : Task) (names : Names) (code : List Instr) (names' : Names) : Prop :=
  ∀ known, Clean known task.events → (∀ x, names.symbols.contains x → x ∈ known) →
    (∀ x ∈ task.operands, Available known x) →
    Scoped known code ∧ ∀ x, names'.symbols.contains x → x ∈ known ++ declaredOf code

theorem inScope_forLoop {span : Span} {var : Name} {range : Range} {body : Option (Block Stmt)}
    {names₁ names₂ names₃ named names₄ : Names} {code₁ code₂ code₃ inner : List Instr}
    {first last step again next stop : Text} {type : Option Text}
    (h₁ : ExprCode scheme reserved range.start names code₁ first names₁)
    (h₂ : BoundCode scheme reserved range.stop names₁ code₂ last names₂)
    (h₃ : BoundCode scheme reserved range.step names₂ code₃ step names₃) (hwr : range.WellFormed)
    (hn : named = names₃.withName var)
    (ht : type = if names₃.symbols.contains var.text then none else some scheme.type)
    (hb : InScope (.list (Stmt.ofBody body)) named.withLabel.withLabel.withLabel inner names₄) :
    InScope (.stmt (.forLoop span var range body)) names
      (code₁ ++ code₂ ++ code₃ ++ [⟨.store type var.text "=" first, span.start⟩,
        ⟨.label again, span.start⟩,
        ⟨.jumpIf var.text (Lower.exitTest range.step) last stop, span.start⟩] ++ inner ++
        [⟨.label next, span.start⟩, ⟨.store none var.text "+=" step, span.start⟩,
          ⟨.jump again, span.start⟩, ⟨.label stop, span.start⟩]) names₄ := by
  intro known hclean hsym _
  obtain ⟨zero, hzero, hevents⟩ := Task.events_forLoop span var range body
  rw [hevents] at hclean
  simp only [clean_append, clean_reads, declaredIn_append, declaredIn_reads, hzero,
    declaredIn_cons, Event.declares, declaredIn_nil, List.append_nil, List.nil_append] at hclean
  rcases hclean with ⟨⟨⟨hreads, -⟩, -⟩, hbody⟩
  obtain ⟨hscope, hoperands⟩ := scoped_bounds h₁ h₂ h₃ hwr hreads
  simp only [List.forall_mem_cons] at hoperands
  rcases hoperands with ⟨hfirst, hlast, hstep, -⟩
  -- what is known once the bounds are computed, and then once the counter has its first value
  generalize hbounds : known ++ declaredOf (code₁ ++ code₂ ++ code₃) = bounds
    at hfirst hlast hstep
  have hsub : known ⊆ bounds := by
    rw [← hbounds]
    exact List.subset_append_left _ _
  have hsym₃ : ∀ x, names₃.symbols.contains x → x ∈ bounds := by
    rw [h₃.symbols_eq, h₂.symbols_eq, h₁.symbols_eq]
    exact fun x hx => hsub (hsym x hx)
  have hold : type = none → var.text ∈ bounds := by
    intro hnone
    by_cases hc : names₃.symbols.contains var.text
    · exact hsym₃ _ hc
    · simp [ht, hc] at hnone
  have hvar : var.text ∈ bounds ++ (type.map fun _ => var.text).toList := by
    cases type with
    | none => simpa using hold rfl
    | some => simp
  have hsym₄ : ∀ x, named.withLabel.withLabel.withLabel.symbols.contains x →
      x ∈ bounds ++ (type.map fun _ => var.text).toList := by
    intro x hx
    rw [hn] at hx
    rcases (SymbolTable.contains_declare _ _ _ _).1 hx with hx | rfl
    · exact List.mem_append_left _ (hsym₃ x hx)
    · exact hvar
  have hbody : Clean (bounds ++ (type.map fun _ => var.text).toList)
      (Task.list (Stmt.ofBody body)).events := by
    refine hbody.mono fun x hx => ?_
    rcases List.mem_append.1 hx with hx | hx
    · exact List.mem_append_left _ (hsub hx)
    · rw [List.mem_singleton.1 hx]
      exact hvar
  obtain ⟨hinner, hsym₅⟩ := hb _ hbody hsym₄ (by simp [Task.operands])
  rw [List.append_assoc _ _ inner, List.append_assoc, scoped_append, hbounds, declaredOf_append,
    ← List.append_assoc known, hbounds]
  refine ⟨⟨hscope, scoped_counting hfirst hlast hstep hold hinner⟩, fun x hx => ?_⟩
  simpa [Action.declares?, or_assoc] using hsym₅ x hx

theorem inScope (h : Lowered scheme reserved loop task names code names') (hwf : task.WellFormed) :
    InScope task names code names' := by
  induction h with
  | nil | chainNil =>
    intro known _ hsym _
    simpa using hsym
  | breakLoop | continueLoop =>
    intro known _ hsym _
    simpa [Action.reads, Action.writes?, Action.declares?] using hsym
  | @cons _ s rest _ _ _ code codes hs _ ih ih' =>
    intro known hclean hsym _
    rcases clean_append.1 hclean with ⟨hfirst, hrest⟩
    obtain ⟨hscope, hsym₁⟩ := ih hwf.1 known hfirst hsym (by simp [Task.operands])
    have hsub := hs.append_declaredIn_subset (List.subset_append_left _ _) hsym₁
    obtain ⟨hscopes, hsym₂⟩ := ih' hwf.2 _ (hrest.mono hsub) hsym₁ (by simp [Task.operands])
    rw [scoped_append, declaredOf_append, ← List.append_assoc]
    exact ⟨⟨hscope, hscopes⟩, hsym₂⟩
  | @assign _ span target op value _ n₁ code stores x he hs =>
    rcases hwf with ⟨-, -, hwv⟩
    intro known hclean hsym _
    have hclean : Clean known (Stmt.assign span target op value).events := hclean
    simp only [Stmt.events, clean_append, clean_reads] at hclean
    obtain ⟨hscope, hx⟩ := he.inScope known hwv hclean.1.1
    rw [← he.symbols_eq] at hsym
    have hold : (!n₁.symbols.contains target.text) = false →
        target.text ∈ known ++ declaredOf code :=
      fun h => List.mem_append_left _ (hsym _ (by simpa using h))
    obtain ⟨hstores, htarget⟩ := hs.inScope hx hold
    rw [scoped_append, declaredOf_append, ← List.append_assoc]
    refine ⟨⟨hscope, hstores⟩, ?_⟩
    intro y hy
    rcases (SymbolTable.contains_declare _ _ _ _).1 hy with hy | rfl
    · simp [hsym y hy]
    · exact htarget
  | @eval _ span e _ _ _ _ he =>
    intro known hclean hsym _
    have hclean : Clean known (Stmt.eval span e).events := hclean
    simp only [Stmt.events, clean_reads] at hclean
    rw [he.symbols_eq]
    exact ⟨(he.inScope known hwf hclean).1, fun y hy => List.mem_append_left _ (hsym y hy)⟩
  | @branch _ span bs otherwise _ n₁ _ _ code clauses last xs _ hc hchain _ ih ih' =>
    rcases hwf with ⟨-, hwb, hwo⟩
    intro known hclean hsym _
    rw [Task.events_branch span bs otherwise (scheme.label (n₁.labels + 1)) xs] at hclean
    simp only [clean_append, clean_reads, declaredIn_append, declaredIn_reads, List.append_nil,
      List.nil_append] at hclean
    rcases hclean with ⟨⟨hreads, hbodies⟩, hlast⟩
    obtain ⟨hscope, hxs⟩ := hc.inScope known (Stmt.wellFormed_conditions hwb) hreads
    have hsym₁ : ∀ x, n₁.withLabel.symbols.contains x → x ∈ known ++ declaredOf code := by
      rw [Names.withLabel, hc.symbols_eq]
      exact fun x hx => List.mem_append_left _ (hsym x hx)
    obtain ⟨hclauses, hsym₂⟩ :=
      ih hwb _ (hbodies.mono (List.subset_append_left _ _)) hsym₁ hxs
    have hsub := hchain.append_declaredIn_subset
      (List.subset_append_of_subset_left _ (List.subset_append_left known _)) hsym₂
    obtain ⟨helse, hsym₃⟩ := ih' ((Stmt.wellFormedBody_iff _).1 hwo) _ (hlast.mono hsub) hsym₂
      (by simp [Task.operands])
    simp only [scoped_append, declaredOf_append, ← List.append_assoc]
    refine ⟨⟨⟨⟨hscope, hclauses⟩, helse⟩, by simp [Action.reads, Action.writes?]⟩, ?_⟩
    simpa [Action.declares?] using hsym₃
  | @chainCons _ stop x xs cond body rest n _ _ inner clauses hb _ ih ih' =>
    rcases hwf with ⟨-, ⟨-, hwb⟩, hwr⟩
    intro known hclean hsym hops
    rw [Task.events_chain_cons, clean_append] at hclean
    have hx := hops x List.mem_cons_self
    obtain ⟨hinner, hsym₁⟩ :=
      ih ((Stmt.wellFormedBody_iff _).1 hwb) known hclean.1 hsym (by simp [Task.operands])
    have hsub := hb.append_declaredIn_subset (List.subset_append_left _ _) hsym₁
    obtain ⟨hclauses, hsym₂⟩ := ih' hwr _ (hclean.2.mono hsub) hsym₁
      fun y hy => (hops y (List.mem_cons_of_mem _ hy)).mono (List.subset_append_left _ _)
    have hjump : ∀ known' : List Text, Scoped known'
        [⟨.jump stop, cond.start⟩, ⟨.label (scheme.label (n.labels + 1)), cond.start⟩] := by
      simp [Action.reads, Action.writes?]
    simp only [scoped_append, declaredOf_append, declaredOf_cons, Action.declares?,
      Option.toList_none, declaredOf_nil, List.append_nil, ← List.append_assoc]
    exact ⟨⟨⟨⟨by simpa [Action.reads, Action.writes?] using hx, hinner⟩, hjump _⟩, hclauses⟩, hsym₂⟩
  | @whileLoop _ span cond body n n₁ _ code inner x he _ ih =>
    rcases hwf with ⟨hwc, -, hwb⟩
    intro known hclean hsym _
    rw [Task.events_whileLoop, clean_append, clean_reads, declaredIn_reads, List.append_nil]
      at hclean
    obtain ⟨hscope, hx⟩ := he.inScope known hwc hclean.1
    have hsym₁ : ∀ x, n₁.symbols.contains x → x ∈ known ++ declaredOf code := by
      rw [he.symbols_eq]
      exact fun x hx => List.mem_append_left _ (hsym x hx)
    obtain ⟨hinner, hsym₂⟩ := ih ((Stmt.wellFormedBody_iff _).1 hwb) _
      (hclean.2.mono (List.subset_append_left _ _)) hsym₁ (by simp [Task.operands])
    simp only [scoped_append, declaredOf_append, declaredOf_cons, Action.declares?,
      Option.toList_none, declaredOf_nil, List.append_nil, ← List.append_assoc]
    have hlabel : Scoped known [⟨.label (scheme.label (n.labels + 1)), span.start⟩] := by
      simp [Action.reads, Action.writes?]
    refine ⟨⟨⟨⟨⟨hlabel, hscope⟩, ?_⟩, hinner⟩, ?_⟩, hsym₂⟩
    · simpa [Action.reads, Action.writes?] using hx
    · simp [Action.reads, Action.writes?]
  | forLoop h₁ h₂ h₃ hn ht _ ih =>
    exact inScope_forLoop h₁ h₂ h₃ hwf.2.1 hn ht (ih ((Stmt.wellFormedBody_iff _).1 hwf.2.2.2))

end Lowered

namespace Program

/-- A program reads only what it has declared, apart from the names that are reported. -/
theorem clean_events (p : Program) : Clean p.reported p.events := by
  refine Warning.clean_of_ofEvents (List.Subset.refl _) .none (by simp [Warning.Known.none]) ?_ ?_
  · simp [Warning.Known.none, SymbolTable.contains_iff, SymbolTable.empty]
  · intro w hw x hx
    exact List.mem_filterMap.2 ⟨w, hw, hx⟩

/-- The code of a program uses only what it has declared, apart from the names that are reported. -/
theorem scoped_of_lower {scheme : Scheme} {source : Text} {p : Program} {listing : Listing}
    (hparse : Program.parse source = .ok p) (hlower : p.lower scheme = .ok listing) :
    Scoped p.reported listing.code := by
  obtain ⟨names, hcode⟩ := Program.lowered_of_lower hlower
  have hwf : Task.WellFormed (.list p.stmts) := Program.wellFormed_of_parse hparse
  refine (hcode.inScope hwf p.reported p.clean_events ?_ (by simp [Task.operands])).1
  simp [Names.initial, SymbolTable.contains_iff, SymbolTable.empty]

end Program

/-- In the code of a program about which there is no warning that a name is read before it is
assigned, every name that is read, temporary or not, is declared by an instruction in front, and
every name that is stored into is declared there or by the store itself. -/
theorem names_are_declared_before_use {scheme : Scheme} {source : Text} {p : Program}
    {listing : Listing} (hparse : Program.parse source = .ok p)
    (hlower : p.lower scheme = .ok listing)
    (hreported : p.reported = []) {n : Nat} {i : Instr}
    (hi : listing.code[n]? = some i) :
    (∀ x ∈ i.action.reads, Operand.isLiteral x = false →
      ∃ j d, j < n ∧ listing.code[j]? = some d ∧ d.action.declares? = some x) ∧
    ∀ x, i.action.writes? = some x →
      ∃ j d, j ≤ n ∧ listing.code[j]? = some d ∧ d.action.declares? = some x := by
  have hscope := Program.scoped_of_lower hparse hlower
  rw [hreported] at hscope
  have hneeds : ∀ x ∈ i.action.needs,
      ∃ j d, j < n ∧ listing.code[j]? = some d ∧ d.action.declares? = some x := by
    intro x hx
    rcases hscope.earlier hi hx with hknown | ⟨j, d, hj, hd, hdx⟩
    · simp at hknown
    · exact ⟨j, d, hj, hd, by simpa using hdx⟩
  constructor
  · intro x hx hl
    exact hneeds x (by simp [Action.needs, hx, hl])
  · intro x hx
    cases hdeclares : i.action.declares? with
    | none =>
      obtain ⟨j, d, hj, hd, hdx⟩ := hneeds x (by simp [Action.needs, hdeclares, hx])
      exact ⟨j, d, by omega, hd, hdx⟩
    | some y =>
      have hy : i.action.writes? = some y := by
        cases hact : i.action with
        | store type => cases type <;> simp_all [Action.declares?, Action.writes?]
        | _ => simp_all [Action.declares?, Action.writes?]
      obtain rfl : y = x := by simpa [hy] using hx
      exact ⟨n, i, by omega, hi, hdeclares⟩

/-- The declaration of `y` stands in front of the use, though control never goes from one to the
other. -/
theorem use_in_other_branch_is_declared : ∃ t : Compilation,
    Program.parse "x = True; if -x: { y = x } else: { x += y }" = .ok t.program ∧
      t.program.lower ⟨"int", "t", "l"⟩ = .ok t.listing ∧ t.program.reported = [] ∧
      t.listing.code[6]?.map (·.action) = some (.store none "x" "+=" "y") ∧
      ∃ j d, j < 6 ∧ t.listing.code[j]? = some d ∧
        d.action.declares? = some (Text.ofString "y") := by
  have hrun : (compile ⟨⟨"int", "t", "l"⟩, true, []⟩
      "x = True; if -x: { y = x } else: { x += y }").outcome.toOption.map
        (fun t => (t.program.reported, t.listing.code[6]?.map (·.action))) =
      some ([], some (.store none "x" "+=" "y")) := by
    decide +kernel
  obtain ⟨t, hcompile, hvalues⟩ := exists_of_map_compile hrun
  obtain ⟨-, hparse, hlower⟩ := compile_eq_ok hcompile
  obtain ⟨hnone, haction⟩ := Prod.mk.inj hvalues
  obtain ⟨i, hi, hact⟩ := Option.map_eq_some_iff.1 haction
  obtain ⟨hreads, -⟩ := names_are_declared_before_use hparse hlower hnone hi
  refine ⟨t, hparse, hlower, hnone, haction, hreads "y" ?_ (by decide)⟩
  rw [hact]
  decide

end ThreeAddress
