import ThreeAddress.Listing
import ThreeAddress.Proofs.FreshNames

/-! The code that each construct is lowered to, and the names that are handed out on the way, as
relations: whatever is proved of lowered code follows their cases. -/
namespace ThreeAddress

namespace Lower

variable {α β : Type} {g g' : Generator}

theorem bind_eq_ok {x : Lower α} {f : α → Lower β} {b : β} :
    (x >>= f) g = .ok b g' ↔ ∃ a g₁, x g = .ok a g₁ ∧ f a g₁ = .ok b g' := by
  show EStateM.bind x f g = _ ↔ _
  unfold EStateM.bind
  cases x g with
  | ok a g₁ =>
    constructor
    · intro h
      exact ⟨a, g₁, rfl, h⟩
    · rintro ⟨_, _, h, h'⟩
      cases h
      exact h'
  | error e g₁ => simp

theorem pure_eq_ok {a b : α} : (pure a : Lower α) g = .ok b g' ↔ a = b ∧ g = g' := by
  show EStateM.Result.ok a g = _ ↔ _
  simp

theorem throw_ne_ok {e : LoweringError} {b : α} : (throw e : Lower α) g ≠ .ok b g' := by
  show EStateM.Result.error e g ≠ _
  simp

theorem newTemp_eq_ok {t : Text} : newTemp g = .ok t g' ↔
    t = g.scheme.temp (g.names.nextTemp g.scheme g.reserved) ∧
      g' = { g with names := g.names.withTemp g.scheme g.reserved } := by
  show EStateM.Result.ok _ _ = _ ↔ _
  simp [eq_comm, Scheme.temp, Names.nextTemp, Names.withTemp]

theorem newLabel_eq_ok {l : Text} : newLabel g = .ok l g' ↔
    l = g.scheme.label (g.names.labels + 1) ∧ g' = { g with names := g.names.withLabel } := by
  show EStateM.Result.ok _ _ = _ ↔ _
  simp [eq_comm, Scheme.label, Names.withLabel]

theorem declare_eq_ok {n : Name} {isNew : Bool} : declare n g = .ok isNew g' ↔
    isNew = !g.names.symbols.contains n.text ∧ g' = { g with names := g.names.withName n } := by
  show EStateM.Result.ok _ _ = _ ↔ _
  simp [eq_comm, Names.withName]

theorem type_eq_ok {t : Text} : type g = .ok t g' ↔ t = g.scheme.type ∧ g = g' := by
  show EStateM.Result.ok _ _ = _ ↔ _
  simp [eq_comm]

theorem innermost_eq_ok {pos : Pos} {cause : LoweringError.Cause} {loop : Loop} :
    innermost pos cause g = .ok loop g' ↔ g.loops.head? = some loop ∧ g = g' := by
  unfold innermost
  rw [bind_eq_ok]
  constructor
  · rintro ⟨_, _, hget, h⟩
    cases hget
    cases hloops : g.loops with
    | nil => simp [hloops, throw_ne_ok] at h
    | cons l rest =>
      rw [hloops] at h
      obtain ⟨rfl, rfl⟩ := pure_eq_ok.1 h
      exact ⟨rfl, rfl⟩
  · rintro ⟨hloop, rfl⟩
    refine ⟨g, g, rfl, ?_⟩
    cases hloops : g.loops with
    | nil => simp [hloops] at hloop
    | cons l rest =>
      obtain rfl : l = loop := by simpa [hloops] using hloop
      rfl

theorem inside_eq_ok {loop : Loop} {x : Lower α} {a : α} : inside loop x g = .ok a g' ↔
    ∃ g₁, x { g with loops := loop :: g.loops } = .ok a g₁ ∧
      g' = { g₁ with loops := g₁.loops.tail } := by
  unfold inside
  rw [bind_eq_ok]
  constructor
  · rintro ⟨_, _, hpush, h⟩
    cases hpush
    obtain ⟨a', g₁, hx, h⟩ := bind_eq_ok.1 h
    obtain ⟨_, _, hpop, h⟩ := bind_eq_ok.1 h
    cases hpop
    obtain ⟨rfl, rfl⟩ := pure_eq_ok.1 h
    exact ⟨g₁, hx, rfl⟩
  · rintro ⟨g₁, hx, rfl⟩
    exact ⟨(), _, rfl, bind_eq_ok.2 ⟨a, g₁, hx, rfl⟩⟩

end Lower

/-- The statements of a body; a missing one has none. -/
def Stmt.ofBody : Option (Block Stmt) → List Stmt
  | none => []
  | some b => b.stmts

section

variable (scheme : Scheme) (reserved : List Text)

/-- `ExprCode e names code x names'`: the code computes `e` into the operand `x`. -/
inductive ExprCode : Expr → Names → List Instr → Text → Names → Prop
  | number {span : Span} {value : Float} {raw : Text} {names : Names} :
      ExprCode (.number span value raw) names [] (numberText value raw) names
  | boolean {span : Span} {value : Bool} {names : Names} :
      ExprCode (.boolean span value) names [] (if value then "1" else "0") names
  | name {n : Name} {names : Names} : ExprCode (.name n) names [] n.text names
  | binary {span : Span} {op : Kind} {l r : Expr} {names names₁ names₂ : Names}
      {codeL codeR : List Instr} {x y : Text} :
      ExprCode l names codeL x names₁ → ExprCode r names₁ codeR y names₂ →
      ExprCode (.binary span op l r) names
        (codeL ++ codeR ++ [⟨.compute scheme.type (scheme.temp (names₂.nextTemp scheme reserved))
          (.ofParts op.symbol x y), span.start⟩])
        (scheme.temp (names₂.nextTemp scheme reserved)) (names₂.withTemp scheme reserved)
  | unary {span : Span} {op : Kind} {e : Expr} {names names₁ : Names} {code : List Instr}
      {x : Text} :
      ExprCode e names code x names₁ →
      ExprCode (.unary span op e) names
        (code ++ [⟨.compute scheme.type (scheme.temp (names₁.nextTemp scheme reserved))
          (.ofParts op.symbol x []), span.start⟩])
        (scheme.temp (names₁.nextTemp scheme reserved)) (names₁.withTemp scheme reserved)

/-- The code of a bound, which is the copy of a plain variable. -/
inductive BoundCode : Expr → Names → List Instr → Text → Names → Prop
  | plain {e : Expr} {names names' : Names} {code : List Instr} {x : Text} :
      e.name? = none → ExprCode scheme reserved e names code x names' →
      BoundCode e names code x names'
  | copied {n : Name} {names : Names} :
      BoundCode (.name n) names
        [⟨.compute scheme.type (scheme.temp (names.nextTemp scheme reserved)) (.copy n.text),
          n.span.start⟩]
        (scheme.temp (names.nextTemp scheme reserved)) (names.withTemp scheme reserved)

/-- The code of the conditions of a chain. -/
inductive ConditionsCode : List (Branch Stmt) → Names → List Instr → List Text → Names → Prop
  | nil {names : Names} : ConditionsCode [] names [] [] names
  | cons {b : Branch Stmt} {rest : List (Branch Stmt)} {names names₁ names₂ : Names}
      {code codes : List Instr} {x : Text} {xs : List Text} :
      ExprCode scheme reserved b.cond names code x names₁ →
      ConditionsCode rest names₁ codes xs names₂ →
      ConditionsCode (b :: rest) names (code ++ codes) (x :: xs) names₂

/-- The instructions that store an operand into a variable, which they declare if it is new. -/
inductive StoreCode (isNew : Bool) (target : Text) (op : Kind) (x : Text) (pos : Pos) :
    List Instr → Prop
  | first : isNew → op = .op .assign →
      StoreCode isNew target op x pos [⟨.store (some scheme.type) target op.symbol x, pos⟩]
  | declared : isNew → op ≠ .op .assign → StoreCode isNew target op x pos
      [⟨.declare scheme.type target, pos⟩, ⟨.store none target op.symbol x, pos⟩]
  | plain : isNew = false →
      StoreCode isNew target op x pos [⟨.store none target op.symbol x, pos⟩]

/-- What is lowered, besides expressions. -/
inductive Task where
  | stmt (s : Stmt)
  | list (ss : List Stmt)
  /-- The clauses of a chain that ends at the label `stop`; `conds` holds the operands of their
  conditions. -/
  | chain (stop : Text) (conds : List Text) (branches : List (Branch Stmt))

/-- `Lowered loop task names code names'`: the code of a task inside the given loop. -/
inductive Lowered : Option Loop → Task → Names → List Instr → Names → Prop
  | nil {loop : Option Loop} {names : Names} : Lowered loop (.list []) names [] names
  | cons {loop : Option Loop} {s : Stmt} {rest : List Stmt} {names names₁ names₂ : Names}
      {code codes : List Instr} :
      Lowered loop (.stmt s) names code names₁ → Lowered loop (.list rest) names₁ codes names₂ →
      Lowered loop (.list (s :: rest)) names (code ++ codes) names₂
  | assign {loop : Option Loop} {span : Span} {target : Name} {op : Kind} {value : Expr}
      {names names₁ : Names} {code stores : List Instr} {x : Text} :
      ExprCode scheme reserved value names code x names₁ →
      StoreCode scheme (!names₁.symbols.contains target.text) target.text op x span.start stores →
      Lowered loop (.stmt (.assign span target op value)) names (code ++ stores)
        (names₁.withName target)
  | eval {loop : Option Loop} {span : Span} {e : Expr} {names names₁ : Names} {code : List Instr}
      {x : Text} :
      ExprCode scheme reserved e names code x names₁ →
      Lowered loop (.stmt (.eval span e)) names code names₁
  | branch {loop : Option Loop} {span : Span} {bs : List (Branch Stmt)}
      {otherwise : Option (Block Stmt)} {names names₁ names₂ names₃ : Names}
      {code clauses last : List Instr} {xs : List Text} : bs ≠ [] →
      ConditionsCode scheme reserved bs names code xs names₁ →
      Lowered loop (.chain (scheme.label (names₁.labels + 1)) xs bs) names₁.withLabel clauses
        names₂ →
      Lowered loop (.list (Stmt.ofBody otherwise)) names₂ last names₃ →
      Lowered loop (.stmt (.branch span bs otherwise)) names
        (code ++ clauses ++ last ++ [⟨.label (scheme.label (names₁.labels + 1)), span.start⟩])
        names₃
  | chainNil {loop : Option Loop} {stop : Text} {names : Names} :
      Lowered loop (.chain stop [] []) names [] names
  | chainCons {loop : Option Loop} {stop x : Text} {xs : List Text} {cond : Expr}
      {body : Option (Block Stmt)} {rest : List (Branch Stmt)} {names names₁ names₂ : Names}
      {inner clauses : List Instr} :
      Lowered loop (.list (Stmt.ofBody body)) names.withLabel inner names₁ →
      Lowered loop (.chain stop xs rest) names₁ clauses names₂ →
      Lowered loop (.chain stop (x :: xs) (⟨cond, body⟩ :: rest)) names
        ([⟨.jumpUnless x (scheme.label (names.labels + 1)), cond.start⟩] ++ inner ++
          [⟨.jump stop, cond.start⟩, ⟨.label (scheme.label (names.labels + 1)), cond.start⟩] ++
          clauses) names₂
  | whileLoop {loop : Option Loop} {span : Span} {cond : Expr} {body : Option (Block Stmt)}
      {names names₁ names₂ : Names} {code inner : List Instr} {x : Text} :
      ExprCode scheme reserved cond names.withLabel.withLabel code x names₁ →
      Lowered (some ⟨scheme.label (names.labels + 2), scheme.label (names.labels + 1)⟩)
        (.list (Stmt.ofBody body)) names₁ inner names₂ →
      Lowered loop (.stmt (.whileLoop span cond body)) names
        ([⟨.label (scheme.label (names.labels + 1)), span.start⟩] ++ code ++
          [⟨.jumpUnless x (scheme.label (names.labels + 2)), cond.start⟩] ++ inner ++
          [⟨.jump (scheme.label (names.labels + 1)), span.start⟩,
            ⟨.label (scheme.label (names.labels + 2)), span.start⟩]) names₂
  | forLoop {loop : Option Loop} {span : Span} {var : Name} {range : Range}
      {body : Option (Block Stmt)} {names names₁ names₂ names₃ named names₄ : Names}
      {code₁ code₂ code₃ inner : List Instr} {first last step : Text} {type : Option Text} :
      ExprCode scheme reserved range.start names code₁ first names₁ →
      BoundCode scheme reserved range.stop names₁ code₂ last names₂ →
      BoundCode scheme reserved range.step names₂ code₃ step names₃ →
      named = names₃.withName var →
      type = (if names₃.symbols.contains var.text then none else some scheme.type) →
      Lowered (some ⟨scheme.label (named.labels + 3), scheme.label (named.labels + 2)⟩)
        (.list (Stmt.ofBody body)) named.withLabel.withLabel.withLabel inner names₄ →
      Lowered loop (.stmt (.forLoop span var range body)) names
        (code₁ ++ code₂ ++ code₃ ++
          [⟨.store type var.text "=" first, span.start⟩,
            ⟨.label (scheme.label (named.labels + 1)), span.start⟩,
            ⟨.jumpIf var.text (Lower.exitTest range.step) last
              (scheme.label (named.labels + 3)), span.start⟩] ++ inner ++
          [⟨.label (scheme.label (named.labels + 2)), span.start⟩,
            ⟨.store none var.text "+=" step, span.start⟩,
            ⟨.jump (scheme.label (named.labels + 1)), span.start⟩,
            ⟨.label (scheme.label (named.labels + 3)), span.start⟩]) names₄
  | breakLoop {loop : Loop} {span : Span} {names : Names} :
      Lowered (some loop) (.stmt (.breakLoop span)) names [⟨.jump loop.breakTo, span.start⟩] names
  | continueLoop {loop : Loop} {span : Span} {names : Names} :
      Lowered (some loop) (.stmt (.continueLoop span)) names
        [⟨.jump loop.continueTo, span.start⟩] names

end

namespace Lower

variable {g g' : Generator} {code : List Instr}

theorem exprCode_of_expr {e : Expr} {x : Text} (h : expr e g = .ok (code, x) g') :
    ∃ names, g' = { g with names := names } ∧
      ExprCode g.scheme g.reserved e g.names code x names := by
  induction e generalizing g code x g' with
  | missing => exact absurd h throw_ne_ok
  | number span value raw =>
    obtain ⟨hpair, rfl⟩ := pure_eq_ok.1 h
    cases hpair
    exact ⟨_, rfl, .number⟩
  | boolean span value =>
    obtain ⟨hpair, rfl⟩ := pure_eq_ok.1 h
    cases hpair
    exact ⟨_, rfl, .boolean⟩
  | name n =>
    obtain ⟨hpair, rfl⟩ := pure_eq_ok.1 h
    cases hpair
    exact ⟨_, rfl, .name⟩
  | binary span op l r ihl ihr =>
    obtain ⟨⟨codeL, x⟩, g₁, hlRun, h⟩ := bind_eq_ok.1 h
    obtain ⟨⟨codeR, y⟩, g₂, hrRun, h⟩ := bind_eq_ok.1 h
    obtain ⟨t, g₃, ht, h⟩ := bind_eq_ok.1 h
    obtain ⟨type, g₄, htype, h⟩ := bind_eq_ok.1 h
    obtain ⟨names₁, rfl, hl⟩ := ihl hlRun
    obtain ⟨names₂, rfl, hr⟩ := ihr hrRun
    obtain ⟨rfl, rfl⟩ := newTemp_eq_ok.1 ht
    obtain ⟨rfl, rfl⟩ := type_eq_ok.1 htype
    obtain ⟨hpair, rfl⟩ := pure_eq_ok.1 h
    cases hpair
    exact ⟨_, rfl, .binary hl hr⟩
  | unary span op e ih =>
    obtain ⟨⟨code, x⟩, g₁, heRun, h⟩ := bind_eq_ok.1 h
    obtain ⟨t, g₂, ht, h⟩ := bind_eq_ok.1 h
    obtain ⟨type, g₃, htype, h⟩ := bind_eq_ok.1 h
    obtain ⟨names₁, rfl, he⟩ := ih heRun
    obtain ⟨rfl, rfl⟩ := newTemp_eq_ok.1 ht
    obtain ⟨rfl, rfl⟩ := type_eq_ok.1 htype
    obtain ⟨hpair, rfl⟩ := pure_eq_ok.1 h
    cases hpair
    exact ⟨_, rfl, .unary he⟩

theorem boundCode_of_bound {e : Expr} {x : Text} (h : bound e g = .ok (code, x) g') :
    ∃ names, g' = { g with names := names } ∧
      BoundCode g.scheme g.reserved e g.names code x names := by
  obtain ⟨⟨code₁, y⟩, g₁, heRun, h⟩ := bind_eq_ok.1 h
  obtain ⟨⟨copy, z⟩, g₂, hs, h⟩ := bind_eq_ok.1 h
  obtain ⟨hpair, rfl⟩ := pure_eq_ok.1 h
  cases hpair
  obtain ⟨names₁, rfl, he⟩ := exprCode_of_expr heRun
  cases hn : e.name? with
  | none =>
    simp only [snapshot, hn] at hs
    obtain ⟨hpair, rfl⟩ := pure_eq_ok.1 hs
    cases hpair
    rw [List.append_nil]
    exact ⟨_, rfl, .plain hn he⟩
  | some n =>
    simp only [snapshot, hn] at hs
    obtain ⟨t, g₃, ht, hs⟩ := bind_eq_ok.1 hs
    obtain ⟨type, g₄, htype, hs⟩ := bind_eq_ok.1 hs
    obtain ⟨rfl, rfl⟩ := newTemp_eq_ok.1 ht
    obtain ⟨rfl, rfl⟩ := type_eq_ok.1 htype
    obtain ⟨hpair, rfl⟩ := pure_eq_ok.1 hs
    cases hpair
    cases he <;> simp [Expr.name?] at hn
    subst hn
    exact ⟨_, rfl, .copied⟩

theorem conditionsCode_of_conditions {bs : List (Branch Stmt)} {xs : List Text}
    (h : conditions bs g = .ok (code, xs) g') :
    ∃ names, g' = { g with names := names } ∧
      ConditionsCode g.scheme g.reserved bs g.names code xs names := by
  induction bs generalizing g code xs g' with
  | nil =>
    obtain ⟨hpair, rfl⟩ := pure_eq_ok.1 h
    cases hpair
    exact ⟨_, rfl, .nil⟩
  | cons b rest ih =>
    obtain ⟨⟨code₁, x⟩, g₁, heRun, h⟩ := bind_eq_ok.1 h
    obtain ⟨⟨codes, xs⟩, g₂, hrRun, h⟩ := bind_eq_ok.1 h
    obtain ⟨names₁, rfl, he⟩ := exprCode_of_expr heRun
    obtain ⟨names₂, rfl, hr⟩ := ih hrRun
    obtain ⟨hpair, rfl⟩ := pure_eq_ok.1 h
    cases hpair
    exact ⟨_, rfl, .cons he hr⟩

end Lower

theorem ConditionsCode.length_eq {scheme : Scheme} {reserved : List Text} {names names' : Names}
    {code : List Instr} {bs : List (Branch Stmt)} {xs : List Text}
    (h : ConditionsCode scheme reserved bs names code xs names') : xs.length = bs.length := by
  induction h with
  | nil => rfl
  | cons _ _ ih => simp [ih]

/-- The code of a task inside the loops of the generator `g`, which then is `g'`: nothing but the
names that were handed out has changed. -/
def LoweredBy (g : Generator) (task : Task) (code : List Instr) (g' : Generator) : Prop :=
  ∃ names, g' = { g with names := names } ∧
    Lowered g.scheme g.reserved g.loops.head? task g.names code names

namespace Lower

/-- A body inside a loop leaves the loops around it as they were. -/
theorem loweredBy_inside {loop : Loop} {x : Lower (List Instr)} {task : Task} {g g' : Generator}
    {code : List Instr} (hx : ∀ {g g' : Generator} {code : List Instr}, x g = .ok code g' →
      LoweredBy g task code g') (h : inside loop x g = .ok code g') :
    ∃ names, g' = { g with names := names } ∧
      Lowered g.scheme g.reserved (some loop) task g.names code names := by
  obtain ⟨g₁, hrun, rfl⟩ := inside_eq_ok.1 h
  obtain ⟨names, rfl, hcode⟩ := hx hrun
  exact ⟨names, rfl, hcode⟩

mutual

theorem lowered_of_stmt : ∀ (s : Stmt) {g g' : Generator} {code : List Instr},
    stmt s g = .ok code g' → LoweredBy g (.stmt s) code g'
  | .missing, _, _, _, h => absurd h throw_ne_ok
  | .assign span target op value, g, g', code, h => by
    obtain ⟨⟨code₁, x⟩, g₁, heRun, h⟩ := bind_eq_ok.1 h
    obtain ⟨isNew, g₂, hd, h⟩ := bind_eq_ok.1 h
    obtain ⟨type, g₃, htype, h⟩ := bind_eq_ok.1 h
    obtain ⟨names₁, rfl, he⟩ := exprCode_of_expr heRun
    obtain ⟨hnew, rfl⟩ := declare_eq_ok.1 hd
    obtain ⟨rfl, rfl⟩ := type_eq_ok.1 htype
    by_cases hfirst : isNew ∧ op = .op .assign
    · rw [if_pos (by simpa using hfirst)] at h
      obtain ⟨rfl, rfl⟩ := pure_eq_ok.1 h
      exact ⟨_, rfl, .assign he (.first (hnew ▸ hfirst.1) hfirst.2)⟩
    · rw [if_neg (by simpa using hfirst)] at h
      cases isNew with
      | true =>
        obtain ⟨rfl, rfl⟩ := pure_eq_ok.1 h
        exact ⟨_, rfl, .assign he (.declared hnew.symm fun hop => hfirst ⟨rfl, hop⟩)⟩
      | false =>
        obtain ⟨rfl, rfl⟩ := pure_eq_ok.1 h
        exact ⟨_, rfl, .assign he (.plain hnew.symm)⟩
  | .eval span e, g, g', code, h => by
    obtain ⟨⟨code₁, x⟩, g₁, heRun, h⟩ := bind_eq_ok.1 h
    obtain ⟨names₁, rfl, he⟩ := exprCode_of_expr heRun
    obtain ⟨rfl, rfl⟩ := pure_eq_ok.1 h
    exact ⟨_, rfl, .eval he⟩
  | .branch span bs otherwise, g, g', code, h => by
    rw [stmt] at h
    split at h
    · exact absurd h throw_ne_ok
    · rename_i hne
      obtain ⟨⟨code₁, xs⟩, g₁, hcRun, h⟩ := bind_eq_ok.1 h
      obtain ⟨stop, g₂, hl, h⟩ := bind_eq_ok.1 h
      obtain ⟨clauses, g₃, hclausesRun, h⟩ := bind_eq_ok.1 h
      obtain ⟨last, g₄, hlastRun, h⟩ := bind_eq_ok.1 h
      obtain ⟨names₁, rfl, hc⟩ := conditionsCode_of_conditions hcRun
      obtain ⟨rfl, rfl⟩ := newLabel_eq_ok.1 hl
      obtain ⟨names₂, rfl, hclauses⟩ := lowered_of_chain _ bs xs hc.length_eq hclausesRun
      obtain ⟨names₃, rfl, hlast⟩ := lowered_of_body otherwise hlastRun
      obtain ⟨rfl, rfl⟩ := pure_eq_ok.1 h
      exact ⟨_, rfl, .branch (by simpa using hne) hc hclauses hlast⟩
  | .whileLoop span cond body, g, g', code, h => by
    obtain ⟨start, g₁, hl, h⟩ := bind_eq_ok.1 h
    obtain ⟨rfl, rfl⟩ := newLabel_eq_ok.1 hl
    obtain ⟨stop, g₂, hl, h⟩ := bind_eq_ok.1 h
    obtain ⟨rfl, rfl⟩ := newLabel_eq_ok.1 hl
    obtain ⟨⟨code₁, x⟩, g₃, heRun, h⟩ := bind_eq_ok.1 h
    obtain ⟨inner, g₄, hbRun, h⟩ := bind_eq_ok.1 h
    obtain ⟨names₁, rfl, he⟩ := exprCode_of_expr heRun
    obtain ⟨names₂, rfl, hb⟩ := loweredBy_inside (lowered_of_body body) hbRun
    obtain ⟨rfl, rfl⟩ := pure_eq_ok.1 h
    exact ⟨_, rfl, .whileLoop he hb⟩
  | .forLoop span var range body, g, g', code, h => by
    obtain ⟨⟨code₁, first⟩, g₁, heRun, h⟩ := bind_eq_ok.1 h
    obtain ⟨⟨code₂, last⟩, g₂, hstopRun, h⟩ := bind_eq_ok.1 h
    obtain ⟨⟨code₃, step⟩, g₃, hstepRun, h⟩ := bind_eq_ok.1 h
    obtain ⟨isNew, g₄, hd, h⟩ := bind_eq_ok.1 h
    obtain ⟨type, g₅, htype, h⟩ := bind_eq_ok.1 h
    obtain ⟨names₁, rfl, he⟩ := exprCode_of_expr heRun
    obtain ⟨names₂, rfl, hstop⟩ := boundCode_of_bound hstopRun
    obtain ⟨names₃, rfl, hstep⟩ := boundCode_of_bound hstepRun
    obtain ⟨rfl, rfl⟩ := declare_eq_ok.1 hd
    obtain ⟨rfl, rfl⟩ := type_eq_ok.1 htype
    obtain ⟨again, g₆, hl, h⟩ := bind_eq_ok.1 h
    obtain ⟨rfl, rfl⟩ := newLabel_eq_ok.1 hl
    obtain ⟨next, g₇, hl, h⟩ := bind_eq_ok.1 h
    obtain ⟨rfl, rfl⟩ := newLabel_eq_ok.1 hl
    obtain ⟨stop, g₈, hl, h⟩ := bind_eq_ok.1 h
    obtain ⟨rfl, rfl⟩ := newLabel_eq_ok.1 hl
    obtain ⟨inner, g₉, hbRun, h⟩ := bind_eq_ok.1 h
    obtain ⟨names₄, rfl, hb⟩ := loweredBy_inside (lowered_of_body body) hbRun
    obtain ⟨rfl, rfl⟩ := pure_eq_ok.1 h
    exact ⟨_, rfl, .forLoop he hstop hstep rfl
      (by cases names₃.symbols.contains var.text <;> rfl) hb⟩
  | .breakLoop span, g, g', code, h => by
    obtain ⟨loop, g₁, hloop, h⟩ := bind_eq_ok.1 h
    obtain ⟨hhead, rfl⟩ := innermost_eq_ok.1 hloop
    obtain ⟨rfl, rfl⟩ := pure_eq_ok.1 h
    exact ⟨_, rfl, hhead ▸ .breakLoop⟩
  | .continueLoop span, g, g', code, h => by
    obtain ⟨loop, g₁, hloop, h⟩ := bind_eq_ok.1 h
    obtain ⟨hhead, rfl⟩ := innermost_eq_ok.1 hloop
    obtain ⟨rfl, rfl⟩ := pure_eq_ok.1 h
    exact ⟨_, rfl, hhead ▸ .continueLoop⟩

theorem lowered_of_body : ∀ (b : Option (Block Stmt)) {g g' : Generator} {code : List Instr},
    body b g = .ok code g' → LoweredBy g (.list (Stmt.ofBody b)) code g'
  | none, _, _, _, h => by
    obtain ⟨rfl, rfl⟩ := pure_eq_ok.1 h
    exact ⟨_, rfl, .nil⟩
  | some ⟨_, _, stmts⟩, _, _, _, h => lowered_of_list stmts h

theorem lowered_of_list : ∀ (ss : List Stmt) {g g' : Generator} {code : List Instr},
    list ss g = .ok code g' → LoweredBy g (.list ss) code g'
  | [], _, _, _, h => by
    obtain ⟨rfl, rfl⟩ := pure_eq_ok.1 h
    exact ⟨_, rfl, .nil⟩
  | s :: rest, _, _, _, h => by
    obtain ⟨code, g₁, hsRun, h⟩ := bind_eq_ok.1 h
    obtain ⟨codes, g₂, hrRun, h⟩ := bind_eq_ok.1 h
    obtain ⟨names₁, rfl, hs⟩ := lowered_of_stmt s hsRun
    obtain ⟨names₂, rfl, hr⟩ := lowered_of_list rest hrRun
    obtain ⟨rfl, rfl⟩ := pure_eq_ok.1 h
    exact ⟨_, rfl, .cons hs hr⟩

theorem lowered_of_chain (stop : Text) : ∀ (bs : List (Branch Stmt)) (xs : List Text)
    {g g' : Generator} {code : List Instr}, xs.length = bs.length →
    chain stop xs bs g = .ok code g' → LoweredBy g (.chain stop xs bs) code g'
  | [], [], _, _, _, _, h => by
    obtain ⟨rfl, rfl⟩ := pure_eq_ok.1 h
    exact ⟨_, rfl, .chainNil⟩
  | ⟨cond, body⟩ :: rest, x :: xs, _, _, _, hlen, h => by
    obtain ⟨next, g₁, hl, h⟩ := bind_eq_ok.1 h
    obtain ⟨rfl, rfl⟩ := newLabel_eq_ok.1 hl
    obtain ⟨inner, g₂, hbRun, h⟩ := bind_eq_ok.1 h
    obtain ⟨clauses, g₃, hrRun, h⟩ := bind_eq_ok.1 h
    obtain ⟨names₁, rfl, hb⟩ := lowered_of_body body hbRun
    obtain ⟨names₂, rfl, hr⟩ := lowered_of_chain stop rest xs (by simpa using hlen) hrRun
    obtain ⟨rfl, rfl⟩ := pure_eq_ok.1 h
    exact ⟨_, rfl, .chainCons hb hr⟩

end

end Lower

/-- A lowered program has the code of its statements, and the counts of the names handed out. -/
theorem Program.lower_eq_ok {scheme : Scheme} {p : Program} {listing : Listing}
    (h : p.lower scheme = .ok listing) : ∃ names, Lowered scheme.filled
      (scheme.filled.reserved (p.names.map (·.text))) none (.list p.stmts) .initial listing.code
      names ∧ listing.temps = names.temps ∧ listing.labels = names.labels := by
  unfold Program.lower Generator.generate at h
  cases hrun : (Lower.list p.stmts).run ((Generator.new scheme).reset.reserve p) with
  | error e g => simp [hrun, Except.map] at h
  | ok code g =>
    obtain ⟨names, rfl, hcode⟩ := Lower.lowered_of_list p.stmts hrun
    simp only [hrun, Except.map, Except.ok.injEq] at h
    subst h
    exact ⟨names, hcode, rfl, rfl⟩

/-- The code of a lowered program is that of its statements. -/
theorem Program.lowered_of_lower {scheme : Scheme} {p : Program} {listing : Listing}
    (h : p.lower scheme = .ok listing) : ∃ names, Lowered scheme.filled
      (scheme.filled.reserved (p.names.map (·.text))) none (.list p.stmts) .initial listing.code
      names := by
  obtain ⟨names, hcode, -⟩ := Program.lower_eq_ok h
  exact ⟨names, hcode⟩

end ThreeAddress
