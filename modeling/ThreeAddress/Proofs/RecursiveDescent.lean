import ThreeAddress.Proofs.TokenStreams

/-! Parsing by recursive descent with one token in view. Every loop and every recursion takes one
unit of fuel for a round; each round takes a token or fails, so that fuel for the tokens that are
left is enough. -/
namespace ThreeAddress

/-- The kind of an operator of the class `level`. -/
def Kind.isOp (level : Op → Bool) : Kind → Bool
  | .op o => level o
  | _ => false

theorem Kind.exists_of_isOp {level : Op → Bool} {k : Kind} (h : k.isOp level) :
    ∃ o, k = .op o ∧ level o := by
  cases k with
  | op o => exact ⟨o, rfl, h⟩
  | _ => cases h

theorem Kind.ne_eof_of_isOp {level : Op → Bool} {k : Kind} (h : k.isOp level) : k ≠ .eof := by
  rintro rfl
  cases h

namespace Parser

/-- The parser in the source: the token in view and what is known of those before it. -/
structure Cursor where
  token : Token
  /-- The end of the last token that was taken. -/
  last : Pos
  /-- The source has said that it is at its end. -/
  ended : Bool
  /-- How often the source was asked. -/
  calls : Nat

/-- Why the descent stops early. -/
inductive Stop where
  | failed (e : SyntaxError)
  /-- There was not enough fuel. -/
  | exhausted

/-- A part of the descent. A stop keeps the cursor. -/
abbrev Descent := EStateM Stop Cursor

namespace Descent

def peek : Descent Token := fun c => .ok c.token c

def last : Descent Pos := fun c => .ok c.last c

def fail {α : Type} (e : SyntaxError) : Descent α := throw (.failed e)

variable (source : Nat → Delivery)

/-- Takes the token in view. The source is asked for the next one unless it has ended. -/
def next : Descent Unit := fun c =>
  let last := c.token.stop
  if c.ended then .ok () { c with last }
  else match source c.calls with
    | .token t =>
      if t.kind = .illegal then
        .error (.failed ⟨t.pos, t.text, .illegal t.text⟩) { c with last, calls := c.calls + 1 }
      else .ok () ⟨t, last, false, c.calls + 1⟩
    | .ended pos =>
      .ok () ⟨⟨.eof, [], if pos.isKnown then pos else last⟩, last, true, c.calls + 1⟩

/-- Takes a token of the kind `kind`, and accepts no other. -/
def expect (kind : Kind) : Descent Pos := do
  let t ← peek
  if t.kind = kind then
    next source
    return t.pos
  else fail (.expected t [kind.describe])

/-- A leaf, or an expression in parentheses. -/
def primary (nested : Descent Expr) : Descent Expr := do
  let t ← peek
  match t.kind with
  | .number =>
    match numberLeaf t with
    | .error e => fail e
    | .ok e =>
      next source
      return e
  | .name =>
    next source
    return .name ⟨⟨t.pos, ← last⟩, t.text⟩
  | .keyword .trueWord =>
    next source
    return .boolean ⟨t.pos, ← last⟩ true
  | .keyword .falseWord =>
    next source
    return .boolean ⟨t.pos, ← last⟩ false
  | .op .lparen =>
    next source
    let e ← nested
    let _ ← expect source (.op .rparen)
    return e
  | _ => fail (.expected t operandStarts)

/-- Signs in front of an operand. -/
def unary (nested : Descent Expr) : Nat → Descent Expr
  | 0 => throw .exhausted
  | fuel + 1 => do
    let t ← peek
    if t.kind.isOp Op.isSign then
      next source
      let e ← unary nested fuel
      return .unary ⟨t.pos, e.stop⟩ t.kind e
    else primary source nested

/-- The operators of one level after the operand `left`, each with its right operand. -/
def operations (operand : Descent Expr) (level : Op → Bool) : Nat → Expr → Descent Expr
  | 0, _ => throw .exhausted
  | fuel + 1, left => do
    let t ← peek
    if t.kind.isOp level then
      next source
      let right ← operand
      operations operand level fuel (.binary ⟨left.start, right.stop⟩ t.kind left right)
    else return left

/-- Operators of one level, which group to the left. -/
def binaryLeft (operand : Descent Expr) (level : Op → Bool) (fuel : Nat) : Descent Expr := do
  let left ← operand
  operations source operand level fuel left

def product (nested : Descent Expr) (fuel : Nat) : Descent Expr :=
  binaryLeft source (unary source nested fuel) Op.isMultiplicative fuel

def sum (nested : Descent Expr) (fuel : Nat) : Descent Expr :=
  binaryLeft source (product source nested fuel) Op.isAdditive fuel

/-- Comparisons and connectives, which do not chain. -/
def comparison (nested : Descent Expr) (fuel : Nat) : Descent Expr := do
  let left ← sum source nested fuel
  let t ← peek
  if t.kind.isRelational then
    next source
    let right ← sum source nested fuel
    let u ← peek
    if u.kind.isRelational then fail ⟨u.pos, u.describe, .chained u.describe t.kind⟩
    else return .binary ⟨left.start, right.stop⟩ t.kind left right
  else return left

def expr : Nat → Descent Expr
  | 0 => throw .exhausted
  | fuel + 1 => comparison source (expr fuel) (fuel + 1)

/-- The arguments of `range` after the first one; `more` holds those read so far in reverse. -/
def bounds (argument : Descent Expr) : Nat → List Expr → Descent (List Expr)
  | 0, _ => throw .exhausted
  | fuel + 1, more => do
    let t ← peek
    if t.kind = .op .comma then
      next source
      let e ← argument
      bounds argument fuel (e :: more)
    else return more.reverse

/-- The end of a call of `range`, which has from one to three arguments. -/
def closeRange (word : Pos) (first : Expr) (more : List Expr) : Descent Range :=
  let close (range : Range) : Descent Range := do
    let _ ← expect source (.op .rparen)
    return range
  match more with
  | [] => close ⟨implicit word 0, first, implicit word 1⟩
  | [stop] => close ⟨first, stop, implicit word 1⟩
  | [stop, step] => close ⟨first, stop, step⟩
  | _ :: _ :: extra :: _ => fail ⟨extra.start, [], .rangeCount (more.length + 1)⟩

/-- The arguments of `range`, whose name stands at `word`. -/
def range (fuel : Nat) (word : Pos) : Descent Range := do
  let _ ← expect source (.op .lparen)
  let t ← peek
  if t.kind = .op .rparen then fail ⟨t.pos, t.describe, .rangeCount 0⟩
  else
    let first ← expr source fuel
    let more ← bounds source (expr source fuel) fuel []
    closeRange source word first more

/-- The statements of a block after those in `done`, which are in reverse. -/
def blockStmts (stmt : Descent Stmt) : Nat → List Stmt → Descent (List Stmt)
  | 0, _ => throw .exhausted
  | fuel + 1, done => do
    let t ← peek
    if t.kind = .op .rbrace then return done.reverse
    else if t.kind = .eof then fail (.expected t [Op.rbrace.symbol])
    else if t.kind = .op .semicolon then
      next source
      blockStmts stmt fuel done
    else
      let s ← stmt
      blockStmts stmt fuel (s :: done)

def block (stmt : Descent Stmt) (fuel : Nat) : Descent (Block Stmt) := do
  let opens ← expect source (.op .lbrace)
  let stmts ← blockStmts source stmt fuel []
  let closes ← expect source (.op .rbrace)
  return ⟨opens, closes, stmts⟩

/-- A condition and its block. -/
def branch (stmt : Descent Stmt) (fuel : Nat) : Descent (Branch Stmt) := do
  let cond ← expr source fuel
  let _ ← expect source (.op .colon)
  let body ← block source stmt fuel
  return ⟨cond, body⟩

/-- The branches of a chain after those in `done`, which are in reverse. -/
def elifs (branch : Descent (Branch Stmt)) : Nat → List (Branch Stmt) →
    Descent (List (Branch Stmt))
  | 0, _ => throw .exhausted
  | fuel + 1, done => do
    let t ← peek
    if t.kind = .keyword .elifWord then
      next source
      let b ← branch
      elifs branch fuel (b :: done)
    else return done.reverse

/-- The chain that starts at `start`, after its first word. -/
def chain (stmt : Descent Stmt) (fuel : Nat) (start : Pos) : Descent Stmt := do
  let first ← branch source stmt fuel
  let branches ← elifs source (branch source stmt fuel) fuel [first]
  let t ← peek
  if t.kind = .keyword .elseWord then
    next source
    let _ ← expect source (.op .colon)
    let body ← block source stmt fuel
    return .branch ⟨start, ← last⟩ branches (some body)
  else return .branch ⟨start, ← last⟩ branches none

/-- The loop with a condition that starts at `start`, after its first word. -/
def whileLoop (stmt : Descent Stmt) (fuel : Nat) (start : Pos) : Descent Stmt := do
  let cond ← expr source fuel
  let _ ← expect source (.op .colon)
  let body ← block source stmt fuel
  return .whileLoop ⟨start, ← last⟩ cond (some body)

/-- The loop over a range that starts at `start`, after its first word. -/
def forLoop (stmt : Descent Stmt) (fuel : Nat) (start : Pos) : Descent Stmt := do
  let t ← peek
  let place ← expect source .name
  let var : Name := ⟨⟨place, ← last⟩, t.text⟩
  let _ ← expect source (.keyword .inWord)
  let word ← expect source (.keyword .rangeWord)
  let bounds ← range source fuel word
  let _ ← expect source (.op .colon)
  let body ← block source stmt fuel
  return .forLoop ⟨start, ← last⟩ var bounds (some body)

/-- An assignment or an expression statement. -/
def simple (fuel : Nat) : Descent Stmt := do
  let e ← expr source fuel
  let t ← peek
  if t.kind.isAssign then
    match e.name? with
    | none => fail ⟨t.pos, t.describe, .notVariable⟩
    | some target =>
      next source
      let value ← expr source fuel
      return .assign ⟨target.span.start, value.stop⟩ target t.kind value
  else return .eval e.span e

def stmt : Nat → Descent Stmt
  | 0 => throw .exhausted
  | fuel + 1 => do
    let t ← peek
    match t.kind with
    | .keyword .ifWord =>
      next source
      chain source (stmt fuel) fuel t.pos
    | .keyword .whileWord =>
      next source
      whileLoop source (stmt fuel) fuel t.pos
    | .keyword .forWord =>
      next source
      forLoop source (stmt fuel) fuel t.pos
    | .keyword .breakWord =>
      next source
      return .breakLoop ⟨t.pos, ← last⟩
    | .keyword .continueWord =>
      next source
      return .continueLoop ⟨t.pos, ← last⟩
    | kind =>
      if kind.startsOperand then simple source (fuel + 1) else fail (.expected t ["statement"])

/-- The statements of a program after those in `done`, which are in reverse. -/
def stmts (stmt : Descent Stmt) : Nat → List Stmt → Descent (List Stmt)
  | 0, _ => throw .exhausted
  | fuel + 1, done => do
    let t ← peek
    if t.kind = .eof then return done.reverse
    else if t.kind = .op .semicolon then
      next source
      stmts stmt fuel done
    else
      let s ← stmt
      stmts stmt fuel (s :: done)

def program (fuel : Nat) : Descent Program := do
  next source
  let first ← peek
  let body ← stmts source (stmt source fuel) fuel []
  let final ← peek
  return ⟨⟨first.pos, final.pos⟩, body⟩

end Descent

/-- Nothing is read yet. -/
def Cursor.initial : Cursor := ⟨⟨.illegal, [], .unknown⟩, .unknown, false, 0⟩

/-- The outcome of the descent, with the number of questions to the source. There is none if the
fuel runs out. -/
def descend (source : Nat → Delivery) (fuel : Nat) : Option (Outcome Program) :=
  match Descent.program source fuel .initial with
  | .ok p c => some ⟨.ok p, c.calls⟩
  | .error (.failed e) c => some ⟨.error e, c.calls⟩
  | .error .exhausted _ => none

/-- What holds after a part that starts at `c`: `Q` if it ends, `F` if it stops early. -/
def Post {α : Type} (p : Descent α) (Q : α → Cursor → Prop) (F : Stop → Cursor → Prop)
    (c : Cursor) : Prop :=
  match p c with
  | .ok a c' => Q a c'
  | .error stop c' => F stop c'

section

variable {α β : Type} {p : Descent α} {f : α → Descent β} {Q Q' : α → Cursor → Prop}
  {R : β → Cursor → Prop} {F F' : Stop → Cursor → Prop} {c : Cursor}

theorem Post.mono (h : Post p Q F c) (hQ : ∀ a c', Q a c' → Q' a c')
    (hF : ∀ stop c', F stop c' → F' stop c') : Post p Q' F' c := by
  unfold Post at *
  split at h
  · exact hQ _ _ h
  · exact hF _ _ h

theorem Post.imp (h : Post p Q F c) (hQ : ∀ a c', Q a c' → Q' a c') : Post p Q' F c :=
  h.mono hQ fun _ _ h => h

theorem Post.bind (h : Post p Q F c) (hf : ∀ a c', Q a c' → Post (f a) R F c') :
    Post (p >>= f) R F c := by
  unfold Post at h
  show Post (EStateM.bind p f) R F c
  unfold Post EStateM.bind
  split at h
  · next a c' hp =>
    rw [hp]
    exact hf a c' h
  · next stop c' hp =>
    rw [hp]
    exact h

theorem post_peek_bind {f : Token → Descent β} :
    Post (Descent.peek >>= f) R F c = Post (f c.token) R F c := rfl

theorem post_last_bind {f : Pos → Descent β} :
    Post (Descent.last >>= f) R F c = Post (f c.last) R F c := rfl

end

/-- All answers but the last were tokens: the source is not asked after its end. -/
def Asked (source : Nat → Delivery) (calls : Nat) : Prop :=
  ∀ i, i + 1 < calls → ∃ t, source i = .token t

/-- The cursor tells whether the source has ended. -/
structure Proper (source : Nat → Delivery) (c : Cursor) : Prop where
  asked : Asked source c.calls
  more : c.ended = false → Asked source (c.calls + 1)
  ended : c.ended = true → c.token.kind = .eof

/-- From `c` on, the part takes at least `k` tokens or fails. It runs out of fuel only after as many
questions as it had fuel for. -/
def AdvancesFrom {α : Type} (source : Nat → Delivery) (fuel k : Nat) (p : Descent α) (c : Cursor) :
    Prop :=
  Post p (fun _ c' => c.calls + k ≤ c'.calls ∧ Proper source c')
    (fun stop c' => (stop = .exhausted → c.calls + fuel ≤ c'.calls) ∧ Asked source c'.calls) c

def Advances {α : Type} (source : Nat → Delivery) (fuel k : Nat) (p : Descent α) : Prop :=
  ∀ c, Proper source c → AdvancesFrom source fuel k p c

section

variable {α β : Type} {source : Nat → Delivery} {fuel fuel' k j : Nat} {p : Descent α}
  {f : α → Descent β} {c : Cursor}

theorem Advances.weaken (h : Advances source fuel k p) (hfuel : fuel' ≤ fuel) (hk : j ≤ k) :
    Advances source fuel' j p := by
  intro c hc
  apply (h c hc).mono
  · rintro a c' ⟨hcalls, hc'⟩
    exact ⟨by omega, hc'⟩
  · rintro stop c' ⟨hstop, hasked⟩
    exact ⟨fun hexhausted => by have := hstop hexhausted; omega, hasked⟩

/-- Each token that the first part takes is fuel for the second. -/
theorem Advances.bind_of_le (hp : Advances source fuel k p)
    (hf : ∀ a, Advances source fuel' j (f a)) (h : fuel ≤ fuel' + k) :
    Advances source fuel k (p >>= f) := by
  intro c hc
  apply (hp c hc).bind
  rintro a c' ⟨hcalls, hc'⟩
  apply (hf a c' hc').mono
  · rintro b c'' ⟨hcalls', hc''⟩
    exact ⟨by omega, hc''⟩
  · rintro stop c'' ⟨hstop, hasked⟩
    exact ⟨fun hexhausted => by have := hstop hexhausted; omega, hasked⟩

theorem Advances.bind (hp : Advances source fuel k p) (hf : ∀ a, Advances source fuel j (f a)) :
    Advances source fuel k (p >>= f) := hp.bind_of_le hf (Nat.le_add_right fuel k)

theorem advancesFrom_peek_bind {f : Token → Descent β} :
    AdvancesFrom source fuel k (Descent.peek >>= f) c =
      AdvancesFrom source fuel k (f c.token) c := rfl

theorem advances_exhausted : Advances source 0 k (throw .exhausted : Descent α) :=
  fun _ hc => ⟨fun _ => Nat.le_refl _, hc.asked⟩

theorem advances_pure (a : α) : Advances source fuel 0 (pure a : Descent α) :=
  fun _ hc => ⟨Nat.le_refl _, hc⟩

theorem advances_last : Advances source fuel 0 Descent.last := fun _ hc => ⟨Nat.le_refl _, hc⟩

theorem advances_fail (e : SyntaxError) : Advances source fuel k (Descent.fail e : Descent α) :=
  fun _ hc => ⟨nofun, hc.asked⟩

end

namespace Descent

variable {α : Type} {source : Nat → Delivery} {fuel fuel' rounds k j : Nat} {c : Cursor}

/-- Where a token is in view the source is asked once. -/
theorem next_post (hc : Proper source c) (ht : c.token.kind ≠ .eof) :
    Post (next source) (fun _ c' => c'.calls = c.calls + 1 ∧ Proper source c')
      (fun stop c' => stop ≠ .exhausted ∧ Asked source c'.calls) c := by
  have hopen : c.ended = false := by
    cases hended : c.ended with
    | false => rfl
    | true => exact absurd (hc.ended hended) ht
  have hasked := hc.more hopen
  unfold Post next
  simp only [hopen, Bool.false_eq_true, if_false]
  cases hanswer : source c.calls with
  | ended pos' => exact ⟨rfl, hasked, nofun, fun _ => rfl⟩
  | token t =>
    have hmore : Asked source (c.calls + 1 + 1) := by
      intro i hi
      by_cases heq : i = c.calls
      · exact ⟨t, by rw [heq, hanswer]⟩
      · exact hasked i (by omega)
    by_cases ht : t.kind = .illegal
    · simp only [ht, if_true]
      exact ⟨nofun, hasked⟩
    · simp only [ht, if_false]
      exact ⟨trivial, hasked, fun _ => hmore, nofun⟩

/-- A token is fuel for what follows it. -/
theorem next_bind {p : Descent α} (hp : Advances source fuel j p) (hc : Proper source c)
    (ht : c.token.kind ≠ .eof) (hfuel : fuel' ≤ fuel + 1) (hk : k ≤ 1) :
    AdvancesFrom source fuel' k (next source >>= fun _ => p) c := by
  have hnext := (next_post hc ht).mono (fun _ _ h => h) fun stop c' h =>
    (⟨fun hexhausted => absurd hexhausted h.1, h.2⟩ :
      (stop = .exhausted → c.calls + fuel' ≤ c'.calls) ∧ Asked source c'.calls)
  apply hnext.bind
  rintro - c' ⟨hcalls, hc'⟩
  apply (hp c' hc').mono
  · rintro a c'' ⟨hcalls', hc''⟩
    exact ⟨by omega, hc''⟩
  · rintro stop c'' ⟨hstop, hasked⟩
    exact ⟨fun hexhausted => by have := hstop hexhausted; omega, hasked⟩

theorem expect_advances {kind : Kind} (hkind : kind ≠ .eof) :
    Advances source fuel 1 (expect source kind) := by
  intro c hc
  rw [expect, advancesFrom_peek_bind]
  split
  · next ht =>
    exact next_bind (advances_pure _) hc (ht ▸ hkind) (Nat.le_succ fuel) (Nat.le_refl 1)
  · exact advances_fail _ c hc

theorem primary_advances {nested : Descent Expr} (hnested : Advances source fuel 1 nested) :
    Advances source (fuel + 1) 1 (primary source nested) := by
  intro c hc
  rw [primary, advancesFrom_peek_bind]
  have htoken {p : Descent Expr} {k : Nat} (hp : Advances source fuel k p)
      (ht : c.token.kind ≠ .eof) :
      AdvancesFrom source (fuel + 1) 1 (next source >>= fun _ => p) c :=
    next_bind hp hc ht (Nat.le_refl _) (Nat.le_refl 1)
  have hleaf (f : Pos → Expr) : Advances source fuel 0 (do return f (← last)) :=
    advances_last.bind fun stop => advances_pure (f stop)
  split
  · next ht =>
    split
    · exact advances_fail _ c hc
    · exact htoken (advances_pure _) (by simp [ht])
  · next ht => exact htoken (hleaf _) (by simp [ht])
  · next ht => exact htoken (hleaf _) (by simp [ht])
  · next ht => exact htoken (hleaf _) (by simp [ht])
  · next ht =>
    have hclose (e : Expr) : Advances source fuel 1 (do
        let _ ← expect source (.op .rparen)
        return e) :=
      (expect_advances (by simp)).bind fun _ => advances_pure e
    exact htoken (hnested.bind hclose) (by simp [ht])
  · exact advances_fail _ c hc

theorem unary_advances {nested : Descent Expr} (hnested : Advances source fuel 1 nested)
    (hrounds : rounds ≤ fuel + 1) : Advances source rounds 1 (unary source nested rounds) := by
  induction rounds with
  | zero => exact advances_exhausted
  | succ rounds ih =>
    intro c hc
    rw [unary, advancesFrom_peek_bind]
    split
    · next ht =>
      have hrest := (ih (by omega)).bind fun e =>
        advances_pure (Expr.unary ⟨c.token.pos, e.stop⟩ c.token.kind e)
      exact next_bind hrest hc (Kind.ne_eof_of_isOp ht) (Nat.le_refl _) (Nat.le_refl 1)
    · exact (primary_advances hnested).weaken hrounds (Nat.le_refl 1) c hc

/-- Every round takes an operator and an operand. -/
theorem operations_advances {operand : Descent Expr} (hoperand : Advances source fuel 1 operand)
    (level : Op → Bool) (hrounds : rounds ≤ fuel) (left : Expr) :
    Advances source rounds 0 (operations source operand level rounds left) := by
  induction rounds generalizing left with
  | zero => exact advances_exhausted
  | succ rounds ih =>
    intro c hc
    rw [operations, advancesFrom_peek_bind]
    split
    · next ht =>
      have hround := (hoperand.weaken (Nat.le_of_succ_le hrounds) (Nat.le_refl 1)).bind
        fun right => ih (by omega) (.binary ⟨left.start, right.stop⟩ c.token.kind left right)
      exact next_bind hround hc (Kind.ne_eof_of_isOp ht) (Nat.le_refl _) (Nat.zero_le 1)
    · exact advances_pure left c hc

theorem binaryLeft_advances {operand : Descent Expr} (hoperand : Advances source fuel 1 operand)
    (level : Op → Bool) : Advances source fuel 1 (binaryLeft source operand level fuel) :=
  hoperand.bind fun left => operations_advances hoperand level (Nat.le_refl fuel) left

theorem sum_advances {nested : Descent Expr} (hnested : Advances source fuel 1 nested) :
    Advances source (fuel + 1) 1 (sum source nested (fuel + 1)) :=
  binaryLeft_advances (binaryLeft_advances (unary_advances hnested (Nat.le_refl _)) _) _

theorem comparison_advances {nested : Descent Expr} (hnested : Advances source fuel 1 nested) :
    Advances source (fuel + 1) 1 (comparison source nested (fuel + 1)) := by
  have hsum := sum_advances hnested
  refine hsum.bind (j := 0) fun left => ?_
  intro c hc
  rw [advancesFrom_peek_bind]
  split
  · next ht =>
    have hrel : c.token.kind.isOp Op.isRelational := ht
    refine next_bind (hsum.bind (j := 0) fun right => ?_) hc (Kind.ne_eof_of_isOp hrel)
      (Nat.le_succ _) (Nat.zero_le 1)
    intro c' hc'
    rw [advancesFrom_peek_bind]
    split
    · exact advances_fail _ c' hc'
    · exact advances_pure _ c' hc'
  · exact advances_pure left c hc

/-- An expression takes a token or fails, however deep it is. -/
theorem expr_advances : Advances source fuel 1 (expr source fuel) := by
  induction fuel with
  | zero => exact advances_exhausted
  | succ fuel ih => exact comparison_advances ih

/-- Every round takes a comma and an argument. -/
theorem bounds_advances {argument : Descent Expr} (hargument : Advances source fuel 1 argument)
    (hrounds : rounds ≤ fuel) (more : List Expr) :
    Advances source rounds 0 (bounds source argument rounds more) := by
  induction rounds generalizing more with
  | zero => exact advances_exhausted
  | succ rounds ih =>
    intro c hc
    rw [bounds, advancesFrom_peek_bind]
    split
    · next ht =>
      have hround := (hargument.weaken (Nat.le_of_succ_le hrounds) (Nat.le_refl 1)).bind
        fun e => ih (by omega) (e :: more)
      exact next_bind hround hc (by simp [ht]) (Nat.le_refl _) (Nat.zero_le 1)
    · exact advances_pure _ c hc

theorem closeRange_advances (word : Pos) (first : Expr) (more : List Expr) :
    Advances source fuel 1 (closeRange source word first more) := by
  have hclose (range : Range) : Advances source fuel 1 (do
      let _ ← expect source (.op .rparen)
      return range) :=
    (expect_advances (by simp)).bind fun _ => advances_pure range
  unfold closeRange
  split
  · exact hclose _
  · exact hclose _
  · exact hclose _
  · exact advances_fail _

theorem range_advances (word : Pos) : Advances source fuel 1 (range source fuel word) := by
  refine (expect_advances (by simp)).bind (j := 1) fun _ => ?_
  intro c hc
  rw [advancesFrom_peek_bind]
  split
  · exact advances_fail _ c hc
  · have hrest (first : Expr) : Advances source fuel 0 (do
        let more ← bounds source (expr source fuel) fuel []
        closeRange source word first more) :=
      (bounds_advances expr_advances (Nat.le_refl fuel) []).bind fun more =>
        closeRange_advances word first more
    exact expr_advances.bind hrest c hc

/-- Every round takes a semicolon or a statement. -/
theorem blockStmts_advances {stmt : Descent Stmt} (hstmt : Advances source fuel 1 stmt)
    (hrounds : rounds ≤ fuel) (done : List Stmt) :
    Advances source rounds 0 (blockStmts source stmt rounds done) := by
  induction rounds generalizing done with
  | zero => exact advances_exhausted
  | succ rounds ih =>
    intro c hc
    have hround := (hstmt.weaken hrounds (Nat.le_refl 1)).bind_of_le
      (fun s => ih (by omega) (s :: done)) (Nat.le_refl _)
    rw [blockStmts, advancesFrom_peek_bind]
    split
    · exact advances_pure _ c hc
    · split
      · exact advances_fail _ c hc
      · next ht =>
        split
        · exact next_bind (ih (by omega) done) hc ht (Nat.le_refl _) (Nat.zero_le 1)
        · exact hround.weaken (Nat.le_refl _) (Nat.zero_le 1) c hc

theorem block_advances {stmt : Descent Stmt} (hstmt : Advances source fuel 1 stmt) :
    Advances source fuel 1 (block source stmt fuel) := by
  refine (expect_advances (by simp)).bind (j := 0) fun opens => ?_
  refine (blockStmts_advances hstmt (Nat.le_refl fuel) []).bind (j := 1) fun stmts => ?_
  exact (expect_advances (by simp)).bind fun closes => advances_pure _

/-- What every compound statement ends with: a colon and a block. -/
theorem body_advances {β : Type} {stmt : Descent Stmt} (hstmt : Advances source fuel 1 stmt)
    {f : Block Stmt → Descent β} (hf : ∀ body, Advances source fuel 0 (f body)) :
    Advances source fuel 1 (do
      let _ ← expect source (.op .colon)
      let body ← block source stmt fuel
      f body) :=
  (expect_advances (by simp)).bind fun _ => (block_advances hstmt).bind hf

theorem branch_advances {stmt : Descent Stmt} (hstmt : Advances source fuel 1 stmt) :
    Advances source fuel 1 (branch source stmt fuel) :=
  expr_advances.bind fun _ => body_advances hstmt fun _ => advances_pure _

/-- Every round takes a word and a branch. -/
theorem elifs_advances {branch : Descent (Branch Stmt)} (hbranch : Advances source fuel 1 branch)
    (hrounds : rounds ≤ fuel) (done : List (Branch Stmt)) :
    Advances source rounds 0 (elifs source branch rounds done) := by
  induction rounds generalizing done with
  | zero => exact advances_exhausted
  | succ rounds ih =>
    intro c hc
    rw [elifs, advancesFrom_peek_bind]
    split
    · next ht =>
      have hround := (hbranch.weaken (Nat.le_of_succ_le hrounds) (Nat.le_refl 1)).bind
        fun b => ih (by omega) (b :: done)
      exact next_bind hround hc (by simp [ht]) (Nat.le_refl _) (Nat.zero_le 1)
    · exact advances_pure _ c hc

theorem chain_advances {stmt : Descent Stmt} (hstmt : Advances source fuel 1 stmt) (start : Pos) :
    Advances source fuel 1 (chain source stmt fuel start) := by
  have hbranch := branch_advances hstmt
  refine hbranch.bind (j := 0) fun first => ?_
  refine (elifs_advances hbranch (Nat.le_refl fuel) [first]).bind (j := 0) fun branches => ?_
  have hend (otherwise : Option (Block Stmt)) : Advances source fuel 0 (do
      return Stmt.branch ⟨start, ← last⟩ branches otherwise) :=
    advances_last.bind fun _ => advances_pure _
  intro c hc
  rw [advancesFrom_peek_bind]
  split
  · next ht =>
    exact next_bind (body_advances hstmt fun body => hend (some body)) hc (by simp [ht])
      (Nat.le_succ fuel) (Nat.zero_le 1)
  · exact hend none c hc

theorem whileLoop_advances {stmt : Descent Stmt} (hstmt : Advances source fuel 1 stmt)
    (start : Pos) : Advances source fuel 1 (whileLoop source stmt fuel start) :=
  expr_advances.bind fun _ => body_advances hstmt fun _ =>
    advances_last.bind fun _ => advances_pure _

theorem forLoop_advances {stmt : Descent Stmt} (hstmt : Advances source fuel 1 stmt) (start : Pos) :
    Advances source fuel 1 (forLoop source stmt fuel start) := by
  intro c hc
  rw [forLoop, advancesFrom_peek_bind]
  have hword {kind : Kind} (hkind : kind ≠ .eof) : Advances source fuel 1 (expect source kind) :=
    expect_advances hkind
  have hrest (var : Name) : Advances source fuel 1 (do
      let _ ← expect source (.keyword .inWord)
      let word ← expect source (.keyword .rangeWord)
      let bounds ← range source fuel word
      let _ ← expect source (.op .colon)
      let body ← block source stmt fuel
      return Stmt.forLoop ⟨start, ← last⟩ var bounds (some body)) :=
    (hword (by simp)).bind fun _ => (hword (by simp)).bind fun word =>
      (range_advances word).bind fun _ => body_advances hstmt fun _ =>
        advances_last.bind fun _ => advances_pure _
  exact ((hword (by simp)).bind fun _ => advances_last.bind fun _ => hrest _) c hc

theorem simple_advances : Advances source fuel 1 (simple source fuel) := by
  have hexpr : Advances source fuel 1 (expr source fuel) := expr_advances
  refine hexpr.bind (j := 0) fun e => ?_
  intro c hc
  rw [advancesFrom_peek_bind]
  split
  · next ht =>
    have hop : c.token.kind.isOp Op.isAssign := ht
    split
    · exact advances_fail _ c hc
    · next target _ =>
      have hassign := hexpr.bind fun value =>
        advances_pure (Stmt.assign ⟨target.span.start, value.stop⟩ target c.token.kind value)
      exact next_bind hassign hc (Kind.ne_eof_of_isOp hop) (Nat.le_succ fuel) (Nat.zero_le 1)
  · exact advances_pure _ c hc

/-- A statement takes a token or fails, however deep it is. -/
theorem stmt_advances : Advances source fuel 1 (stmt source fuel) := by
  induction fuel with
  | zero => exact advances_exhausted
  | succ fuel ih =>
    intro c hc
    have hword {p : Descent Stmt} {k : Nat} (hp : Advances source fuel k p) (w : Keyword)
        (ht : c.token.kind = .keyword w) :
        AdvancesFrom source (fuel + 1) 1 (next source >>= fun _ => p) c :=
      next_bind hp hc (by simp [ht]) (Nat.le_refl _) (Nat.le_refl 1)
    rw [stmt, advancesFrom_peek_bind]
    split
    · next ht => exact hword (chain_advances ih _) _ ht
    · next ht => exact hword (whileLoop_advances ih _) _ ht
    · next ht => exact hword (forLoop_advances ih _) _ ht
    · next ht => exact hword (advances_last.bind fun _ => advances_pure _) _ ht
    · next ht => exact hword (advances_last.bind fun _ => advances_pure _) _ ht
    · split
      · exact simple_advances c hc
      · exact advances_fail _ c hc

/-- Every round takes a semicolon or a statement. -/
theorem stmts_advances {stmt : Descent Stmt} (hstmt : Advances source fuel 1 stmt)
    (hrounds : rounds ≤ fuel) (done : List Stmt) :
    Advances source rounds 0 (stmts source stmt rounds done) := by
  induction rounds generalizing done with
  | zero => exact advances_exhausted
  | succ rounds ih =>
    intro c hc
    have hround := (hstmt.weaken hrounds (Nat.le_refl 1)).bind_of_le
      (fun s => ih (by omega) (s :: done)) (Nat.le_refl _)
    rw [stmts, advancesFrom_peek_bind]
    split
    · exact advances_pure _ c hc
    · next ht =>
      split
      · exact next_bind (ih (by omega) done) hc ht (Nat.le_refl _) (Nat.zero_le 1)
      · exact hround.weaken (Nat.le_refl _) (Nat.zero_le 1) c hc

/-- The source is not asked after its end, and the fuel runs out only when there were more
questions than fuel. -/
theorem program_advances : Post (program source fuel) (fun _ c => Asked source c.calls)
    (fun stop c => (stop = .exhausted → fuel < c.calls) ∧ Asked source c.calls) .initial := by
  have hinitial : Proper source .initial :=
    ⟨fun i hi => absurd hi (Nat.not_lt_zero _), fun _ i hi => absurd hi (by simp [Cursor.initial]),
      fun h => absurd h (by decide)⟩
  have hrest : Advances source fuel 0 (do
      let first ← peek
      let body ← stmts source (stmt source fuel) fuel []
      let final ← peek
      return (⟨⟨first.pos, final.pos⟩, body⟩ : Program)) := by
    intro c hc
    rw [advancesFrom_peek_bind]
    refine (stmts_advances stmt_advances (Nat.le_refl fuel) []).bind (j := 0) (fun body => ?_) c hc
    exact fun c' hc' => ⟨Nat.le_refl _, hc'⟩
  apply (next_bind hrest hinitial (by decide) (Nat.le_refl _) (Nat.le_refl 1)).mono
  · exact fun p c h => h.2.asked
  · rintro stop c ⟨hstop, hasked⟩
    refine ⟨fun hexhausted => ?_, hasked⟩
    have := hstop hexhausted
    simp only [Cursor.initial] at this
    omega

end Descent

/-- The descent never asks after the end of the source. It comes to an end on every source that
does, with one unit of fuel for each answer. -/
theorem descend_ends {source : Nat → Delivery} {n fuel : Nat} {pos : Pos}
    (hsource : source n = .ended pos) (hfuel : n < fuel) :
    ∃ result calls, descend source fuel = some ⟨result, calls⟩ ∧ Asked source calls := by
  have hpost := @Descent.program_advances source fuel
  unfold Post at hpost
  unfold descend
  cases hrun : Descent.program source fuel .initial with
  | ok p c =>
    rw [hrun] at hpost
    exact ⟨_, _, rfl, hpost⟩
  | error stop c =>
    rw [hrun] at hpost
    obtain ⟨hstop, hasked⟩ := hpost
    cases stop with
    | failed e => exact ⟨_, _, rfl, hasked⟩
    | exhausted =>
      have hcalls := hstop rfl
      obtain ⟨t, ht⟩ := hasked n (by omega)
      rw [hsource] at ht
      cases ht

end Parser

end ThreeAddress
