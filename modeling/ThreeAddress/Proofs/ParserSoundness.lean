import ThreeAddress.Proofs.ExpressionSoundness

/-! Every program that the parser returns is spelled by the tokens it was read from. A state of the
parser stands for the words taken in so far: those of the open blocks, those of the statements that
are complete, and those of the statement that has been started. -/
namespace ThreeAddress.Parser

open Grammar

/-- The words of a chain of branches, given in reverse. -/
def ChainTook (done : List (Branch Stmt)) (ws : List Word) : Prop :=
  Derives ws (.chain (done.reverse.map Branch.bare))

/-- The words of a chain up to the next condition. -/
def GuardTook (done : List (Branch Stmt)) (ws : List Word) : Prop :=
  (done = [] ∧ ∃ w, ws = [w] ∧ w.kind = .keyword .ifWord) ∨
    ∃ us w, ws = us ++ [w] ∧ ChainTook done us ∧ w.kind = .keyword .elifWord

/-- The words of a loop up to the arguments of `range`. -/
def RangeTook (var : Name) (ws : List Word) : Prop :=
  ∃ f v i r o, ws = [f, v, i, r, o] ∧ f.kind = .keyword .forWord ∧ v.kind = .name ∧
    v.text = var.text ∧ i.kind = .keyword .inWord ∧ r.kind = .keyword .rangeWord ∧
    o.kind = .op .lparen

/-- The words of arguments given in reverse, each with the comma after it. -/
def ArgsTook : List Expr → List Word → Prop
  | [], ws => ws = []
  | e :: args, ws => ∃ us vs c, ws = us ++ (vs ++ [c]) ∧ ArgsTook args us ∧
      Expression .expr vs e.bare ∧ c.kind = .op .comma

def PurposeTook : Purpose → List Word → Prop
  | .simple, ws => ws = []
  | .assigned target op, ws => ∃ us w, ws = us ++ [w] ∧ Target us target.text ∧ w.kind = op ∧
      op.isAssign
  | .guard _ done, ws => GuardTook done ws
  | .loopGuard _, ws => ∃ w, ws = [w] ∧ w.kind = .keyword .whileWord
  | .bound _ var _ args, ws => ∃ us vs, ws = us ++ vs ∧ RangeTook var us ∧ ArgsTook args vs

/-- The words of a statement up to the brace that opens its block. -/
def OwnerTook : Owner → List Word → Prop
  | .branch _ done cond, ws => ∃ us vs c, ws = us ++ (vs ++ [c]) ∧ GuardTook done us ∧
      Expression .expr vs cond.bare ∧ c.kind = .op .colon
  | .otherwise _ done, ws => ∃ us w c, ws = us ++ [w, c] ∧ ChainTook done us ∧
      w.kind = .keyword .elseWord ∧ c.kind = .op .colon
  | .whileBody _ cond, ws => ∃ w vs c, ws = w :: (vs ++ [c]) ∧ w.kind = .keyword .whileWord ∧
      Expression .expr vs cond.bare ∧ c.kind = .op .colon
  | .forBody _ var range, ws => ∃ us vs p c, ws = us ++ (vs ++ [p, c]) ∧ RangeTook var us ∧
      Arguments vs range.bare ∧ p.kind = .op .rparen ∧ c.kind = .op .colon

def PhaseTook : Phase → List Word → Prop
  | .between, ws => ws = []
  | .expr purpose reading, ws => ∃ us vs, ws = us ++ vs ∧ PurposeTook purpose us ∧
      reading.Took vs
  | .loopName _, ws => ∃ f, ws = [f] ∧ f.kind = .keyword .forWord
  | .loopIn _ var, ws => ∃ f v, ws = [f, v] ∧ f.kind = .keyword .forWord ∧ v.kind = .name ∧
      v.text = var.text
  | .loopRange _ var, ws => ∃ f v i, ws = [f, v, i] ∧ f.kind = .keyword .forWord ∧
      v.kind = .name ∧ v.text = var.text ∧ i.kind = .keyword .inWord
  | .rangeOpen _ var _, ws => ∃ f v i r, ws = [f, v, i, r] ∧ f.kind = .keyword .forWord ∧
      v.kind = .name ∧ v.text = var.text ∧ i.kind = .keyword .inWord ∧
      r.kind = .keyword .rangeWord
  | .firstBound _ var _, ws => RangeTook var ws
  | .loopColon _ var range, ws => ∃ us vs p, ws = us ++ (vs ++ [p]) ∧ RangeTook var us ∧
      Arguments vs range.bare ∧ p.kind = .op .rparen
  | .elseColon _ done, ws => ∃ us w, ws = us ++ [w] ∧ ChainTook done us ∧
      w.kind = .keyword .elseWord
  | .brace owner, ws => OwnerTook owner ws
  | .afterBranch _ done _, ws => ChainTook done ws

/-- Statements that end in a simple one cannot be followed by words that continue it. -/
def Separate (simple : Bool) (ws : List Word) : Prop :=
  simple → ws ≠ [] ∧ startsSigned ws = false

/-- The words of the open blocks, innermost first, each with the brace that opens it. -/
def BlocksTook : List Open → List Word → Prop
  | [], ws => ws = []
  | b :: blocks, ws => ∃ os ss vs w simple, ws = os ++ (ss ++ (vs ++ [w])) ∧
      BlocksTook blocks os ∧ Derives ss (.stmts simple (b.before.reverse.map Stmt.bare)) ∧
      OwnerTook b.owner vs ∧ Separate simple vs ∧ w.kind = .op .lbrace

theorem Separate.append {simple : Bool} {ws : List Word} (h : Separate simple ws)
    (vs : List Word) : Separate simple (ws ++ vs) := by
  intro hs
  obtain ⟨hne, hf⟩ := h hs
  cases ws with
  | nil => exact absurd rfl hne
  | cons w ws => exact ⟨by simp, hf⟩

theorem separate_false (ws : List Word) : Separate false ws := by
  intro h
  cases h

namespace State

/-- The words `ws` are those that the state has taken in. -/
def Took (s : State) (ws : List Word) : Prop :=
  ∃ os ss vs simple, ws = os ++ (ss ++ vs) ∧ BlocksTook s.blocks os ∧
    Derives ss (.stmts simple (s.stmts.reverse.map Stmt.bare)) ∧ PhaseTook s.phase vs ∧
    Separate simple vs

theorem took_initial : State.initial.Took [] :=
  ⟨[], [], [], false, rfl, rfl, .none, rfl, separate_false _⟩

/-- What the state after the token `t` stands for. The end of the source adds no word: it leaves the
statements of a whole program. -/
def After (ws : List Word) (t : Token) (s : State) : Prop :=
  (t.kind ≠ .eof → s.Took (ws ++ [t.word])) ∧
    (t.kind = .eof → ∃ simple, Derives ws (.stmts simple (s.stmts.reverse.map Stmt.bare)))

variable {s s' : State} {ws os ss vs : List Word} {t : Token} {simple : Bool}

theorem After.of_took (ht : t.kind ≠ .eof) (h : s.Took (ws ++ [t.word])) : After ws t s :=
  ⟨fun _ => h, fun h' => absurd h' ht⟩

theorem expect_eq_ok {kind : Kind} {phase : Phase} :
    s.expect kind t phase = .ok s' ↔ t.kind = kind ∧ s' = s.enter phase := by
  unfold expect
  split <;> simp_all [eq_comm]

theorem begin_eq_ok {purpose : Purpose} : s.begin purpose t = .ok s' ↔
    ∃ r, Reading.start.step t = .ok (.more r) ∧ s' = s.enter (.expr purpose r) := by
  unfold begin Reading.step
  simp only [Reading.start]
  cases h : Reading.takeOperand ⟨[], .none, none⟩ t <;> simp [Except.map, eq_comm]

/-- The token `t` goes on with the statement that the words `vs` have begun. -/
theorem took_enter {phase : Phase} (hb : BlocksTook s.blocks os)
    (hd : Derives ss (.stmts simple (s.stmts.reverse.map Stmt.bare)))
    (hv : Separate simple vs) (hp : PhaseTook phase (vs ++ [t.word])) :
    (s.enter phase).Took (os ++ (ss ++ vs) ++ [t.word]) :=
  ⟨os, ss, vs ++ [t.word], simple, by simp, hb, hd, hp, hv.append _⟩

/-- A complete statement joins those before it. -/
theorem derives_push {stmts : List Stmt} {x : Stmt}
    (hd : Derives ss (.stmts simple (stmts.reverse.map Stmt.bare)))
    (hx : Derives vs (.stmt x.bare)) (hv : Separate simple vs) :
    Derives (ss ++ vs) (.stmts (isSimple x.bare) ((x :: stmts).reverse.map Stmt.bare)) := by
  have hn : ¬ (simple ∧ startsSigned vs) := by
    rintro ⟨hs, hf⟩
    simp [(hv hs).2] at hf
  simpa using Derives.snoc hd hx hn

theorem took_push {x : Stmt} (hb : BlocksTook s.blocks os)
    (hd : Derives ss (.stmts simple (s.stmts.reverse.map Stmt.bare)))
    (hx : Derives vs (.stmt x.bare)) (hv : Separate simple vs) (hs : isSimple x.bare = false) :
    (s.push x).Took (os ++ (ss ++ vs)) :=
  ⟨os, ss ++ vs, [], _, by simp, hb, derives_push hd hx hv, rfl, by rw [hs]; exact separate_false _⟩

/-- An expression that is a name is spelled like a target. -/
theorem target_of_name {level : Level} {e : Expr} {n : Name} (h : Expression level ws e)
    (he : e = .name n) : Target ws n.text := by
  induction h with
  | name hk => cases he; exact .name hk
  | parens hv _ hw ih => exact .parens hv (ih he) hw
  | ofSum _ ih | ofProduct _ ih | ofSigned _ ih | ofOperand _ ih => exact ih he
  | _ => cases he

theorem chain_took {done : List (Branch Stmt)} {cond : Expr} {b : Block Stmt} {us bs : List Word}
    {c : Word} (hg : GuardTook done us) (hc : Expression .expr vs cond.bare)
    (hk : c.kind = .op .colon) (hb : Derives bs (.block b.bare)) :
    ChainTook (⟨cond, some b⟩ :: done) (us ++ (vs ++ [c]) ++ bs) := by
  obtain ⟨rfl, w, rfl, hw⟩ | ⟨us, w, rfl, hus, hw⟩ := hg
  · simpa [ChainTook, Branch.relocate] using Derives.first hw hc hk hb
  · simpa [ChainTook, Branch.relocate] using Derives.next hus hw hc hk hb

/-- A closing brace completes the statement that its block belongs to, or one branch of it. -/
theorem close_took {b : Open} {blocks : List Open} (hs : s.blocks = b :: blocks)
    (hb : BlocksTook s.blocks os) (hd : Derives ss (.stmts simple (s.stmts.reverse.map Stmt.bare)))
    (ht : t.kind = .op .rbrace) : (s.close b blocks t).Took (os ++ ss ++ [t.word]) := by
  rw [hs] at hb
  obtain ⟨os, ss', vs, w, simple', rfl, hos, hss, hvs, hsep, hw⟩ := hb
  have hblock : Derives (w :: ss ++ [t.word])
      (.block (Block.bare ⟨b.opens, t.pos, s.stmts.reverse⟩)) := .block hw hd ht
  have hall : os ++ (ss' ++ (vs ++ [w])) ++ ss ++ [t.word] =
      os ++ (ss' ++ (vs ++ (w :: ss ++ [t.word]))) := by simp
  rw [hall]
  unfold close
  cases ho : b.owner with
  | branch start done cond =>
    rw [ho] at hvs
    obtain ⟨us, vs, c, rfl, hg, hc, hk⟩ := hvs
    exact ⟨os, ss', _, simple', rfl, hos, hss, chain_took hg hc hk hblock, hsep.append _⟩
  | otherwise start done =>
    rw [ho] at hvs
    obtain ⟨us, e, c, rfl, hch, he, hk⟩ := hvs
    refine took_push hos hss ?_ (hsep.append _) rfl
    simpa [Stmt.relocate] using Derives.branchElse hch he hk hblock
  | whileBody start cond =>
    rw [ho] at hvs
    obtain ⟨e, vs, c, rfl, he, hc, hk⟩ := hvs
    refine took_push hos hss ?_ (hsep.append _) rfl
    simpa [Stmt.relocate] using Derives.whileLoop he hc hk hblock
  | forBody start var range =>
    rw [ho] at hvs
    obtain ⟨us, as, p, c, rfl, ⟨f, v, i, r, o, rfl, hf, hv, hvt, hi, hr, ho'⟩, ha, hp, hk⟩ := hvs
    refine took_push hos hss ?_ (hsep.append _) rfl
    simpa [Stmt.relocate, Name.relocate, hvt] using Derives.forLoop hf hv hi hr ho' ha hp hk hblock

/-- The words of the complete statements with a new one begun by the token `t`. -/
theorem took_begun {phase : Phase} (hb : BlocksTook s.blocks os)
    (hd : Derives ss (.stmts simple (s.stmts.reverse.map Stmt.bare)))
    (hc : simple → isSumSign t.word = false) (hp : PhaseTook phase [t.word]) :
    (s.enter phase).Took (os ++ ss ++ [t.word]) :=
  ⟨os, ss, [t.word], simple, by simp, hb, hd, hp, fun h => ⟨by simp, hc h⟩⟩

theorem begin_took (hb : BlocksTook s.blocks os)
    (hd : Derives ss (.stmts simple (s.stmts.reverse.map Stmt.bare)))
    (hc : simple → isSumSign t.word = false) (hs : s.begin .simple t = .ok s') :
    After (os ++ ss) t s' := by
  obtain ⟨r, hr, rfl⟩ := begin_eq_ok.1 hs
  refine .of_took (Reading.kind_of_more hr).1 (took_begun hb hd hc ⟨[], [t.word], rfl, rfl, ?_⟩)
  obtain ⟨r', h, hr'⟩ | ⟨e, h, -⟩ := Reading.step_took Reading.took_start hr
  · cases h
    exact hr'
  · cases h

/-- The first token of a statement begins one, closes a block, or is a semicolon or the end. -/
theorem between_after (hb : BlocksTook s.blocks os)
    (hd : Derives ss (.stmts simple (s.stmts.reverse.map Stmt.bare)))
    (hc : simple → isSumSign t.word = false) (hs : s.between t = .ok s') :
    After (os ++ ss) t s' := by
  unfold between at hs
  split at hs
  · rename_i hk
    obtain rfl := Except.ok.inj hs
    refine .of_took (by simp [hk]) ⟨os, ss ++ [t.word], [], false, by simp, hb, ?_, rfl, ?_⟩
    · exact .semicolon hd hk
    · exact separate_false _
  · rename_i hk
    obtain rfl := Except.ok.inj hs
    refine .of_took (by simp [hk]) (took_begun hb hd hc ⟨[t.word], [], rfl, ?_, ?_⟩)
    · exact Or.inl ⟨rfl, t.word, rfl, hk⟩
    · exact Reading.took_start
  · rename_i hk
    obtain rfl := Except.ok.inj hs
    refine .of_took (by simp [hk]) (took_begun hb hd hc ⟨[t.word], [], rfl, ?_, ?_⟩)
    · exact ⟨t.word, rfl, hk⟩
    · exact Reading.took_start
  · rename_i hk
    obtain rfl := Except.ok.inj hs
    exact .of_took (by simp [hk]) (took_begun hb hd hc ⟨t.word, rfl, hk⟩)
  · rename_i hk
    obtain rfl := Except.ok.inj hs
    have hx : Derives [t.word] (.stmt (Stmt.bare (.breakLoop t.span))) := .breakLoop hk
    have := took_push hb hd hx (fun h => ⟨by simp, hc h⟩) rfl
    exact .of_took (by simp [hk]) (by simpa using this)
  · rename_i hk
    obtain rfl := Except.ok.inj hs
    have hx : Derives [t.word] (.stmt (Stmt.bare (.continueLoop t.span))) := .continueLoop hk
    have := took_push hb hd hx (fun h => ⟨by simp, hc h⟩) rfl
    exact .of_took (by simp [hk]) (by simpa using this)
  · split at hs
    · rename_i hblocks
      split at hs
      · rename_i hk
        obtain rfl := Except.ok.inj hs
        rw [hblocks] at hb
        obtain rfl : os = [] := hb
        exact ⟨fun h => absurd hk h, fun _ => ⟨simple, hd⟩⟩
      · split at hs
        · exact begin_took hb hd hc hs
        · cases hs
    · rename_i b blocks hblocks
      split at hs
      · rename_i hk
        obtain rfl := Except.ok.inj hs
        exact .of_took (by simp [hk]) (close_took hblocks hb hd hk)
      · split at hs
        · cases hs
        · split at hs
          · exact begin_took hb hd hc hs
          · cases hs

/-- The token `t` comes after the statement `x`, and begins another. -/
theorem push_between_after {x : Stmt} (hb : BlocksTook s.blocks os)
    (hd : Derives ss (.stmts simple (s.stmts.reverse.map Stmt.bare)))
    (hx : Derives vs (.stmt x.bare)) (hsep : Separate simple vs)
    (hc : isSimple x.bare → isSumSign t.word = false) (hs : (s.push x).between t = .ok s') :
    After (os ++ (ss ++ vs)) t s' :=
  between_after (s := s.push x) hb (derives_push hd hx hsep) hc hs

/-- The range that the arguments `args`, given in reverse, stand for. -/
theorem closeRange_took {start word : Pos} {var : Name} {e : Expr} {args : List Expr}
    {as : List Word} (ha : ArgsTook args as) (he : Expression .expr vs e.bare)
    (hs : s.closeRange start var word (e :: args) t = .ok s') :
    ∃ range, t.kind = .op .rparen ∧ s' = s.enter (.loopColon start var range) ∧
      Arguments (as ++ vs) range.bare := by
  unfold closeRange at hs
  split at hs
  · rename_i stop heq
    obtain ⟨rfl, rfl⟩ : e = stop ∧ args = [] := by simpa using List.reverse_eq_iff.1 heq
    obtain ⟨hk, rfl⟩ := expect_eq_ok.1 hs
    obtain rfl : as = [] := ha
    exact ⟨_, hk, rfl, .one he⟩
  · rename_i first stop heq
    obtain ⟨rfl, rfl⟩ : e = stop ∧ args = [first] := by simpa using List.reverse_eq_iff.1 heq
    obtain ⟨hk, rfl⟩ := expect_eq_ok.1 hs
    obtain ⟨us, ws, c, rfl, rfl, hfirst, hc⟩ := ha
    exact ⟨_, hk, rfl, by simpa [Range.relocate] using Arguments.two hfirst hc he⟩
  · rename_i first stop step heq
    obtain ⟨rfl, rfl⟩ : e = step ∧ args = [stop, first] := by
      simpa using List.reverse_eq_iff.1 heq
    obtain ⟨hk, rfl⟩ := expect_eq_ok.1 hs
    obtain ⟨us, ws, c, rfl, ⟨_, ws', c', rfl, rfl, hfirst, hc'⟩, hstop, hc⟩ := ha
    exact ⟨_, hk, rfl, by simpa [Range.relocate] using Arguments.three hfirst hc' hstop hc he⟩
  · cases hs
  · cases hs

/-- An expression is complete when the token `t` comes after it. -/
theorem complete_after {purpose : Purpose} {e : Expr} {us : List Word}
    (hb : BlocksTook s.blocks os) (hd : Derives ss (.stmts simple (s.stmts.reverse.map Stmt.bare)))
    (hu : PurposeTook purpose us) (he : Expression .expr vs e.bare)
    (hsep : Separate simple (us ++ vs)) (ht : isSumSign t.word = false)
    (hs : s.complete purpose e t = .ok s') : After (os ++ (ss ++ (us ++ vs))) t s' := by
  unfold complete at hs
  split at hs
  · obtain rfl : us = [] := hu
    split at hs
    · rename_i hk
      split at hs
      · rename_i target hn
        obtain rfl := Except.ok.inj hs
        have htarget : Target vs target.text := by
          have hbare : e.bare = .name target.bare := by
            cases e <;> simp_all [Expr.name?, Expr.relocate]
          exact target_of_name (n := target.bare) he hbare
        have hne : t.kind ≠ .eof := by
          intro h
          simp [h, Kind.isAssign] at hk
        refine .of_took hne (took_enter hb hd hsep ⟨vs ++ [t.word], [], by simp, ?_, ?_⟩)
        · exact ⟨vs, t.word, rfl, htarget, rfl, hk⟩
        · exact Reading.took_start
      · cases hs
    · have hx : Derives vs (.stmt (Stmt.bare (.eval e.span e))) := .eval he
      exact push_between_after hb hd hx hsep (fun _ => ht) hs
  · rename_i target op
    obtain ⟨us, w, rfl, htarget, rfl, hw⟩ := hu
    have hx : Derives (us ++ [w] ++ vs)
        (.stmt (Stmt.bare (.assign ⟨target.span.start, e.stop⟩ target w.kind e))) := by
      simpa [Stmt.relocate, Name.relocate] using Derives.assign htarget hw he
    exact push_between_after hb hd hx hsep (fun _ => ht) hs
  · obtain ⟨hk, rfl⟩ := expect_eq_ok.1 hs
    exact .of_took (by simp [hk]) (took_enter hb hd hsep ⟨us, vs, t.word, by simp, hu, he, hk⟩)
  · obtain ⟨hk, rfl⟩ := expect_eq_ok.1 hs
    obtain ⟨w, rfl, hw⟩ := hu
    exact .of_took (by simp [hk]) (took_enter hb hd hsep ⟨w, vs, t.word, by simp, hw, he, hk⟩)
  · obtain ⟨us, as, rfl, hrange, ha⟩ := hu
    split at hs
    · rename_i hk
      obtain rfl := Except.ok.inj hs
      refine .of_took (by simp [hk]) (took_enter hb hd hsep
        ⟨us ++ as ++ vs ++ [t.word], [], by simp, ?_, Reading.took_start⟩)
      exact ⟨us, as ++ (vs ++ [t.word]), by simp, hrange, as, vs, t.word, rfl, ha, he, hk⟩
    · obtain ⟨range, hk, rfl, hargs⟩ := closeRange_took ha he hs
      exact .of_took (by simp [hk]) (took_enter hb hd hsep
        ⟨us, as ++ vs, t.word, by simp, hrange, hargs, hk⟩)

/-- One token leads from the words taken in to those words and its own. -/
theorem step_after (h : s.Took ws) (hs : s.step t = .ok s') : After ws t s' := by
  obtain ⟨os, ss, vs, simple, rfl, hb, hd, hp, hsep⟩ := h
  unfold step at hs
  split at hs
  · cases hs
  split at hs
  · rename_i hphase
    rw [hphase] at hp
    obtain rfl : vs = [] := hp
    have hsimple : simple → isSumSign t.word = false := fun h => absurd rfl (hsep h).1
    simpa using between_after hb hd hsimple hs
  · rename_i purpose reading hphase
    rw [hphase] at hp
    obtain ⟨us, vs, rfl, hu, hv⟩ := hp
    split at hs
    · cases hs
    · rename_i r hr
      obtain rfl := Except.ok.inj hs
      obtain ⟨r', h, hr'⟩ | ⟨e, h, -⟩ := Reading.step_took hv hr
      · cases h
        exact .of_took (Reading.kind_of_more hr).1 (took_enter hb hd hsep
          ⟨us, vs ++ [t.word], by simp, hu, hr'⟩)
      · cases h
    · rename_i e hr
      obtain ⟨r', h, -⟩ | ⟨e', h, he, hsign⟩ := Reading.step_took hv hr
      · cases h
      · cases h
        exact complete_after hb hd hu he hsep hsign hs
  all_goals rename_i hphase; rw [hphase] at hp
  · obtain ⟨hk, rfl⟩ := expect_eq_ok.1 hs
    obtain ⟨f, rfl, hf⟩ := hp
    exact .of_took (by simp [hk]) (took_enter hb hd hsep ⟨f, t.word, rfl, hf, hk, rfl⟩)
  · obtain ⟨hk, rfl⟩ := expect_eq_ok.1 hs
    obtain ⟨f, v, rfl, hf, hv, hvt⟩ := hp
    exact .of_took (by simp [hk]) (took_enter hb hd hsep
      ⟨f, v, t.word, rfl, hf, hv, hvt, hk⟩)
  · obtain ⟨hk, rfl⟩ := expect_eq_ok.1 hs
    obtain ⟨f, v, i, rfl, hf, hv, hvt, hi⟩ := hp
    exact .of_took (by simp [hk]) (took_enter hb hd hsep
      ⟨f, v, i, t.word, rfl, hf, hv, hvt, hi, hk⟩)
  · obtain ⟨hk, rfl⟩ := expect_eq_ok.1 hs
    obtain ⟨f, v, i, r, rfl, hf, hv, hvt, hi, hr⟩ := hp
    exact .of_took (by simp [hk]) (took_enter hb hd hsep
      ⟨f, v, i, r, t.word, rfl, hf, hv, hvt, hi, hr, hk⟩)
  · split at hs
    · cases hs
    · obtain ⟨r, hr, rfl⟩ := begin_eq_ok.1 hs
      obtain ⟨r', h, hr'⟩ | ⟨e, h, -⟩ := Reading.step_took Reading.took_start hr
      · cases h
        exact .of_took (Reading.kind_of_more hr).1 (took_enter hb hd hsep
          ⟨vs, [t.word], rfl, ⟨vs, [], by simp, hp, rfl⟩, hr'⟩)
      · cases h
  · obtain ⟨hk, rfl⟩ := expect_eq_ok.1 hs
    obtain ⟨us, as, p, rfl, hrange, ha, hpk⟩ := hp
    exact .of_took (by simp [hk]) (took_enter hb hd hsep
      ⟨us, as, p, t.word, by simp, hrange, ha, hpk, hk⟩)
  · obtain ⟨hk, rfl⟩ := expect_eq_ok.1 hs
    obtain ⟨us, w, rfl, hus, hw⟩ := hp
    exact .of_took (by simp [hk]) (took_enter hb hd hsep
      ⟨us, w, t.word, by simp, hus, hw, hk⟩)
  · split at hs
    · rename_i hk
      obtain rfl := Except.ok.inj hs
      refine .of_took (by simp [hk]) ⟨os ++ (ss ++ (vs ++ [t.word])), [], [], false, by simp, ?_,
        .none, rfl, separate_false _⟩
      exact ⟨os, ss, vs, t.word, simple, rfl, hb, hd, hp, hsep, hk⟩
    · cases hs
  · split at hs
    · rename_i hk
      obtain rfl := Except.ok.inj hs
      refine .of_took (by simp [hk]) (took_enter hb hd hsep
        ⟨vs ++ [t.word], [], by simp, ?_, Reading.took_start⟩)
      exact Or.inr ⟨vs, t.word, rfl, hp, hk⟩
    · split at hs
      · rename_i hk
        obtain rfl := Except.ok.inj hs
        exact .of_took (by simp [hk]) (took_enter hb hd hsep ⟨vs, t.word, rfl, hp, hk⟩)
      · rename_i start done stop _ _
        have hx : Derives vs (.stmt (Stmt.bare (.branch ⟨start, stop⟩ done.reverse none))) := by
          simpa [Stmt.relocate] using Derives.branch hp
        exact push_between_after hb hd hx hsep (by simp [Stmt.relocate, isSimple]) hs

end State

end ThreeAddress.Parser
