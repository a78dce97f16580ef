import ThreeAddress.Proofs.PrintedWords

/-! A printed program reads back as the program it was printed from, unless two statements of it
merge: line feeds mean nothing, so an expression that starts with `+` or `-` continues an
assignment or an expression in front of it. -/
namespace ThreeAddress

open Grammar

namespace Stmt

/-- An expression whose outermost operation is a sign `+` or `-`. -/
def isSigned : Stmt → Bool
  | .eval _ (.unary _ (.op o) _) => o.isAdditive
  | _ => false

mutual

/-- Every list of statements inside a statement. -/
def lists : Stmt → List (List Stmt)
  | .branch _ branches otherwise => listsOfBranches branches ++ listsOfBody otherwise
  | .whileLoop _ _ body | .forLoop _ _ _ body => listsOfBody body
  | _ => []

def listsOfBody : Option (Block Stmt) → List (List Stmt)
  | none => []
  | some ⟨_, _, stmts⟩ => stmts :: listsOfList stmts

/-- The lists inside the statements of a list. -/
def listsOfList : List Stmt → List (List Stmt)
  | [] => []
  | s :: rest => s.lists ++ listsOfList rest

def listsOfBranches : List (Branch Stmt) → List (List Stmt)
  | [] => []
  | ⟨_, body⟩ :: rest => listsOfBody body ++ listsOfBranches rest

end

/-- Two neighbours that read as one statement: the second continues the first. -/
def HasMergingPair (ss : List Stmt) : Prop :=
  ∃ s t, [s, t] <:+: ss ∧ isSimple s ∧ t.isSigned

def Merging (ls : List (List Stmt)) : Prop := ∃ ss ∈ ls, HasMergingPair ss

end Stmt

namespace Program

/-- Every list of statements in a program. -/
def lists (p : Program) : List (List Stmt) := p.stmts :: Stmt.listsOfList p.stmts

/-- The number of statements in a program, at all depths. -/
def stmtCount (p : Program) : Nat := p.lists.flatten.length

/-- Some list of the program has two neighbours that read as one. -/
def HasMergingPair (p : Program) : Prop := Stmt.Merging p.lists

end Program

namespace Stmt

theorem listsOfList_append (ss rs : List Stmt) :
    listsOfList (ss ++ rs) = listsOfList ss ++ listsOfList rs := by
  induction ss with
  | nil => rfl
  | cons s rest ih => simp [listsOfList, ih]

theorem listsOfBranches_append (bs cs : List (Branch Stmt)) :
    listsOfBranches (bs ++ cs) = listsOfBranches bs ++ listsOfBranches cs := by
  induction bs with
  | nil => rfl
  | cons b rest ih => simp [listsOfBranches, ih]

variable {f : Pos → Pos}

mutual

theorem lists_relocate : ∀ s : Stmt, (s.relocate f).lists = s.lists.map (List.map (relocate f))
  | .missing | .assign .. | .eval .. | .breakLoop _ | .continueLoop _ => rfl
  | .branch _ bs otherwise => by
    simp only [relocate, lists, List.map_append, listsOfBranches_relocate bs,
      listsOfBody_relocate otherwise]
  | .whileLoop _ _ body => listsOfBody_relocate body
  | .forLoop _ _ _ body => listsOfBody_relocate body

theorem listsOfBody_relocate : ∀ b : Option (Block Stmt),
    listsOfBody (relocateBody f b) = (listsOfBody b).map (List.map (relocate f))
  | none => rfl
  | some ⟨_, _, stmts⟩ => by
    rw [relocateBody, listsOfBody, listsOfBody, listsOfList_relocate stmts, List.map_cons,
      relocateList_eq]

theorem listsOfList_relocate : ∀ ss : List Stmt,
    listsOfList (relocateList f ss) = (listsOfList ss).map (List.map (relocate f))
  | [] => rfl
  | s :: rest => by
    simp only [relocateList, listsOfList, List.map_append, lists_relocate s,
      listsOfList_relocate rest]

theorem listsOfBranches_relocate : ∀ bs : List (Branch Stmt),
    listsOfBranches (relocateBranches f bs) = (listsOfBranches bs).map (List.map (relocate f))
  | [] => rfl
  | ⟨_, body⟩ :: rest => by
    simp only [relocateBranches, listsOfBranches, List.map_append, listsOfBody_relocate body,
      listsOfBranches_relocate rest]

end

end Stmt

theorem Program.stmtCount_bare (p : Program) : p.bare.stmtCount = p.stmtCount := by
  have h := Stmt.listsOfList_relocate (f := fun _ => .unknown) p.stmts
  rw [Stmt.relocateList_eq] at h
  simp [stmtCount, lists, bare, h, List.length_flatten, Function.comp_def]

theorem Grammar.Expression.at_level {ws : List Word} {e : Expr} (h : Expression .operand ws e)
    (level : Level) : Expression level ws e := by
  have hs : Expression .signed ws e := .ofOperand h
  have hp : Expression .product ws e := .ofSigned hs
  cases level with
  | operand => exact h
  | signed => exact hs
  | product => exact hp
  | sum => exact .ofProduct hp
  | expr => exact .ofSum (.ofProduct hp)

namespace Expr

theorem enclose_derives {e : Expr} (h : Expression .expr e.words e.bare)
    (hl : e.isCompound = false → Expression .operand e.words e.bare) :
    Expression .operand (e.enclose e.words) e.bare := by
  by_cases hc : e.isCompound
  · simp only [enclose, hc, if_true]
    exact .parens rfl h rfl
  · simp only [enclose, hc, if_false, Bool.false_eq_true]
    exact hl (by simpa using hc)

/-- The words of a printed expression spell it. -/
theorem words_derive {e : Expr} (h : e.WellFormed) :
    Expression .expr e.words e.bare ∧ Expression .operand (e.enclose e.words) e.bare := by
  induction e with
  | missing => exact h.elim
  | number span value raw =>
    have hd : Expression .operand [⟨.number, raw⟩] (.number .nowhere value raw) := .number h.2
    exact ⟨hd.at_level _, hd⟩
  | boolean span value =>
    cases value with
    | true =>
      have hd : Expression .operand [Keyword.trueWord.word] (.boolean .nowhere true) := .true rfl
      exact ⟨hd.at_level _, hd⟩
    | false =>
      have hd : Expression .operand [Keyword.falseWord.word] (.boolean .nowhere false) :=
        .false rfl
      exact ⟨hd.at_level _, hd⟩
  | name n =>
    have hd : Expression .operand [⟨.name, n.text⟩] (.name n.bare) :=
      .name (w := ⟨.name, n.text⟩) rfl
    exact ⟨hd.at_level _, hd⟩
  | binary span op l r ihl ihr =>
    obtain ⟨⟨o, rfl, ho⟩, hl, hr⟩ := h
    have hwl := (ihl hl).2
    have hwr := (ihr hr).2
    have hd : Expression .expr (Expr.binary span (.op o) l r).words
        (Expr.binary span (.op o) l r).bare := by
      simp only [Op.isBinary, Bool.or_eq_true] at ho
      obtain (ho | ho) | ho := ho
      · exact .compare (w := o.word) (hwl.at_level _) rfl ho (hwr.at_level _)
      · exact .ofSum (.add (w := o.word) (hwl.at_level _) rfl ho (hwr.at_level _))
      · exact .ofSum (.ofProduct (.multiply (w := o.word) (hwl.at_level _) rfl ho
          (hwr.at_level _)))
    exact ⟨hd, enclose_derives hd (by simp [isCompound])⟩
  | unary span op e ih =>
    obtain ⟨⟨o, rfl, ho⟩, he⟩ := h
    have hd : Expression .signed (Expr.unary span (.op o) e).words
        (Expr.unary span (.op o) e).bare :=
      .sign (w := o.word) rfl ho ((ih he).2.at_level _)
    have hd' : Expression .expr (Expr.unary span (.op o) e).words
        (Expr.unary span (.op o) e).bare := .ofSum (.ofProduct (.ofSigned hd))
    exact ⟨hd', enclose_derives hd' (by simp [isCompound])⟩

end Expr

namespace Stmt

/-- Only an expression under a sign starts with `+` or `-`. -/
theorem startsSigned_words {s : Stmt} (h : s.WellFormed) : startsSigned s.words = s.isSigned := by
  cases s with
  | missing => exact h.elim
  | eval span e =>
    cases e with
    | missing => exact h.elim
    | boolean _ value => cases value <;> rfl
    | binary _ op l r =>
      have hl : l.WellFormed := h.2.1
      cases l with
      | missing => exact hl.elim
      | boolean _ value => cases value <;> rfl
      | _ => rfl
    | unary _ op e =>
      obtain ⟨⟨o, rfl, -⟩, -⟩ := h
      rfl
    | _ => rfl
  | branch span bs otherwise =>
    cases bs with
    | nil => exact absurd rfl h.1
    | cons b rest => rfl
  | _ => rfl

end Stmt

namespace Grammar

variable {ws us : List Word} {w : Word} {o : Op} {u : Expr}

theorem Expression.continued {e : Expr} (h : Expression .expr ws e) (hk : w.kind = .op o)
    (ho : o.isAdditive) (hu : Expression .signed us u) :
    ∃ e', Expression .expr (ws ++ w :: us) e' := by
  cases h with
  | compare hl hk' ho' hr =>
    rw [List.append_assoc]
    exact ⟨_, .compare hl hk' ho' (.add hr hk ho (.ofSigned hu))⟩
  | ofSum h => exact ⟨_, .ofSum (.add h hk ho (.ofSigned hu))⟩

theorem Derives.stmt_continued {s : Stmt} (hs : isSimple s) (h : Derives ws (.stmt s))
    (hk : w.kind = .op o) (ho : o.isAdditive) (hu : Expression .signed us u) :
    ∃ s', Derives (ws ++ w :: us) (.stmt s') ∧ isSimple s' ∧ s'.lists = s.lists := by
  cases h with
  | assign ht ha he =>
    obtain ⟨e', he'⟩ := he.continued hk ho hu
    rw [List.append_assoc]
    exact ⟨_, .assign ht ha he', rfl, rfl⟩
  | eval he =>
    obtain ⟨e', he'⟩ := he.continued hk ho hu
    exact ⟨_, .eval he', rfl, rfl⟩
  | _ => simp [isSimple] at hs

/-- Statements of which the last goes on: as many as before. -/
theorem Derives.stmts_continued {ss : List Stmt} (h : Derives ws (.stmts true ss))
    (hk : w.kind = .op o) (ho : o.isAdditive) (hu : Expression .signed us u) :
    ∃ ss', Derives (ws ++ w :: us) (.stmts true ss') ∧ ss'.length = ss.length ∧
      Stmt.listsOfList ss' = Stmt.listsOfList ss := by
  generalize ha : Phrase.stmts true ss = a at h
  cases h with
  | @snoc ws vs simple ss₀ s hss hs hsep =>
    obtain ⟨hsimple, rfl⟩ : true = isSimple s ∧ ss = ss₀ ++ [s] := by simpa using ha
    obtain ⟨s', hs', hsimple', hlists⟩ := hs.stmt_continued hsimple.symm hk ho hu
    have hsep' : ¬ (simple ∧ startsSigned (vs ++ w :: us)) := by
      obtain ⟨v, vs, rfl, -⟩ := Parser.State.first_word hs
      exact hsep
    refine ⟨ss₀ ++ [s'], ?_, by simp, ?_⟩
    · have := Derives.snoc hss hs' hsep'
      rwa [hsimple', ← List.append_assoc] at this
    · simp [Stmt.listsOfList_append, Stmt.listsOfList, hlists]
  | _ => simp at ha

end Grammar

namespace Stmt

theorem hasMergingPair_cons {s : Stmt} {rest : List Stmt} :
    HasMergingPair (s :: rest) ↔
      (isSimple s ∧ ∃ t ∈ rest.head?, t.isSigned) ∨ HasMergingPair rest := by
  constructor
  · rintro ⟨x, y, hinfix, hx, hy⟩
    obtain hfirst | hrest := List.infix_cons_iff.1 hinfix
    · obtain ⟨rfl, more, rfl⟩ : x = s ∧ ∃ more, y :: more = rest := by
        simpa [List.cons_prefix_cons, List.IsPrefix] using hfirst
      exact Or.inl ⟨hx, y, rfl, hy⟩
    · exact Or.inr ⟨x, y, hrest, hx, hy⟩
  · rintro (⟨hs, t, ht, hsigned⟩ | ⟨x, y, hinfix, hx, hy⟩)
    · cases rest with
      | nil => simp at ht
      | cons u rest =>
        obtain rfl : u = t := by simpa using ht
        exact ⟨s, u, ⟨[], rest, rfl⟩, hs, hsigned⟩
    · exact ⟨x, y, List.infix_cons hinfix, hx, hy⟩

/-- `Reread ls ls' same`: what reads back in place of the lists `ls` has no more statements; it has
fewer if two of them merge, and is the same if none do. -/
structure Reread (ls ls' : List (List Stmt)) (same : Prop) : Prop where
  le : ls'.flatten.length ≤ ls.flatten.length
  fewer : Merging ls → ls'.flatten.length < ls.flatten.length
  same : ¬ Merging ls → same

variable {ls ls' ms ms' : List (List Stmt)} {P Q : Prop}

theorem merging_append : Merging (ls ++ ms) ↔ Merging ls ∨ Merging ms := by
  simp [Merging, or_and_right, exists_or]

theorem not_merging_nil : ¬ Merging [] := by
  simp [Merging]

theorem Reread.nil (h : P) : Reread [] [] P :=
  ⟨Nat.le_refl _, fun hm => (not_merging_nil hm).elim, fun _ => h⟩

theorem Reread.imp (h : Reread ls ls' P) (himp : P → Q) : Reread ls ls' Q :=
  ⟨h.le, h.fewer, fun hn => himp (h.same hn)⟩

theorem Reread.append (h₁ : Reread ls ls' P) (h₂ : Reread ms ms' Q) :
    Reread (ls ++ ms) (ls' ++ ms') (P ∧ Q) := by
  have hle₁ := h₁.le
  have hle₂ := h₂.le
  refine ⟨?_, fun hm => ?_, fun hn => ?_⟩
  · simp only [List.flatten_append, List.length_append]
    omega
  · simp only [List.flatten_append, List.length_append]
    obtain hm | hm := merging_append.1 hm
    · have := h₁.fewer hm
      omega
    · have := h₂.fewer hm
      omega
  · rw [merging_append, not_or] at hn
    exact ⟨h₁.same hn.1, h₂.same hn.2⟩

def ReadsBack (s : Stmt) : Prop :=
  ∃ s', Derives s.words (.stmt s') ∧ isSimple s' = isSimple s ∧
    Reread s.lists s'.lists (s' = s.bare)

def ListReadsBack (ss : List Stmt) : Prop :=
  ∃ all, Derives (wordsOfList ss) (.stmts (ss.getLast?.any isSimple) all) ∧
    Reread (ss :: listsOfList ss) (all :: listsOfList all) (all = ss.map bare)

def ChainReadsBack (bs : List (Branch Stmt)) : Prop :=
  ∃ all, Derives (wordsOfBranches .ifWord bs) (.chain all) ∧
    Reread (listsOfBranches bs) (listsOfBranches all) (all = bs.map Branch.bare)

theorem hasMergingPair_concat {ss : List Stmt} {s : Stmt} :
    HasMergingPair (ss ++ [s]) ↔
      HasMergingPair ss ∨ (ss.getLast?.any isSimple ∧ s.isSigned) := by
  induction ss with
  | nil => simp [hasMergingPair_cons]
  | cons t rest ih =>
    rw [List.cons_append, hasMergingPair_cons, hasMergingPair_cons, ih]
    cases rest with
    | nil => simp [or_comm]
    | cons u rest => simp [or_assoc]

theorem merging_cons {ss : List Stmt} : Merging (ss :: ls) ↔ HasMergingPair ss ∨ Merging ls := by
  simp [Merging]

theorem wordsOfList_append (ss rs : List Stmt) :
    wordsOfList (ss ++ rs) = wordsOfList ss ++ wordsOfList rs := by
  induction ss with
  | nil => rfl
  | cons s rest ih => simp [wordsOfList, ih]

theorem isSigned_eq {s : Stmt} (h : s.isSigned) :
    ∃ span inner o e, s = .eval span (.unary inner (.op o) e) ∧ o.isAdditive := by
  unfold isSigned at h
  split at h
  · exact ⟨_, _, _, _, rfl, h⟩
  · exact absurd h (by decide)

/-- A statement that continues the one in front of it. -/
theorem ListReadsBack.merge {ss : List Stmt} {s : Stmt} (h : ListReadsBack ss) (hs : s.WellFormed)
    (hsimple : ss.getLast?.any isSimple) (hsigned : s.isSigned) : ListReadsBack (ss ++ [s]) := by
  obtain ⟨all, hd, hr⟩ := h
  obtain ⟨span, inner, o, e, rfl, ho⟩ := isSigned_eq hsigned
  have hu := (Expr.words_derive hs.2).2.at_level .signed
  rw [hsimple] at hd
  obtain ⟨all', hd', hlen, hlists⟩ := hd.stmts_continued (w := o.word) rfl ho hu
  have hle := hr.le
  have hlt : (all' :: listsOfList all').flatten.length <
      ((ss ++ [.eval span (.unary inner (.op o) e)]) :: listsOfList
        (ss ++ [.eval span (.unary inner (.op o) e)])).flatten.length := by
    simp only [List.flatten_cons, List.length_append, hlen, hlists, listsOfList_append,
      List.flatten_append, List.length_cons] at hle ⊢
    omega
  refine ⟨all', ?_, Nat.le_of_lt hlt, fun _ => hlt, fun hn => absurd ?_ hn⟩
  · simpa [wordsOfList_append, wordsOfList, words, Expr.words, Op.word, Kind.symbol,
      isSimple] using hd'
  · exact merging_cons.2 (Or.inl (hasMergingPair_concat.2 (Or.inr ⟨hsimple, hsigned⟩)))

/-- A statement that stays one of its own. -/
theorem ListReadsBack.concat {ss : List Stmt} {s : Stmt} (h : ListReadsBack ss)
    (hs : s.WellFormed) (hb : s.ReadsBack) (hn : ¬ (ss.getLast?.any isSimple ∧ s.isSigned)) :
    ListReadsBack (ss ++ [s]) := by
  obtain ⟨all, hd, hr⟩ := h
  obtain ⟨s', hd', hsimple, hr'⟩ := hb
  have hsnoc := hd.snoc hd' (by rwa [startsSigned_words hs])
  have hboth := hr.append hr'
  have hcount : ∀ (xs : List Stmt) (x : Stmt),
      ((xs ++ [x]) :: listsOfList (xs ++ [x])).flatten.length =
        (xs :: listsOfList xs ++ x.lists).flatten.length + 1 := by
    intro xs x
    simp [listsOfList_append, listsOfList]
    omega
  have hmerging : Merging ((ss ++ [s]) :: listsOfList (ss ++ [s])) ↔
      Merging (ss :: listsOfList ss ++ s.lists) := by
    simp only [merging_cons, hasMergingPair_concat, hn, or_false, listsOfList_append,
      listsOfList, List.append_nil, List.cons_append]
  refine ⟨all ++ [s'], ?_, ?_, fun hm => ?_, fun hm => ?_⟩
  · rw [wordsOfList_append]
    simpa [wordsOfList, hsimple] using hsnoc
  · rw [hcount, hcount]
    exact Nat.succ_le_succ hboth.le
  · rw [hcount, hcount]
    exact Nat.succ_lt_succ (hboth.fewer (hmerging.1 hm))
  · obtain ⟨rfl, rfl⟩ := hboth.same (fun hm' => hm (hmerging.2 hm'))
    simp

theorem listReadsBack_nil : ListReadsBack [] :=
  ⟨[], .none, Nat.le_refl _, fun hm => absurd hm (by simp [Merging, HasMergingPair, listsOfList]),
    fun _ => rfl⟩

def BlockReadsBack (b : Block Stmt) : Prop :=
  ∃ b', Derives (wordsOfBody (some b)) (.block b') ∧
    Reread (listsOfBody (some b)) (listsOfBody (some b')) (b' = b.bare)

theorem ListReadsBack.block {ss : List Stmt} (h : ListReadsBack ss) (opens closes : Pos) :
    BlockReadsBack ⟨opens, closes, ss⟩ := by
  obtain ⟨all, hd, hr⟩ := h
  exact ⟨⟨.unknown, .unknown, all⟩, .block rfl hd rfl, hr.imp (by rintro rfl; rfl)⟩

theorem wordsOfBranches_concat {bs : List (Branch Stmt)} {b : Branch Stmt} (hne : bs ≠ [])
    (k : Keyword) :
    wordsOfBranches k (bs ++ [b]) = wordsOfBranches k bs ++ wordsOfBranches .elifWord [b] := by
  induction bs generalizing k with
  | nil => exact absurd rfl hne
  | cons c rest ih =>
    cases rest with
    | nil => simp [wordsOfBranches]
    | cons d rest =>
      have := ih (by simp) .elifWord
      simp_all [wordsOfBranches]

theorem chainReadsBack_first {cond : Expr} {b : Block Stmt} (hc : cond.WellFormed)
    (hb : BlockReadsBack b) : ChainReadsBack [⟨cond, some b⟩] := by
  obtain ⟨b', hd, hr⟩ := hb
  refine ⟨[⟨cond.bare, some b'⟩], ?_, ?_⟩
  · simpa [wordsOfBranches] using Derives.first rfl (Expr.words_derive hc).1 rfl hd
  · simpa [listsOfBranches, Branch.relocate] using hr

theorem ChainReadsBack.concat {bs : List (Branch Stmt)} {cond : Expr} {b : Block Stmt}
    (h : ChainReadsBack bs) (hne : bs ≠ []) (hc : cond.WellFormed) (hb : BlockReadsBack b) :
    ChainReadsBack (bs ++ [⟨cond, some b⟩]) := by
  obtain ⟨all, hall, hrall⟩ := h
  obtain ⟨b', hd, hr⟩ := hb
  refine ⟨all ++ [⟨cond.bare, some b'⟩], ?_, ?_⟩
  · have := Derives.next (w := Keyword.elifWord.word) (v := Op.colon.word) hall rfl
      (Expr.words_derive hc).1 rfl hd
    simpa [wordsOfBranches_concat hne, wordsOfBranches] using this
  · have hsame : all = bs.map Branch.bare ∧ b' = b.bare →
        all ++ [Branch.mk cond.bare (some b')] =
          List.map Branch.bare (bs ++ [⟨cond, some b⟩]) := by
      rintro ⟨rfl, rfl⟩
      simp [Branch.relocate]
    simpa [listsOfBranches_append, listsOfBranches] using (hrall.append hr).imp hsame

theorem ChainReadsBack.otherwise {bs : List (Branch Stmt)} (h : ChainReadsBack bs) (span : Span)
    (b : Block Stmt) (hb : BlockReadsBack b) : ReadsBack (.branch span bs (some b)) := by
  obtain ⟨all, hall, hrall⟩ := h
  obtain ⟨b', hd, hr⟩ := hb
  refine ⟨.branch .nowhere all (some b'), ?_, rfl, (hrall.append hr).imp ?_⟩
  · exact .branchElse hall rfl rfl hd
  · rintro ⟨rfl, rfl⟩
    simp [relocate]

theorem ChainReadsBack.alone {bs : List (Branch Stmt)} (h : ChainReadsBack bs) (span : Span) :
    ReadsBack (.branch span bs none) := by
  obtain ⟨all, hall, hrall⟩ := h
  refine ⟨.branch .nowhere all none, ?_, rfl, (hrall.append (.nil trivial)).imp ?_⟩
  · simpa [words] using Derives.branch hall
  · rintro ⟨rfl, -⟩
    simp [relocate]

mutual

theorem readsBack : ∀ s : Stmt, s.WellFormed → s.ReadsBack
  | .missing, h => h.elim
  | .assign _ target op value, ⟨_, ho, hv⟩ =>
    ⟨_, .assign (.name (w := ⟨.name, target.text⟩) rfl) (w := ⟨op, op.symbol⟩) ho
      (Expr.words_derive hv).1, rfl, .nil rfl⟩
  | .eval _ e, h => ⟨_, .eval (Expr.words_derive h).1, rfl, .nil rfl⟩
  | .branch span (⟨_, some ⟨opens, closes, ss⟩⟩ :: rest) none, ⟨_, ⟨hc, ⟨_, hb⟩, hrest⟩, _⟩ =>
    have hblock := (listReadsBack ss [] hb listReadsBack_nil).block opens closes
    (chainReadsBack rest _ hrest (by simp) (chainReadsBack_first hc hblock)).alone span
  | .branch span (⟨_, some ⟨opens, closes, ss⟩⟩ :: rest) (some ⟨opens', closes', ss'⟩),
      ⟨_, ⟨hc, ⟨_, hb⟩, hrest⟩, ho⟩ =>
    have hblock := (listReadsBack ss [] hb listReadsBack_nil).block opens closes
    have hother := (listReadsBack ss' [] ho listReadsBack_nil).block opens' closes'
    (chainReadsBack rest _ hrest (by simp) (chainReadsBack_first hc hblock)).otherwise span _
      hother
  | .whileLoop _ cond (some ⟨opens, closes, ss⟩), ⟨hc, _, hb⟩ => by
    obtain ⟨b', hd, hr⟩ := (listReadsBack ss [] hb listReadsBack_nil).block opens closes
    exact ⟨_, .whileLoop rfl (Expr.words_derive hc).1 rfl hd, rfl,
      hr.imp (by rintro rfl; simp [relocate])⟩
  | .forLoop _ var range (some ⟨opens, closes, ss⟩), ⟨_, hrange, _, hb⟩ => by
    obtain ⟨b', hd, hr⟩ := (listReadsBack ss [] hb listReadsBack_nil).block opens closes
    have hargs := Arguments.three (w := Op.comma.word) (v := Op.comma.word)
      (Expr.words_derive hrange.1).1 rfl (Expr.words_derive hrange.2.1).1 rfl
      (Expr.words_derive hrange.2.2).1
    exact ⟨.forLoop .nowhere var.bare range.bare (some b'),
      .forLoop rfl rfl rfl rfl rfl hargs rfl rfl hd, rfl, hr.imp (by rintro rfl; simp [relocate])⟩
  | .breakLoop _, _ => ⟨_, .breakLoop rfl, rfl, .nil rfl⟩
  | .continueLoop _, _ => ⟨_, .continueLoop rfl, rfl, .nil rfl⟩

theorem listReadsBack : ∀ (rest done : List Stmt), WellFormedList rest → ListReadsBack done →
    ListReadsBack (done ++ rest)
  | [], done, _, hd => by simpa using hd
  | s :: rest, done, ⟨hs, hr⟩, hd => by
    have hsnoc : ListReadsBack (done ++ [s]) := by
      by_cases hm : done.getLast?.any isSimple ∧ s.isSigned
      · exact hd.merge hs hm.1 hm.2
      · exact hd.concat hs (readsBack s hs) hm
    simpa using listReadsBack rest (done ++ [s]) hr hsnoc

theorem chainReadsBack : ∀ (rest done : List (Branch Stmt)), WellFormedBranches rest → done ≠ [] →
    ChainReadsBack done → ChainReadsBack (done ++ rest)
  | [], done, _, _, hd => by simpa using hd
  | ⟨cond, some ⟨opens, closes, ss⟩⟩ :: rest, done, ⟨hc, ⟨_, hb⟩, hr⟩, hne, hd => by
    have hblock := (listReadsBack ss [] hb listReadsBack_nil).block opens closes
    have hsnoc := hd.concat hne hc hblock
    simpa using chainReadsBack rest _ hr (by simp) hsnoc

end

end Stmt

/-- A program that was read from a source reads back from its printed form. The tree is the same,
positions aside, exactly when no two neighbours merge; if some do, it has fewer statements. -/
theorem printed_program_reads_back (source : Text) (p : Program)
    (h : Program.parse source = .ok p) :
    ∃ q, Program.parse (Tree.print (.program p)) = .ok q ∧
      (q.bare = p.bare ↔ ¬ p.HasMergingPair) ∧
      (p.HasMergingPair → q.stmtCount < p.stmtCount) := by
  have hwf := Program.wellFormed_of_parse h
  obtain ⟨all, hd, hr⟩ := Stmt.listReadsBack p.stmts [] hwf Stmt.listReadsBack_nil
  have hspells : Spells ((Token.tokenize (Tree.print (.program p))).map Token.word)
      ⟨.nowhere, all⟩ := by
    have hwords := Tree.wordsIn_print hwf
    rw [Lexer.wordsIn] at hwords
    rw [hwords]
    exact ⟨rfl, _, hd⟩
  have ht : ∀ t ∈ Token.tokenize (Tree.print (.program p)), t.kind ≠ .eof :=
    fun t ht => (Token.tokenize_lexed _ t ht).kind_ne_eof
  obtain ⟨q, hq, hbare⟩ := Parser.parseTokens_of_spells
    (Token.endOf (Tree.print (.program p))).pos ht hspells
  have hcount : q.stmtCount = (Program.mk .nowhere all).stmtCount := by
    rw [← hbare, Program.stmtCount_bare]
  have hfewer : p.HasMergingPair → q.stmtCount < p.stmtCount := by
    intro hm
    rw [hcount]
    exact hr.fewer hm
  refine ⟨q, hq, ⟨?_, ?_⟩, hfewer⟩
  · intro heq hm
    have hlt := hfewer hm
    rw [← Program.stmtCount_bare q, heq, Program.stmtCount_bare] at hlt
    omega
  · intro hn
    rw [hbare, hr.same hn]
    rfl

/-- The semicolon of the source is not printed, and the second statement continues the first. -/
theorem semicolon_lost_in_print : ∃ p, Program.parse "x; -y" = .ok p ∧ p.HasMergingPair ∧
    ∃ q, Program.parse (Tree.print (.program p)) = .ok q ∧ q.stmtCount < p.stmtCount := by
  have ht : Token.tokenize "x; -y" = [⟨.name, "x", ⟨1, 1, 0⟩⟩, ⟨.op .semicolon, ";", ⟨1, 2, 1⟩⟩,
      ⟨.op .minus, "-", ⟨1, 4, 3⟩⟩, ⟨.name, "y", ⟨1, 5, 4⟩⟩] := by decide
  have hp : ∃ p, Program.parse "x; -y" = .ok p ∧ p.HasMergingPair := by
    rw [Program.parse, ht]
    refine ⟨_, rfl, _, List.mem_cons_self, _, _, List.infix_rfl, rfl, rfl⟩
  obtain ⟨p, hp, hm⟩ := hp
  obtain ⟨q, hq, -, hlt⟩ := printed_program_reads_back "x; -y" p hp
  exact ⟨p, hp, hm, q, hq, hlt hm⟩

end ThreeAddress
