import ThreeAddress.Proofs.AlikeRuns
import ThreeAddress.Proofs.Tokenization

/-! What a compiled program does not depend on: the names that were generated for it, and the layout
and spelling of its source. -/
namespace ThreeAddress

/-- Under settings that are accepted, compiling is parsing and lowering. -/
theorem outcome_compile {settings : Settings} {scheme : Scheme}
    (hvalid : settings.scheme.filled.validate = .ok scheme) (source : Text) :
    (compile settings source).outcome =
      ((Program.parse source).mapError CompileError.parsing).bind fun p =>
        ((p.lower settings.scheme.filled).mapError CompileError.lowering).map fun l =>
          ⟨settings.file, source, p, p.warnings, l,
            if settings.layout then Layout.format l.text else l.text⟩ := by
  obtain ⟨rfl, -⟩ := Scheme.validate_eq_ok hvalid
  unfold compile
  rw [hvalid]
  cases Program.parse source with
  | error e => rfl
  | ok p =>
    simp only [Except.mapError, Except.bind]
    cases p.lower settings.scheme.filled <;> rfl

theorem file_of_compile {settings : Settings} {source : Text} {t : Compilation}
    (h : (compile settings source).outcome = .ok t) : t.file = settings.file :=
  (compile_parts h).2.1

theorem Scheme.isIdentifier_filled {s : Scheme} (h : s.tempStem.isIdentifier) :
    s.filled.tempStem.isIdentifier := by
  rwa [Scheme.tempStem_filled (Operand.isLiteral_of_isIdentifier h).1]

theorem Scheme.type_filled_congr {s s' : Scheme} (h : s.type = s'.type) :
    s.filled.type = s'.filled.type := by
  simp [Scheme.filled, h]

/-- What a run logs. -/
def Compilation.runRecords (t : Compilation) : Except RunError RunResult → List Log.Record
  | .error _ => []
  | .ok r => [.run t.file r.steps r.vars.length]

theorem Compilation.run_eq (t : Compilation) (ctx : Context) (limit : Option Nat)
    (inputs : List (Text × Float)) :
    t.run ctx limit inputs = ⟨t.runRecords (t.run ctx limit inputs).outcome,
      (t.run ctx limit inputs).outcome⟩ := by
  unfold Compilation.run
  cases Machine.load t.listing limit inputs with
  | error e => rfl
  | ok m =>
    simp only
    generalize m.run ctx m.reset = result
    obtain ⟨mem, halt⟩ := result
    cases halt <;> rfl

/-- Compiled under other names for its temporaries and labels, a program runs as before, whatever
its inputs are called: it ends with the same values after the same number of steps, fails in the
same place for the same reason, or never ends, as it did. -/
theorem generated_names_are_unobservable {settings settings' : Settings} {scheme : Scheme}
    {source : Text} {t : Compilation} (hcompile : (compile settings source).outcome = .ok t)
    (hvalid : settings'.scheme.filled.validate = .ok scheme)
    (htype : settings'.scheme.type = settings.scheme.type)
    (hfile : settings'.file = settings.file) :
    ∃ t', (compile settings' source).outcome = .ok t' ∧ ∀ ctx maxSteps inputs,
      t'.run ctx (Machine.limitOf maxSteps) inputs =
        t.run ctx (Machine.limitOf maxSteps) inputs ∧
      t'.runFor ctx (Machine.limitOf maxSteps) inputs =
        t.runFor ctx (Machine.limitOf maxSteps) inputs := by
  obtain ⟨hstem, hparse, hlower⟩ := compile_eq_ok hcompile
  obtain ⟨-, hstem'⟩ := Scheme.validate_eq_ok hvalid
  have htypes : settings.scheme.filled.filled.type = settings'.scheme.filled.filled.type :=
    Scheme.type_filled_congr (Scheme.type_filled_congr htype.symm)
  have hself : t.program.Alike Eq t.program := Stmt.ListAlike.refl (fun _ => rfl) _
  obtain ⟨t', hcompile'⟩ : ∃ t', (compile settings' source).outcome = .ok t' := by
    have hboth := Program.lower_alike hself (Program.wellFormed_of_parse hparse) htypes
    rw [hlower] at hboth
    rw [outcome_compile hvalid, hparse]
    simp only [Except.mapError, Except.bind]
    generalize t.program.lower settings'.scheme.filled = lowered at hboth
    cases hboth with
    | ok => exact ⟨_, rfl⟩
  refine ⟨t', hcompile', fun ctx maxSteps inputs => ?_⟩
  obtain ⟨-, hparse', hlower'⟩ := compile_eq_ok hcompile'
  have hprogram : t.program = t'.program := Except.ok.inj (hparse.symm.trans hparse')
  have halike : t.program.Alike Eq t'.program := hprogram ▸ hself
  obtain ⟨hrun, hrunFor⟩ := Compilation.run_alike hparse hlower hlower' halike
    (Scheme.isIdentifier_filled hstem) (Scheme.isIdentifier_filled hstem') htypes ctx
    (Machine.limitOf maxSteps) inputs
  constructor
  · rw [t'.run_eq, t.run_eq, hrun.eq_of_alike]
    unfold Compilation.runRecords
    rw [file_of_compile hcompile, file_of_compile hcompile', hfile]
  · funext fuel
    exact (Both.eq_of_rel_alike (hrunFor fuel)).symm

/-- The source uses the second name of the first scheme, and the inputs the first name of both. -/
theorem renamed_temporaries_give_the_same_result : ∃ t t',
    (compile ⟨⟨"int", "t", "l"⟩, true, []⟩ "x = t2 * 2 + y").outcome = .ok t ∧
      (compile ⟨⟨"int", "u", []⟩, true, []⟩ "x = t2 * 2 + y").outcome = .ok t' ∧
      t.listing.code.filterMap (·.action.writes?) = [Text.ofString "t1", "t3", "x"] ∧
      t'.listing.code.filterMap (·.action.writes?) = [Text.ofString "u1", "u2", "x"] ∧
      ∀ ctx maxSteps inputs,
        t'.run ctx (Machine.limitOf maxSteps) (("t1", 5) :: ("u1", 7) :: inputs) =
          t.run ctx (Machine.limitOf maxSteps) (("t1", 5) :: ("u1", 7) :: inputs) ∧
        t'.runFor ctx (Machine.limitOf maxSteps) (("t1", 5) :: ("u1", 7) :: inputs) =
          t.runFor ctx (Machine.limitOf maxSteps) (("t1", 5) :: ("u1", 7) :: inputs) := by
  have hfirst : (compile ⟨⟨"int", "t", "l"⟩, true, []⟩ "x = t2 * 2 + y").outcome.toOption.map
      (fun t => t.listing.code.filterMap (·.action.writes?)) =
      some [Text.ofString "t1", "t3", "x"] := by
    decide +kernel
  have hsecond : (compile ⟨⟨"int", "u", []⟩, true, []⟩ "x = t2 * 2 + y").outcome.toOption.map
      (fun t => t.listing.code.filterMap (·.action.writes?)) =
      some [Text.ofString "u1", "u2", "x"] := by
    decide +kernel
  obtain ⟨t, hcompile, hwrites⟩ := exists_of_map_compile hfirst
  obtain ⟨t', hcompile', hwrites'⟩ := exists_of_map_compile hsecond
  obtain ⟨t'', hcompile'', hruns⟩ : ∃ t'',
      (compile ⟨⟨"int", "u", []⟩, true, []⟩ "x = t2 * 2 + y").outcome = .ok t'' ∧
      ∀ ctx maxSteps inputs, t''.run ctx (Machine.limitOf maxSteps) inputs =
        t.run ctx (Machine.limitOf maxSteps) inputs ∧
      t''.runFor ctx (Machine.limitOf maxSteps) inputs =
        t.runFor ctx (Machine.limitOf maxSteps) inputs :=
    generated_names_are_unobservable hcompile rfl rfl rfl
  obtain rfl := Except.ok.inj (hcompile'.symm.trans hcompile'')
  exact ⟨t, t', hcompile, hcompile', hwrites, hwrites', fun ctx maxSteps inputs =>
    hruns ctx maxSteps _⟩

/-- What the parser looks at in a token: its kind, and the text of a name or number. -/
def Token.essence (t : Token) : Kind × Text := (t.kind, if t.kind.isLiteral then t.text else [])

/-- The tokens of a source, and then its end. -/
def Token.stream (source : Text) : List Token := tokenize source ++ [endOf source]

/-- The places of tokens that have the same number in two sources. -/
def SameToken (source source' : Text) (pos pos' : Pos) : Prop :=
  ∃ (i : Nat) (t t' : Token), (Token.stream source)[i]? = some t ∧
    (Token.stream source')[i]? = some t' ∧ t.pos = pos ∧ t'.pos = pos'

/-- Errors of one kind, at places that `R` pairs. -/
inductive CompileError.Alike (R : Pos → Pos → Prop) : CompileError → CompileError → Prop
  | parsing {e e' : SyntaxError} : R e.pos e'.pos → Alike R (.parsing e) (.parsing e')
  | lowering {e e' : LoweringError} : e.cause = e'.cause → R e.pos e'.pos →
      Alike R (.lowering e) (.lowering e')

/-- Compiled programs with one C text and the same variables that run alike, and if they fail, do so
for the same reason. -/
structure Compilation.Alike (R : Pos → Pos → Prop) (t t' : Compilation) : Prop where
  code : t.code = t'.code
  varNames : t.varNames = t'.varNames
  run : ∀ ctx maxSteps inputs, Both (RunError.Alike R) Eq
    (t.run ctx (Machine.limitOf maxSteps) inputs).outcome
    (t'.run ctx (Machine.limitOf maxSteps) inputs).outcome
  runFor : ∀ ctx maxSteps inputs fuel, Option.Rel (Both (RunError.Alike R) Eq)
    (t.runFor ctx (Machine.limitOf maxSteps) inputs fuel)
    (t'.runFor ctx (Machine.limitOf maxSteps) inputs fuel)

namespace Pairing

variable {P : Pairing}

theorem Temps.eq {t t' : Text} (h : P.Temps t t') (hsame : P.left = P.right) : t = t' := by
  obtain ⟨k⟩ := h
  rw [hsame]

theorem Labels.eq {l l' : Text} (h : P.Labels l l') (hsame : P.left = P.right) : l = l' := by
  obtain ⟨n⟩ := h
  rw [hsame]

theorem Operands.eq {x x' : Text} (h : P.Operands x x') (hsame : P.left = P.right) : x = x' := by
  cases h with
  | name | literal => rfl
  | temp h => exact h.eq hsame

theorem Rhss.eq {rhs rhs' : Rhs} (h : P.Rhss rhs rhs') (hsame : P.left = P.right) :
    rhs = rhs' := by
  cases h with
  | copy hx | unary hx => rw [hx.eq hsame]
  | binary hx hy => rw [hx.eq hsame, hy.eq hsame]

/-- Under one scheme paired actions are the same. -/
theorem Actions.eq {a a' : Action} (h : P.Actions a a') (hsame : P.left = P.right) : a = a' := by
  cases h with
  | declare => rfl
  | compute ht hr => rw [ht.eq hsame, hr.eq hsame]
  | store _ hx => rw [hx.eq hsame]
  | jumpUnless hx hl => rw [hx.eq hsame, hl.eq hsame]
  | jumpIf hx hy hl => rw [hx.eq hsame, hy.eq hsame, hl.eq hsame]
  | jump hl | label hl => rw [hl.eq hsame]

theorem Listings.text_eq {l l' : Listing} (h : P.Listings l l') (hsame : P.left = P.right) :
    l.text = l'.text := by
  have hbody : l.body = l'.body := by
    unfold Listing.body
    have hcode := h.code
    generalize l.code = code at hcode
    generalize l'.code = code' at hcode
    induction hcode with
    | nil => rfl
    | cons hi _ ih => rw [List.flatMap_cons, List.flatMap_cons, hi.action.eq hsame, ih]
  rw [Listing.text, Listing.text, hbody]

theorem Listings.names_eq {l l' : Listing} (h : P.Listings l l') :
    l.symbols.map (·.name) = l'.symbols.map (·.name) := by
  have hsymbols := h.symbols
  generalize l.symbols = symbols at hsymbols
  generalize l'.symbols = symbols' at hsymbols
  induction hsymbols with
  | nil => rfl
  | cons hs _ ih => rw [List.map_cons, List.map_cons, hs.name, ih]

end Pairing

theorem Token.alike_of_essence {R : Pos → Pos → Prop} {t t' : Token} (h : t.essence = t'.essence)
    (hpos : R t.pos t'.pos) : t.Alike R t' := by
  obtain ⟨hkind, htext⟩ := Prod.mk.inj h
  refine ⟨hkind, fun hl => ?_, hpos⟩
  rwa [if_pos hl, if_pos (hkind ▸ hl)] at htext

section

variable {source source' : Text}

/-- The position of the end of a source is known. -/
theorem Parser.finalToken_endOf (source : Text) :
    finalToken (Token.tokenize source) (Token.endOf source).pos = Token.endOf source := by
  have hknown : (Token.endOf source).pos.isKnown = true := by
    rw [Token.endOf_pos, Pos.isKnown, decide_eq_true_eq]
    exact Int.add_pos_of_pos_of_nonneg (by decide) (Int.natCast_nonneg _)
  rw [finalToken, if_pos hknown]
  rfl

theorem sameToken_of_mem {i : Nat} {t t' : Token} (h : (Token.tokenize source)[i]? = some t)
    (h' : (Token.tokenize source')[i]? = some t') : SameToken source source' t.pos t'.pos := by
  obtain ⟨hi, -⟩ := List.getElem?_eq_some_iff.1 h
  obtain ⟨hi', -⟩ := List.getElem?_eq_some_iff.1 h'
  refine ⟨i, t, t', ?_, ?_, rfl, rfl⟩
  · rw [Token.stream, List.getElem?_append_left hi, h]
  · rw [Token.stream, List.getElem?_append_left hi', h']

theorem sameToken_endOf (h : (Token.tokenize source).length = (Token.tokenize source').length) :
    SameToken source source' (Token.endOf source).pos (Token.endOf source').pos := by
  refine ⟨(Token.tokenize source).length, _, _, ?_, ?_, rfl, rfl⟩
  · exact List.getElem?_concat_length
  · rw [h]
    exact List.getElem?_concat_length

/-- Sources with the same tokens up to layout and spelling are read alike. -/
theorem Program.parse_alike
    (h : (Token.tokenize source).map Token.essence = (Token.tokenize source').map Token.essence) :
    Both (SyntaxError.Alike (SameToken source source')) (Program.Alike (SameToken source source'))
      (Program.parse source) (Program.parse source') := by
  have hlength : (Token.tokenize source).length = (Token.tokenize source').length := by
    simpa using congrArg List.length h
  refine Parser.parseTokens_alike (List.forall₂_iff_get.2 ⟨hlength, fun i hi hi' => ?_⟩) ?_
  · have hget := List.getElem?_eq_getElem hi
    have hget' := List.getElem?_eq_getElem hi'
    have hessence := congrArg (·[i]?) h
    simp only [List.getElem?_map, hget, hget', Option.map_some, Option.some.injEq] at hessence
    exact Token.alike_of_essence hessence (sameToken_of_mem hget hget')
  · rw [Parser.finalToken_endOf, Parser.finalToken_endOf]
    exact ⟨rfl, fun _ => rfl, sameToken_endOf hlength⟩

/-- Sources whose tokens are of the same kinds, with the same names and numbers, are compiled to the
same C text and to programs that run alike, or both fail at tokens with the same number. Blanks,
comments and the spelling of operators do not matter. -/
theorem translation_depends_only_on_tokens {settings : Settings} {scheme : Scheme}
    (hvalid : settings.scheme.filled.validate = .ok scheme)
    (h : (Token.tokenize source).map Token.essence = (Token.tokenize source').map Token.essence) :
    Both (CompileError.Alike (SameToken source source'))
      (Compilation.Alike (SameToken source source')) (compile settings source).outcome
      (compile settings source').outcome := by
  have hparses := Program.parse_alike h
  rw [outcome_compile hvalid, outcome_compile hvalid]
  obtain ⟨rfl, hstem⟩ := Scheme.validate_eq_ok hvalid
  have hstem := Scheme.isIdentifier_filled hstem
  generalize hparse : Program.parse source = parsed at hparses ⊢
  generalize Program.parse source' = parsed' at hparses ⊢
  cases hparses with
  | error he => exact .error (.parsing he)
  | @ok p p' halike =>
    have hlowers := @Program.lower_alike _ _ _ settings.scheme.filled settings.scheme.filled halike
      (Program.wellFormed_of_parse hparse) rfl
    simp only [Except.mapError, Except.bind]
    generalize hlower : p.lower settings.scheme.filled = lowered at hlowers ⊢
    generalize hlower' : p'.lower settings.scheme.filled = lowered' at hlowers ⊢
    cases hlowers with
    | error he => exact .error (.lowering he.cause he.pos)
    | ok hl =>
      refine .ok ⟨?_, hl.names_eq, fun ctx maxSteps inputs => ?_, fun ctx maxSteps inputs => ?_⟩
      · simp only [hl.text_eq rfl]
      · exact (Compilation.run_alike hparse hlower hlower' halike hstem hstem rfl ctx _ inputs).1
      · exact (Compilation.run_alike hparse hlower hlower' halike hstem hstem rfl ctx _ inputs).2

end

/-- One assignment in two spellings. -/
theorem spelling_does_not_matter : ∃ t t',
    (compile .default "x = not y and 7 // 2").outcome = .ok t ∧
      (compile .default "\n x=!y&&7/2 # half").outcome = .ok t' ∧ t.varNames = [Text.ofString "x"] ∧
      t.Alike (SameToken "x = not y and 7 // 2" "\n x=!y&&7/2 # half") t' := by
  have htokens : (Token.tokenize "x = not y and 7 // 2").map Token.essence =
      (Token.tokenize "\n x=!y&&7/2 # half").map Token.essence := by
    decide +kernel
  have hfirst : (compile .default "x = not y and 7 // 2").outcome.toOption.map
      (fun t => t.varNames) = some [Text.ofString "x"] := by
    decide +kernel
  have hvalid : Settings.default.scheme.filled.validate = .ok .default := by rfl
  obtain ⟨t, hcompile, hnames⟩ := exists_of_map_compile hfirst
  have hboth := translation_depends_only_on_tokens hvalid htokens
  rw [hcompile] at hboth
  generalize (compile .default "\n x=!y&&7/2 # half").outcome = compiled at hboth
  cases hboth with
  | @ok _ t' halike => exact ⟨t, t', hcompile, rfl, hnames, halike⟩

end ThreeAddress
