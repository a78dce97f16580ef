import ThreeAddress.Proofs.AddingZero
import ThreeAddress.Proofs.Subtrees
import ThreeAddress.Proofs.SyntaxErrors

/-! Numbers as the parser and the machine read them. Whatever the lexer takes for a number has a
value, and the text that it leaves in the generated code is a literal of that value, unless it is an
integer that 64 bits cannot hold. -/
namespace ThreeAddress

namespace Decimal

open Text

variable {s ds rest : Text}

/-- The mantissa after more digits. -/
def Mantissa.extend (m : Mantissa) (ds : Text) : Mantissa :=
  ⟨ds.foldl (fun n b => n * 10 + (b.toNat - 48)) m.digits, m.count + ds.length,
    if m.point then m.places + ds.length else m.places, m.point, m.underscores⟩

theorem Mantissa.extend_push (m : Mantissa) (b : UInt8) (ds : Text) :
    (m.push 10 (b.toNat - 48)).extend ds = m.extend (b :: ds) := by
  simp only [extend, push, List.foldl_cons, List.length_cons, Mantissa.mk.injEq, true_and, and_true]
  refine ⟨by omega, ?_⟩
  split <;> omega

theorem readMantissa_run (hds : ∀ b ∈ ds, isDigit b) (m : Mantissa) (rest : Text) :
    readMantissa false m (ds ++ rest) = readMantissa false (m.extend ds) rest := by
  induction ds generalizing m with
  | nil => simp [Mantissa.extend]
  | cons b ds ih =>
    have hb : isDigit b := hds b List.mem_cons_self
    have hunder := beq_of_isDigit hb (c := ascii '_') (by decide)
    have hdot := beq_of_isDigit hb (c := ascii '.') (by decide)
    have hvalue : digitValue false b = some (b.toNat - 48) := by simp [digitValue, hb]
    simp only [List.cons_append, readMantissa, hunder, hdot, hvalue, Bool.false_eq_true, if_false]
    rw [ih fun c hc => hds c (List.mem_cons_of_mem _ hc), Mantissa.extend_push]

theorem readMantissa_point {m : Mantissa} (h : m.point = false) :
    readMantissa false m (ascii '.' :: rest) =
      readMantissa false { m with point := true } rest := by
  have hunder : (ascii '.' == ascii '_') = false := by decide
  simp [readMantissa, hunder, h]

theorem readMantissa_stop (m : Mantissa) (h : rest = [] ∨ Lexer.Exponent rest) :
    readMantissa false m rest = (m, rest) := by
  rcases h with rfl | he
  · rfl
  · obtain ⟨hletter, -, -⟩ := he
    rcases hletter with rfl | rfl <;> rfl

/-- The mantissa of a number is read up to its exponent. -/
theorem readMantissa_mantissa {u : Text} (h : Lexer.Mantissa u)
    (hrest : rest = [] ∨ Lexer.Exponent rest) :
    ∃ m, readMantissa false .empty (u ++ rest) = (m, rest) ∧ m.count ≠ 0 ∧
      m.underscores = false := by
  have hcount : ∀ (m : Mantissa) ds, ds.length ≠ 0 → (m.extend ds).count ≠ 0 := by
    intro m ds hlen
    show m.count + ds.length ≠ 0
    omega
  cases h with
  | whole hds =>
    refine ⟨Mantissa.empty.extend u, ?_, hcount _ _ hds.length_ne_zero, rfl⟩
    rw [readMantissa_run hds.2, readMantissa_stop _ hrest]
  | @point ds fs hds hfs =>
    refine ⟨Mantissa.extend { Mantissa.empty.extend ds with point := true } fs, ?_, ?_, rfl⟩
    · rw [List.append_assoc, readMantissa_run hds.2, List.cons_append, readMantissa_point rfl,
        readMantissa_run hfs, readMantissa_stop _ hrest]
    · have hlen := hds.length_ne_zero
      show Mantissa.empty.count + ds.length + fs.length ≠ 0
      omega
  | @fraction fs hfs =>
    refine ⟨Mantissa.extend { Mantissa.empty with point := true } fs, ?_,
      hcount _ _ hfs.length_ne_zero, rfl⟩
    rw [List.cons_append, readMantissa_point rfl, readMantissa_run hfs.2,
      readMantissa_stop _ hrest]

theorem readExponentDigits_digits (h : ∀ b ∈ ds, isDigit b) (e : Nat) :
    ∃ n, readExponentDigits e false ds = (n, false, []) := by
  induction ds generalizing e with
  | nil => exact ⟨e, rfl⟩
  | cons b ds ih =>
    have hb := h b List.mem_cons_self
    have hunder := beq_of_isDigit hb (c := ascii '_') (by decide)
    simp only [readExponentDigits, hunder, hb, Bool.false_eq_true, if_false, if_true]
    exact ih (fun c hc => h c (List.mem_cons_of_mem _ hc)) _

/-- Neither a sign nor the mark of another base is in front of a number. -/
theorem number_front (h : Lexer.Number s) : readSign s = (false, s) ∧
    ∀ b ∈ s, (lower b == ascii 'x') = false := by
  refine ⟨?_, ?_⟩
  · obtain ⟨b, rest, rfl, hb | rfl⟩ := h.first
    · exact readSign_digits hb rest
    · rfl
  · intro b hb
    rcases h.bytes b hb with hdigit | hmark
    · rw [lower_of_isDigit hdigit]
      exact beq_of_isDigit hdigit (by decide)
    · have hmarks : ∀ c ∈ ofString ".eE+-", (lower c == ascii 'x') = false := by
        decide +kernel
      exact hmarks b (by simpa [Lexer.isNumberMark] using hmark)

/-- What follows the letter of an exponent. -/
theorem readSign_exponent {sign : Text}
    (hsign : sign = [] ∨ sign = [ascii '+'] ∨ sign = [ascii '-']) (hds : Lexer.Digits ds) :
    ∃ minus, readSign (sign ++ ds) = (minus, ds) := by
  obtain ⟨d, rest, rfl⟩ := List.exists_cons_of_ne_nil hds.1
  rcases hsign with rfl | rfl | rfl
  · exact ⟨false, readSign_digits (hds.2 d List.mem_cons_self) rest⟩
  · exact ⟨false, rfl⟩
  · exact ⟨true, rfl⟩

theorem read?_of_mantissa {m : Mantissa} (hsign : readSign s = (false, s))
    (hmark : ∀ b ∈ s, (lower b == ascii 'x') = false)
    (hread : readMantissa false .empty s = (m, rest)) (hcount : m.count ≠ 0)
    (hunder : m.underscores = false) (hrest : rest = [] ∨ Lexer.Exponent rest) :
    (Numeral.read? s).isSome := by
  rcases hrest with rfl | he
  · -- a text of three bytes or more could have a base mark
    rcases s with _ | ⟨b, _ | ⟨x, _ | ⟨c, s⟩⟩⟩
    case cons.cons.cons => simp [Numeral.read?, hsign, hmark x (by simp), hread, hcount, hunder]
    all_goals simp [Numeral.read?, hsign, hread, hcount, hunder]
  · obtain @⟨e, sign, ds, hletter, hsigned, hds⟩ := he
    obtain ⟨minus, hminus⟩ := readSign_exponent hsigned hds
    obtain ⟨n, hexponent⟩ := readExponentDigits_digits hds.2 0
    obtain ⟨d, ds, rfl⟩ := List.exists_cons_of_ne_nil hds.1
    have hd := hds.2 d List.mem_cons_self
    have hlower : lower e = ascii 'e' := by rcases hletter with rfl | rfl <;> rfl
    rcases s with _ | ⟨b, _ | ⟨x, _ | ⟨c, s⟩⟩⟩
    case cons.cons.cons =>
      simp [Numeral.read?, hsign, hmark x (by simp), hread, hcount, hunder, hlower, hminus, hd,
        hexponent]
    all_goals simp [Numeral.read?, hsign, hread, hcount, hunder, hlower, hminus, hd, hexponent]

theorem readFloat_number (h : Lexer.Number s) : (readFloat s).isSome := by
  obtain ⟨hsign, hmark⟩ := number_front h
  have hread : (Numeral.read? s).isSome := by
    cases h with
    | plain hm =>
      obtain ⟨m, hread, hcount, hunder⟩ := readMantissa_mantissa hm (Or.inl rfl)
      rw [List.append_nil] at hread
      exact read?_of_mantissa hsign hmark hread hcount hunder (Or.inl rfl)
    | scientific hm he =>
      obtain ⟨m, hread, hcount, hunder⟩ := readMantissa_mantissa hm (Or.inr he)
      exact read?_of_mantissa hsign hmark hread hcount hunder (Or.inr he)
  unfold readFloat
  split
  · rfl
  · simpa using hread

/-- An integer beyond 64 bits is not read. -/
theorem readInt_large (hs : ∀ b ∈ s, isDigit b) (h : Int64.maxValue.toInt < s.decimal) :
    readInt 10 s = none := by
  rcases s with _ | ⟨b, rest⟩
  · rfl
  · have hmax : Int64.maxValue.toInt = 9223372036854775807 := by decide
    have hlarge : ¬ decimal (b :: rest) ≤ 9223372036854775807 := by omega
    simp [readInt, readSign_digits (hs b List.mem_cons_self), readDigits_decimal hs, hlarge]

end Decimal

namespace Value

variable {raw : Text} {value : Float}

theorem isFloatLiteral_iff : isFloatLiteral raw ↔
    Text.ascii '.' ∈ raw ∨ Text.ascii 'e' ∈ raw ∨ Text.ascii 'E' ∈ raw := by
  simp only [isFloatLiteral, List.any_eq_true, Bool.or_eq_true, beq_iff_eq]
  constructor
  · rintro ⟨b, hb, (rfl | rfl) | rfl⟩
    · exact Or.inl hb
    · exact Or.inr (Or.inl hb)
    · exact Or.inr (Or.inr hb)
  · rintro (h | h | h)
    · exact ⟨_, h, Or.inl (Or.inl rfl)⟩
    · exact ⟨_, h, Or.inl (Or.inr rfl)⟩
    · exact ⟨_, h, Or.inr rfl⟩

/-- The literal of a number that the parser accepts, by its text. -/
theorem ofLiteral_numeral (h : IsNumeral raw value) :
    (isFloatLiteral raw ∧ ofLiteral raw = .ok (.float value)) ∨
    (isFloatLiteral raw = false ∧ (∀ b ∈ raw, Text.isDigit b) ∧
      ((raw.decimal : Int) ≤ Int64.maxValue.toInt ∧
          ofLiteral raw = .ok (.int (Int64.ofInt raw.decimal)) ∨
        Int64.maxValue.toInt < raw.decimal ∧ ofLiteral raw = .error (.badLiteral raw))) := by
  obtain ⟨hlexed, -, hplain, reading, hread, rfl⟩ := h
  cases hfloat : isFloatLiteral raw with
  | true => exact Or.inl ⟨rfl, by simp [ofLiteral, hfloat, hread]⟩
  | false =>
    obtain ⟨hne, hdigits⟩ := Lexer.digits_of_lexed hlexed hfloat
    have hdecimal := Decimal.readDigits_decimal hdigits
    refine Or.inr ⟨rfl, hdigits, ?_⟩
    by_cases hzero : raw.head? = some (Text.ascii '0')
    · -- such digits are all zeros, or the parser would not have accepted them
      have hzeros : ∀ b ∈ raw, b = Text.ascii '0' := by
        by_contra hother
        apply hplain
        refine ⟨List.all_eq_true.2 hdigits, hzero, ?_⟩
        simpa using hother
      have hvalue : raw.decimal = 0 := by
        rw [Decimal.readDigits_zeros (by decide) hzeros] at hdecimal
        exact (Option.some.inj hdecimal).symm
      refine Or.inl ⟨by rw [hvalue]; decide, ?_⟩
      rw [ofLiteral_zeros hne hzeros, hvalue]
      rfl
    · rcases lt_or_ge Int64.maxValue.toInt raw.decimal with hlarge | hle
      · refine Or.inr ⟨hlarge, ?_⟩
        rw [ofLiteral_decimal hfloat hzero, Decimal.readInt_large hdigits hlarge]
      · exact Or.inl ⟨hle, ofLiteral_digits hdecimal hzero hne hle⟩

end Value

/-- An error that blames the token `t` for a bad number is about a number that cannot be read. -/
def SyntaxError.Justified (t : Token) (e : SyntaxError) : Prop :=
  ∀ s, e.cause = .badNumber s → t.kind = .number ∧ Decimal.readFloat t.text = none

theorem SyntaxError.justified_expected (t u : Token) (want : List Text) :
    (SyntaxError.expected u want).Justified t := by
  rintro s ⟨⟩

namespace Reading

variable {r : Reading} {t : Token} {e : SyntaxError}

theorem justified_of_takeOperand (h : r.takeOperand t = .error e) : e.Justified t := by
  intro s hs
  unfold takeOperand at h
  split at h
  · rename_i hk
    refine ⟨hk, ?_⟩
    unfold numberLeaf at h
    split at h
    · cases h
      cases hs
    · split at h
      · assumption
      · cases h
  · cases h
  · cases h
  · cases h
  · cases h
  · split at h <;> cases h
    cases hs
  · cases h
    cases hs

theorem justified_of_leave {o : Expr} (h : r.leave o t = .error e) : e.Justified t := by
  unfold leave at h
  split at h
  · cases h
  · split at h <;> cases h
    exact SyntaxError.justified_expected t t _

theorem justified_of_step (h : r.step t = .error e) : e.Justified t := by
  unfold step at h
  split at h
  · cases htake : r.takeOperand t with
    | ok r' => simp [htake, Except.map] at h
    | error f =>
      simp only [htake, Except.map, Except.error.injEq] at h
      subst h
      exact justified_of_takeOperand htake
  · unfold takeOperator at h
    split at h
    · split at h
      · cases h
      · split at h
        · cases h
        · split at h
          · split at h <;> cases h
            rintro s ⟨⟩
          · exact justified_of_leave h
    · exact justified_of_leave h

end Reading

namespace Parser

variable {s : State} {t : Token} {e : SyntaxError}

namespace State

theorem justified_of_expect {kind : Kind} {phase : Phase} (h : s.expect kind t phase = .error e) :
    e.Justified t := by
  unfold expect at h
  split at h <;> cases h
  exact SyntaxError.justified_expected t t _

theorem justified_of_between (h : s.between t = .error e) : e.Justified t := by
  have hbegin : s.begin .simple t = .error e → e.Justified t :=
    fun h => Reading.justified_of_takeOperand (begin_error h)
  unfold between at h
  split at h
  · cases h
  · cases h
  · cases h
  · cases h
  · cases h
  · cases h
  · split at h
    · split at h
      · cases h
      · split at h
        · exact hbegin h
        · cases h
          exact SyntaxError.justified_expected t t _
    · split at h
      · cases h
      · split at h
        · cases h
          exact SyntaxError.justified_expected t t _
        · split at h
          · exact hbegin h
          · cases h
            exact SyntaxError.justified_expected t t _

theorem justified_of_closeRange {start word : Pos} {var : Name} {args : List Expr}
    (h : s.closeRange start var word args t = .error e) : e.Justified t := by
  unfold closeRange at h
  simp only at h
  split at h
  · exact justified_of_expect h
  · exact justified_of_expect h
  · exact justified_of_expect h
  · cases h
    rintro s ⟨⟩
  · cases h
    rintro s ⟨⟩

theorem justified_of_complete {purpose : Purpose} {x : Expr}
    (h : s.complete purpose x t = .error e) : e.Justified t := by
  unfold complete at h
  split at h
  · split at h
    · split at h
      · cases h
      · cases h
        rintro s ⟨⟩
    · exact justified_of_between h
  · exact justified_of_between h
  · exact justified_of_expect h
  · exact justified_of_expect h
  · split at h
    · cases h
    · exact justified_of_closeRange h

theorem justified_of_step (h : s.step t = .error e) : e.Justified t := by
  obtain ⟨blocks, stmts, phase⟩ := s
  unfold step at h
  split at h
  · cases h
    rintro s ⟨⟩
  cases phase with
  | between => exact justified_of_between h
  | expr purpose r =>
    simp only at h
    split at h
    · rename_i hr
      cases h
      exact Reading.justified_of_step hr
    · cases h
    · exact justified_of_complete h
  | loopName | loopIn | loopRange | rangeOpen | loopColon | elseColon =>
    exact justified_of_expect h
  | firstBound start var word =>
    simp only at h
    split at h
    · cases h
      rintro s ⟨⟩
    · exact Reading.justified_of_takeOperand (begin_error h)
  | brace owner =>
    simp only at h
    split at h <;> cases h
    exact SyntaxError.justified_expected t t _
  | afterBranch start done stop =>
    simp only at h
    split at h
    · cases h
    · split at h
      · cases h
      · exact justified_of_between h

end State

variable {tokens : List Token} {final : Token}

/-- An error about a program is justified by one of the tokens. -/
theorem justified_of_consume (ht : ∀ t ∈ tokens, t.kind ≠ .eof) {pulls : Nat}
    (h : (consume final s pulls tokens).result = .error e) :
    e.Justified final ∨ ∃ t ∈ tokens, e.Justified t := by
  obtain ⟨k, s', -, -, -, herror⟩ := consume_error ht pulls h
  have hjustified := State.justified_of_step herror
  cases hk : tokens[k]? with
  | none =>
    rw [hk] at hjustified
    exact Or.inl hjustified
  | some t =>
    rw [hk] at hjustified
    exact Or.inr ⟨t, List.mem_of_getElem? hk, hjustified⟩

theorem justified_of_parse {source : Text} (h : Program.parse source = .error e) :
    e.Justified (finalToken (Token.tokenize source) (Token.endOf source).pos) ∨
      ∃ t ∈ Token.tokenize source, e.Justified t := by
  have ht : ∀ t ∈ Token.tokenize source, t.kind ≠ .eof :=
    fun t ht => (Token.tokenize_lexed source t ht).kind_ne_eof
  unfold Program.parse parseTokens at h
  cases hresult : (consume (finalToken (Token.tokenize source) (Token.endOf source).pos) .initial 0
      (Token.tokenize source)).result with
  | ok r => simp [hresult, Except.map] at h
  | error f =>
    simp only [hresult, Except.map, Except.error.injEq] at h
    subst h
    exact justified_of_consume ht hresult

theorem justified_of_consumeExpr {r : Reading} (h : consumeExpr final r tokens = .error e) :
    e.Justified final ∨ ∃ t ∈ tokens, e.Justified t := by
  induction tokens generalizing r with
  | nil =>
    unfold consumeExpr at h
    split at h
    · rename_i hr
      cases h
      exact Or.inl (Reading.justified_of_step hr)
    · cases h
    · cases h
      exact Or.inl (SyntaxError.justified_expected _ _ _)
  | cons t rest ih =>
    unfold consumeExpr at h
    split at h
    · cases h
      exact Or.inr ⟨t, List.mem_cons_self, by rintro s ⟨⟩⟩
    · split at h
      · rename_i hr
        cases h
        exact Or.inr ⟨t, List.mem_cons_self, Reading.justified_of_step hr⟩
      · rcases ih h with hfinal | ⟨u, hu, hjustified⟩
        · exact Or.inl hfinal
        · exact Or.inr ⟨u, List.mem_cons_of_mem _ hu, hjustified⟩
      · cases h
        exact Or.inr ⟨t, List.mem_cons_self, SyntaxError.justified_expected _ _ _⟩

end Parser

/-- The lexer yields no number that cannot be read. -/
theorem Token.readFloat_of_mem {source : Text} {t : Token} (ht : t ∈ Token.tokenize source)
    (hk : t.kind = .number) : (Decimal.readFloat t.text).isSome := by
  have hlexed := Token.tokenize_lexed source t ht
  obtain ⟨kind, text, pos⟩ := t
  obtain rfl : kind = .number := hk
  exact Decimal.readFloat_number (Lexer.number_of_lexed hlexed)

/-- So no error about a source is about a bad number. -/
theorem Token.cause_ne_badNumber {source : Text} {final : Token} {e : SyntaxError}
    (hfinal : final.kind = .eof)
    (h : e.Justified final ∨ ∃ t ∈ Token.tokenize source, e.Justified t) (s : Text) :
    e.cause ≠ .badNumber s := by
  intro hcause
  rcases h with h | ⟨t, ht, h⟩
  · have hk := (h s hcause).1
    rw [hfinal] at hk
    cases hk
  · obtain ⟨hk, hnone⟩ := h s hcause
    have hsome := Token.readFloat_of_mem ht hk
    rw [hnone] at hsome
    cases hsome

/-- Numbers mean the same to the parser and to the machine. No number of a source is refused as
malformed, and the literal that a number leaves in the code has the value that the parser gave it:
as it is with a point or an exponent, and as a decimal integer without. Only integers that 64 bits
cannot hold are no literals. -/
theorem literals_mean_what_was_read (source : Text) :
    (∀ t ∈ Token.tokenize source, t.kind = .number → (Decimal.readFloat t.text).isSome) ∧
    (∀ e s, Program.parse source = .error e ∨ Expr.parse source = .error e →
      e.cause ≠ .badNumber s) ∧
    ∀ p span value raw, Program.parse source = .ok p →
      (Tree.program p).Has (.expr (.number span value raw)) →
        (Text.ascii '.' ∈ raw ∨ Text.ascii 'e' ∈ raw ∨ Text.ascii 'E' ∈ raw →
          Value.ofLiteral raw = .ok (.float value)) ∧
        ((∀ b ∈ raw, Text.isDigit b) → (raw.decimal : Int) ≤ Int64.maxValue.toInt →
          ∃ n, Value.ofLiteral raw = .ok (.int n) ∧ n.toInt = raw.decimal) ∧
        ∀ e, Value.ofLiteral raw = .error e ↔ e = .badLiteral raw ∧
          (∀ b ∈ raw, Text.isDigit b) ∧ Int64.maxValue.toInt < raw.decimal := by
  refine ⟨fun t ht hk => Token.readFloat_of_mem ht hk, ?_, ?_⟩
  · rintro e s (h | h)
    · exact Token.cause_ne_badNumber rfl (Parser.justified_of_parse h) s
    · exact Token.cause_ne_badNumber rfl (Parser.justified_of_consumeExpr h) s
  · intro p span value raw hparse hhas
    have hnumeral : IsNumeral raw value := hhas.wellFormed (Program.wellFormed_of_parse hparse)
    rw [← Value.isFloatLiteral_iff]
    rcases Value.ofLiteral_numeral hnumeral with ⟨hfloat, hliteral⟩ | ⟨hfloat, hdigits, hcases⟩
    · have hnot : ¬ ∀ b ∈ raw, Text.isDigit b := by
        intro hdigits
        rw [Value.isFloatLiteral_digits hdigits] at hfloat
        cases hfloat
      refine ⟨fun _ => hliteral, fun hdigits => absurd hdigits hnot, fun e => ?_⟩
      simp [hliteral, hnot]
    · refine ⟨fun h => absurd (hfloat.symm.trans h) (by decide), fun _ hle => ?_, fun e => ?_⟩
      · rcases hcases with ⟨-, hliteral⟩ | ⟨hlarge, -⟩
        · have hmax : Int64.maxValue.toInt = 9223372036854775807 := by decide
          rw [hmax] at hle
          exact ⟨_, hliteral, Int64.toInt_ofInt_of_le (by omega) (by omega)⟩
        · omega
      · rcases hcases with ⟨hle, hliteral⟩ | ⟨hlarge, hliteral⟩
        · have hnot : ¬ Int64.maxValue.toInt < raw.decimal := by omega
          simp [hliteral, hnot]
        · rw [hliteral]
          constructor
          · rintro ⟨⟩
            exact ⟨rfl, hdigits, hlarge⟩
          · rintro ⟨rfl, -⟩
            rfl

/-- Leading zeros, and the least integer that is too large. -/
theorem too_large_integer_is_no_literal : ∃ p value,
    Program.parse "08.5 + 00 + 9223372036854775808" = .ok p ∧
      Value.ofLiteral "08.5" = .ok (.float value) ∧
      (∃ n, Value.ofLiteral "00" = .ok (.int n) ∧ n.toInt = 0) ∧
      Value.ofLiteral "9223372036854775808" = .error (.badLiteral "9223372036854775808") := by
  have ht : Token.tokenize "08.5 + 00 + 9223372036854775808" =
      [⟨.number, "08.5", ⟨1, 1, 0⟩⟩, ⟨.op .plus, "+", ⟨1, 6, 5⟩⟩, ⟨.number, "00", ⟨1, 8, 7⟩⟩,
        ⟨.op .plus, "+", ⟨1, 11, 10⟩⟩, ⟨.number, "9223372036854775808", ⟨1, 13, 12⟩⟩] := by
    decide
  have hp : ∃ place s₀ s₁ s₂ s₃ s₄ s₅ v₁ v₂ v₃ o o',
      Program.parse "08.5 + 00 + 9223372036854775808" = .ok ⟨place, [.eval s₀ (.binary s₁ o
        (.binary s₂ o' (.number s₃ v₁ "08.5") (.number s₄ v₂ "00"))
        (.number s₅ v₃ "9223372036854775808"))]⟩ := by
    rw [Program.parse, ht]
    exact ⟨_, _, _, _, _, _, _, _, _, _, _, _, rfl⟩
  obtain ⟨place, s₀, s₁, s₂, s₃, s₄, s₅, v₁, v₂, v₃, o, o', hparse⟩ := hp
  obtain ⟨-, -, hliterals⟩ := literals_mean_what_was_read "08.5 + 00 + 9223372036854775808"
  -- the two sums, and their operands
  obtain ⟨hfloat, -, -⟩ := hliterals _ _ _ _ hparse
    (.child (.child (.child (.child .root (.head _)) (.head _)) (.head _)) (.head _))
  obtain ⟨-, hint, -⟩ := hliterals _ _ _ _ hparse
    (.child (.child (.child (.child .root (.head _)) (.head _)) (.head _)) (.tail _ (.head _)))
  obtain ⟨-, -, herror⟩ := hliterals _ _ _ _ hparse
    (.child (.child (.child .root (.head _)) (.head _)) (.tail _ (.head _)))
  exact ⟨_, v₁, hparse, hfloat (by decide), hint (by decide +kernel) (by decide +kernel),
    (herror _).2 ⟨rfl, by decide +kernel, by decide +kernel⟩⟩

end ThreeAddress
