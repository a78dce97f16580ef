import ThreeAddress.Pattern

/-! The usual notation of patterns: bytes and classes in brackets, groups in parentheses, `|`
between alternatives, `*`, `+` and `?` after what they repeat, and `^` and `$` for the ends of the
text. -/
namespace ThreeAddress.Pattern

open Text

/-- The byte that a backslash and a letter stand for; any other byte stands for itself. -/
private def escaped (b : UInt8) : UInt8 :=
  if b == ascii 't' then 9
  else if b == ascii 'n' then 10
  else if b == ascii 'r' then 13
  else b

/-- A byte of a class, which may be escaped. -/
private def classByte : Text → Option (UInt8 × Text)
  | [] => none
  | b :: s =>
    if b == ascii '\\' then
      match s with
      | [] => none
      | c :: rest => some (escaped c, rest)
    else some (b, s)

/-- The ranges of a class up to its closing bracket, and the rest of the text. -/
private def classRanges : Nat → List (UInt8 × UInt8) → Text → Option (List (UInt8 × UInt8) × Text)
  | 0, _, _ => none
  | fuel + 1, ranges, s =>
    match s with
    | [] => none
    | b :: rest =>
      if b == ascii ']' && !ranges.isEmpty then some (ranges.reverse, rest)
      else match classByte s with
        | none => none
        | some (lo, dash :: s') =>
          if dash == ascii '-' && s'.head? != some (ascii ']') then
            match classByte s' with
            | none => none
            | some (hi, rest) => classRanges fuel ((lo, hi) :: ranges) rest
          else classRanges fuel ((lo, lo) :: ranges) (dash :: s')
        | some (lo, []) => classRanges fuel ((lo, lo) :: ranges) []

/-- A pattern under the repetition marks that follow it. -/
private def repetitions (p : Pattern) : Text → Pattern × Text
  | [] => (p, [])
  | b :: s =>
    if b == ascii '*' then repetitions (.star p) s
    else if b == ascii '+' then repetitions p.plus s
    else if b == ascii '?' then repetitions p.optional s
    else (p, b :: s)

mutual

/-- Alternatives up to a closing parenthesis or the end. -/
private def readAlternatives : Nat → Text → Option (Pattern × Text)
  | 0, _ => none
  | fuel + 1, s =>
    match readSequence fuel s with
    | none => none
    | some (p, []) => some (p, [])
    | some (p, b :: rest) =>
      if b == ascii '|' then (readAlternatives fuel rest).map fun (q, rest) => (.alt p q, rest)
      else some (p, b :: rest)

/-- Items one after another. -/
private def readSequence : Nat → Text → Option (Pattern × Text)
  | 0, _ => none
  | fuel + 1, s =>
    match s with
    | [] => some (.empty, [])
    | b :: _ =>
      if b == ascii '|' || b == ascii ')' then some (.empty, s)
      else match readItem fuel s with
        | none => none
        | some (p, rest) =>
          let (p, rest) := repetitions p rest
          (readSequence fuel rest).map fun (q, rest) => (.seq p q, rest)

/-- A byte, a class, an end of the text or a group. -/
private def readItem : Nat → Text → Option (Pattern × Text)
  | 0, _ => none
  | fuel + 1, s =>
    match s with
    | [] => none
    | b :: rest =>
      if b == ascii '^' then some (.atStart, rest)
      else if b == ascii '$' then some (.atEnd, rest)
      else if b == ascii '[' then
        (classRanges s.length [] rest).map fun (ranges, rest) => (.byte ranges, rest)
      else if b == ascii '(' then
        match readAlternatives fuel ((stripFront "?:" rest).getD rest) with
        | some (p, close :: rest) => if close == ascii ')' then some (p, rest) else none
        | _ => none
      else (classByte s).map fun (c, rest) => (.byte [(c, c)], rest)

end

/-- Reads the notation of a pattern. -/
def read? (s : Text) : Option Pattern :=
  match readAlternatives (3 * s.length + 3) s with
  | some (p, []) => some p
  | _ => none

end ThreeAddress.Pattern
