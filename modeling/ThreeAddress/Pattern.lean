import ThreeAddress.Text

/-! Regular patterns over bytes. Of the matches that start at one place the first alternative wins,
and repetition takes as much as it can. -/
namespace ThreeAddress

inductive Pattern where
  /-- Matches between any two bytes. -/
  | empty
  /-- One byte out of some closed ranges. -/
  | byte (ranges : List (UInt8 × UInt8))
  | seq (p q : Pattern)
  | alt (p q : Pattern)
  /-- Any number of times, preferring more. -/
  | star (p : Pattern)
  /-- The start of the text. -/
  | atStart
  /-- The end of the text. -/
  | atEnd
deriving DecidableEq, Repr

namespace Pattern

/-- Once, or not at all. -/
def optional (p : Pattern) : Pattern := .alt p .empty

/-- At least once. -/
def plus (p : Pattern) : Pattern := .seq p (.star p)

/-- The byte lies in one of the ranges. -/
def covers (ranges : List (UInt8 × UInt8)) (b : UInt8) : Bool :=
  ranges.any fun (lo, hi) => lo ≤ b && b ≤ hi

/-- The lengths of any number of matches in a row, at most `fuel` of them, the best first. -/
def repeated (one : Nat → Text → List Nat) : Nat → Nat → Text → List Nat
  | 0, _, _ => [0]
  | fuel + 1, at_, s =>
    ((one at_ s).filter (0 < ·)).flatMap (fun n =>
      (repeated one fuel (at_ + n) (s.drop n)).map (n + ·)) ++ [0]

/-- The lengths of the matches at the start of `s`, which stands at offset `at_`, the best first. -/
def lengths : Pattern → Nat → Text → List Nat
  | .empty, _, _ => [0]
  | .byte ranges, _, s =>
    match s with
    | [] => []
    | b :: _ => if covers ranges b then [1] else []
  | .seq p q, at_, s =>
    (p.lengths at_ s).flatMap fun n => (q.lengths (at_ + n) (s.drop n)).map (n + ·)
  | .alt p q, at_, s => p.lengths at_ s ++ q.lengths at_ s
  | .star p, at_, s => repeated p.lengths s.length at_ s
  | .atStart, at_, _ => if at_ == 0 then [0] else []
  | .atEnd, _, s => if s.isEmpty then [0] else []

/-- The best match at the start of `s`. -/
def length? (p : Pattern) (at_ : Nat) (s : Text) : Option Nat := (p.lengths at_ s).head?

/-- The first match in `s`, which stands at offset `at_`. -/
def findFrom (p : Pattern) (at_ : Nat) : Text → Option (Nat × Nat)
  | [] => (p.length? at_ []).map fun n => (at_, at_ + n)
  | b :: s =>
    match p.length? at_ (b :: s) with
    | some n => some (at_, at_ + n)
    | none => findFrom p (at_ + 1) s

/-- The offsets where the leftmost match starts and ends. -/
def find? (p : Pattern) (s : Text) : Option (Nat × Nat) := findFrom p 0 s

def isMatch (p : Pattern) (s : Text) : Bool := (p.find? s).isSome

/-- Replaces the matches from offset `at_` on, after the `skip` bytes of the last one. -/
def replaceFrom (p : Pattern) (replacement : Text) : Nat → Nat → Text → Text
  | _, at_, [] => if p.length? at_ [] == some 0 then replacement else []
  | skip + 1, at_, _ :: s => replaceFrom p replacement skip (at_ + 1) s
  | 0, at_, b :: s =>
    match p.length? at_ (b :: s) with
    | some (n + 1) => replacement ++ replaceFrom p replacement n (at_ + 1) s
    | some 0 => replacement ++ b :: replaceFrom p replacement 0 (at_ + 1) s
    | none => b :: replaceFrom p replacement 0 (at_ + 1) s

/-- Replaces every match, from left to right. -/
def replaceAll (p : Pattern) (replacement : Text) (s : Text) : Text :=
  replaceFrom p replacement 0 0 s

end Pattern

end ThreeAddress
