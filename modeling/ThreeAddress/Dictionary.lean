import ThreeAddress.Text

/-! Finite maps from texts. Keys that start alike share the way to their values, so that a look-up
costs no more than the length of its key. Main statement: an insertion changes the value of its own
key and of no other. -/
namespace ThreeAddress

variable {α : Type}

/-- The entries for the non-empty ends of keys. Those that start with `byte` have their value at
`here` if nothing follows, and are found in `below` otherwise; `beside` has those that start with
another byte. -/
inductive Branching (α : Type) where
  | empty
  | node (byte : UInt8) (here : Option α) (below beside : Branching α)

namespace Branching

/-- The value of the key that starts with `b` and goes on with `s`. -/
def get? : Branching α → UInt8 → Text → Option α
  | .empty, _, _ => none
  | .node byte here below beside, b, s =>
    if byte = b then
      match s with
      | [] => here
      | c :: s => below.get? c s
    else beside.get? b s

/-- The entries with a single key. -/
def single (v : α) : UInt8 → Text → Branching α
  | b, [] => .node b (some v) .empty .empty
  | b, c :: s => .node b none (single v c s) .empty

/-- Gives a key a value. -/
def insert (v : α) : Branching α → UInt8 → Text → Branching α
  | .empty, b, s => single v b s
  | .node byte here below beside, b, s =>
    if byte = b then
      match s with
      | [] => .node byte (some v) below beside
      | c :: s => .node byte here (insert v below c s) beside
    else .node byte here below (insert v beside b s)

theorem get?_single (v : α) (b c : UInt8) (s t : Text) :
    (single v b s).get? c t = if b :: s = c :: t then some v else none := by
  induction s generalizing b c t with
  | nil => cases t <;> simp [single, get?]
  | cons d s ih =>
    cases t with
    | nil => simp [single, get?]
    | cons e t =>
      by_cases h : b = c
      · simp [single, get?, h, ih]
      · simp [single, get?, h]

theorem get?_insert (v : α) (m : Branching α) (b c : UInt8) (s t : Text) :
    (insert v m b s).get? c t = if b :: s = c :: t then some v else m.get? c t := by
  induction m generalizing b c s t with
  | empty => simp [insert, get?, get?_single]
  | node byte here below beside ihBelow ihBeside =>
    by_cases hb : byte = b
    · subst hb
      by_cases hc : byte = c
      · subst hc
        cases s <;> cases t <;> simp [insert, get?, ihBelow]
      · cases s <;> simp [insert, get?, hc]
    · by_cases hc : byte = c
      · subst hc
        have : ¬ b = byte := fun h => hb h.symm
        simp [insert, get?, hb, this]
      · simp [insert, get?, hb, hc, ihBeside]

end Branching

/-- A map from texts: the value of the empty text, and of all others. -/
structure Dictionary (α : Type) where
  ofEmpty : Option α
  others : Branching α

namespace Dictionary

def empty : Dictionary α := ⟨none, .empty⟩

def get? (d : Dictionary α) : Text → Option α
  | [] => d.ofEmpty
  | b :: s => d.others.get? b s

def insert (d : Dictionary α) (key : Text) (v : α) : Dictionary α :=
  match key with
  | [] => ⟨some v, d.others⟩
  | b :: s => ⟨d.ofEmpty, d.others.insert v b s⟩

@[simp] theorem get?_empty (key : Text) : (empty : Dictionary α).get? key = none := by
  cases key <;> rfl

theorem get?_insert (d : Dictionary α) (key other : Text) (v : α) :
    (d.insert key v).get? other = if key = other then some v else d.get? other := by
  cases key <;> cases other <;> simp [insert, get?, Branching.get?_insert]

end Dictionary

end ThreeAddress
