import ThreeAddress.Pattern

/-! What a pattern matches, and the search for it. The matcher tries the ways to match in order of
preference. It leaves out repetitions of nothing, which add no length to those that there are, so
that no more repetitions are tried than there are bytes. -/
namespace ThreeAddress.Pattern

/-- The pattern matches the first `n` bytes of a text that stands at offset `i`. -/
inductive Takes : Pattern → Nat → Text → Nat → Prop
  | empty {i : Nat} {s : Text} : Takes .empty i s 0
  | byte {ranges : List (UInt8 × UInt8)} {i : Nat} {b : UInt8} {s : Text} :
      covers ranges b → Takes (.byte ranges) i (b :: s) 1
  | seq {p q : Pattern} {i n k : Nat} {s : Text} :
      Takes p i s n → Takes q (i + n) (s.drop n) k → Takes (.seq p q) i s (n + k)
  | left {p q : Pattern} {i n : Nat} {s : Text} : Takes p i s n → Takes (.alt p q) i s n
  | right {p q : Pattern} {i n : Nat} {s : Text} : Takes q i s n → Takes (.alt p q) i s n
  | stop {p : Pattern} {i : Nat} {s : Text} : Takes (.star p) i s 0
  | more {p : Pattern} {i n k : Nat} {s : Text} :
      Takes p i s n → Takes (.star p) (i + n) (s.drop n) k → Takes (.star p) i s (n + k)
  | atStart {s : Text} : Takes .atStart 0 s 0
  | atEnd {i : Nat} : Takes .atEnd i [] 0

variable {p q : Pattern} {i n k : Nat} {s : Text}

theorem Takes.le_length (h : p.Takes i s n) : n ≤ s.length := by
  induction h with
  | empty | stop | atStart | atEnd => exact Nat.zero_le _
  | byte => exact Nat.succ_le_succ (Nat.zero_le _)
  | left _ ih | right _ ih => exact ih
  | seq _ _ ih ih' | more _ _ ih ih' =>
    rw [List.length_drop] at ih'
    omega

theorem takes_seq_iff : (seq p q).Takes i s n ↔
    ∃ m k, n = m + k ∧ p.Takes i s m ∧ q.Takes (i + m) (s.drop m) k := by
  constructor
  · rintro (_ | _ | ⟨hp, hq⟩)
    exact ⟨_, _, rfl, hp, hq⟩
  · rintro ⟨m, k, rfl, hp, hq⟩
    exact .seq hp hq

theorem mem_repeated_succ {one : Nat → Text → List Nat} {fuel : Nat} :
    n ∈ repeated one (fuel + 1) i s ↔
      (∃ m ∈ one i s, 0 < m ∧ ∃ k ∈ repeated one fuel (i + m) (s.drop m), n = m + k) ∨ n = 0 := by
  simp only [repeated, List.mem_append, List.mem_flatMap, List.mem_filter, List.mem_map,
    decide_eq_true_eq, List.mem_singleton]
  constructor
  · rintro (⟨m, ⟨hm, hpos⟩, k, hk, rfl⟩ | rfl)
    · exact Or.inl ⟨m, hm, hpos, k, hk, rfl⟩
    · exact Or.inr rfl
  · rintro (⟨m, hm, hpos, k, hk, rfl⟩ | rfl)
    · exact Or.inl ⟨m, ⟨hm, hpos⟩, k, hk, rfl⟩
    · exact Or.inr rfl

/-- Repetition of what is matched is found, and nothing else. -/
theorem mem_repeated_iff (hp : ∀ i s n, n ∈ p.lengths i s ↔ p.Takes i s n) {fuel : Nat}
    (hfuel : s.length ≤ fuel) : n ∈ repeated p.lengths fuel i s ↔ (star p).Takes i s n := by
  constructor
  · clear hfuel
    induction fuel generalizing i s n with
    | zero =>
      intro h
      obtain rfl := List.mem_singleton.1 h
      exact .stop
    | succ fuel ih =>
      intro h
      rcases mem_repeated_succ.1 h with ⟨m, hm, -, k, hk, rfl⟩ | rfl
      · exact .more ((hp i s m).1 hm) (ih hk)
      · exact .stop
  · intro h
    generalize hstar : star p = r at h
    induction h generalizing fuel with
    | empty | byte | seq | left | right | atStart | atEnd => cases hstar
    | stop => cases fuel <;> simp [repeated]
    | @more p' i m k s hone _ _ ih =>
      cases hstar
      -- a match of nothing leaves as much to repeat as before
      rcases Nat.eq_zero_or_pos m with rfl | hpos
      · simpa using ih (by simpa using hfuel) rfl
      · have hle := hone.le_length
        obtain ⟨fuel, rfl⟩ : ∃ rest, fuel = rest + 1 := ⟨fuel - 1, by omega⟩
        refine mem_repeated_succ.2 (Or.inl ⟨m, (hp i s m).2 hone, hpos, k, ih ?_ rfl, rfl⟩)
        rw [List.length_drop]
        omega

/-- The matcher finds the lengths of all matches, and no others. -/
theorem mem_lengths_iff : n ∈ p.lengths i s ↔ p.Takes i s n := by
  induction p generalizing i s n with
  | empty =>
    simp only [lengths, List.mem_singleton]
    exact ⟨fun h => h ▸ .empty, fun h => by cases h; rfl⟩
  | byte ranges =>
    cases s with
    | nil =>
      constructor
      · rintro ⟨⟩
      · rintro ⟨⟩
    | cons b s =>
      by_cases hb : covers ranges b
      · simp only [lengths, hb, if_true, List.mem_singleton]
        exact ⟨fun h => h ▸ .byte hb, fun h => by cases h; rfl⟩
      · simp only [lengths, hb, Bool.false_eq_true, if_false, List.not_mem_nil, false_iff]
        rintro ⟨⟩
        contradiction
  | seq p q ihp ihq =>
    simp only [lengths, List.mem_flatMap, List.mem_map, ihp, ihq, takes_seq_iff]
    constructor
    · rintro ⟨m, hp, k, hq, rfl⟩
      exact ⟨m, k, rfl, hp, hq⟩
    · rintro ⟨m, k, rfl, hp, hq⟩
      exact ⟨m, hp, k, hq, rfl⟩
  | alt p q ihp ihq =>
    simp only [lengths, List.mem_append, ihp, ihq]
    exact ⟨fun h => h.elim .left .right, fun h => by cases h <;> simp_all⟩
  | star p ih => exact mem_repeated_iff (fun _ _ _ => ih) (Nat.le_refl _)
  | atStart =>
    by_cases hi : i = 0
    · simp only [lengths, hi, beq_self_eq_true, if_true, List.mem_singleton]
      exact ⟨fun h => h ▸ .atStart, fun h => by cases h; rfl⟩
    · simp only [lengths, beq_iff_eq, hi, if_false, List.not_mem_nil, false_iff]
      rintro ⟨⟩
      exact hi rfl
  | atEnd =>
    cases s with
    | nil => exact ⟨fun h => List.mem_singleton.1 h ▸ .atEnd, fun h => by cases h; simp [lengths]⟩
    | cons b s => exact ⟨fun h => by simp [lengths] at h, fun h => by cases h⟩

theorem takes_of_length? (h : p.length? i s = some n) : p.Takes i s n :=
  mem_lengths_iff.1 (List.mem_of_mem_head? h)

theorem length?_eq_none_iff : p.length? i s = none ↔ ∀ n, ¬ p.Takes i s n := by
  rw [length?, List.head?_eq_none_iff, List.eq_nil_iff_forall_not_mem]
  simp only [mem_lengths_iff]

/-- The search from offset `i` on stops at the first place where there is a match. -/
theorem findFrom_eq_some {a b : Nat} (h : p.findFrom i s = some (a, b)) :
    ∃ d n, a = i + d ∧ b = a + n ∧ d ≤ s.length ∧ p.length? a (s.drop d) = some n ∧
      ∀ e < d, ∀ n, ¬ p.Takes (i + e) (s.drop e) n := by
  induction s generalizing i with
  | nil =>
    obtain ⟨n, hn, heq⟩ := Option.map_eq_some_iff.1 h
    cases heq
    exact ⟨0, n, rfl, rfl, Nat.zero_le _, hn, by simp⟩
  | cons c s ih =>
    unfold findFrom at h
    split at h
    · rename_i n hn
      cases h
      exact ⟨0, n, rfl, rfl, Nat.zero_le _, hn, by simp⟩
    · rename_i hnone
      obtain ⟨d, n, ha, hb, hd, hn, hbefore⟩ := ih h
      refine ⟨d + 1, n, by omega, hb, Nat.succ_le_succ hd, hn, fun e he => ?_⟩
      cases e with
      | zero => exact length?_eq_none_iff.1 hnone
      | succ e =>
        rw [show i + (e + 1) = i + 1 + e by omega]
        exact hbefore e (by omega)

theorem findFrom_eq_none_iff :
    p.findFrom i s = none ↔ ∀ d ≤ s.length, ∀ n, ¬ p.Takes (i + d) (s.drop d) n := by
  induction s generalizing i with
  | nil =>
    simp only [findFrom, Option.map_eq_none_iff, length?_eq_none_iff]
    exact ⟨fun h d hd => by obtain rfl := Nat.le_zero.1 hd; exact h, fun h => h 0 (Nat.le_refl 0)⟩
  | cons c s ih =>
    unfold findFrom
    constructor
    · intro h
      split at h
      · cases h
      · rename_i hnone
        intro d hd
        cases d with
        | zero => exact length?_eq_none_iff.1 hnone
        | succ d =>
          rw [show i + (d + 1) = i + 1 + d by omega]
          exact ih.1 h d (Nat.le_of_succ_le_succ hd)
    · intro h
      have hnone : p.length? i (c :: s) = none := length?_eq_none_iff.2 (h 0 (Nat.zero_le _))
      rw [hnone]
      refine ih.2 fun d hd => ?_
      rw [show i + 1 + d = i + (d + 1) by omega]
      exact h (d + 1) (Nat.succ_le_succ hd)

/-- What is found is the best match at the leftmost place where there is one. -/
theorem find?_leftmost {a b : Nat} (h : p.find? s = some (a, b)) :
    (∃ n, b = a + n ∧ a ≤ s.length ∧ p.length? a (s.drop a) = some n ∧ p.Takes a (s.drop a) n) ∧
      ∀ j < a, ∀ n, ¬ p.Takes j (s.drop j) n := by
  obtain ⟨d, n, rfl, hb, hd, hn, hbefore⟩ := findFrom_eq_some h
  simp only [Nat.zero_add] at *
  exact ⟨⟨n, hb, hd, hn, takes_of_length? hn⟩, hbefore⟩

/-- A match is found if there is one anywhere. -/
theorem isMatch_iff : p.isMatch s ↔ ∃ i ≤ s.length, ∃ n, p.Takes i (s.drop i) n := by
  unfold isMatch
  constructor
  · intro h
    obtain ⟨⟨a, b⟩, hfind⟩ := Option.isSome_iff_exists.1 h
    obtain ⟨⟨n, -, ha, -, htakes⟩, -⟩ := find?_leftmost hfind
    exact ⟨a, ha, n, htakes⟩
  · rintro ⟨i, hi, n, htakes⟩
    cases hfind : p.find? s with
    | some => rfl
    | none =>
      have hnone := findFrom_eq_none_iff.1 hfind i hi n
      rw [Nat.zero_add] at hnone
      exact absurd htakes hnone

theorem replaceFrom_of_findFrom {replacement : Text} (h : p.findFrom i s = none) :
    replaceFrom p replacement 0 i s = s := by
  induction s generalizing i with
  | nil =>
    have hnone : p.length? i [] = none := Option.map_eq_none_iff.1 h
    simp [replaceFrom, hnone]
  | cons b s ih =>
    unfold findFrom at h
    split at h
    · cases h
    · rename_i hnone
      simp [replaceFrom, hnone, ih h]

/-- A text without a match is left as it is. -/
theorem replaceAll_of_not_isMatch (h : p.isMatch s = false) (replacement : Text) :
    p.replaceAll replacement s = s :=
  replaceFrom_of_findFrom (Option.isSome_eq_false_iff.1 h |> Option.isNone_iff_eq_none.1)

end ThreeAddress.Pattern
