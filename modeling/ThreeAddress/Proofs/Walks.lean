import ThreeAddress.Proofs.DefiniteAssignment

/-! Walks: runs of a machine within a stretch of its code, with every move that is made. They show
how often a part of the code is entered, and what it leaves as it was. -/
namespace ThreeAddress

open Instr

namespace Located

variable {full code : List Instr} {ip n : Nat} {i : Instr}

theorem getElem?_eq (h : Located full ip code) (hn : n < code.length) :
    full[ip + n]? = code[n]? := by
  obtain ⟨rest, h⟩ := h
  rw [← List.getElem?_drop, ← h, List.getElem?_append_left hn]

/-- An instruction with a number of the piece is one of the piece. -/
theorem mem_of_getElem? (h : Located full ip code) (hlo : ip ≤ n) (hhi : n < ip + code.length)
    (hi : full[n]? = some i) : i ∈ code := by
  have heq := h.getElem?_eq (n := n - ip) (by omega)
  rw [Nat.add_sub_cancel' hlo, hi] at heq
  exact List.mem_of_getElem? heq.symm

/-- A piece stands where it does if the code is cut off behind it. -/
theorem take (h : Located full ip code) (hle : ip + code.length ≤ n) :
    Located (full.take n) ip code := by
  unfold Located
  rw [List.drop_take]
  exact List.prefix_take_iff.2 ⟨h, by omega⟩

end Located

/-- An instruction changes no name but the one it writes. -/
theorem Step.exec_get? {k : NumKind} {place : Text → Nat} {a : Action} {s s' : Store}
    {result : Except Fault Flow} {x : Text} (h : (ofAction place a).exec k s = (s', result))
    (hx : a.writes? ≠ some x) : s'.get? x = s.get? x := by
  cases a with
  | declare type name =>
    cases h
    exact (Store.get?_declare s name x).trans (if_neg fun heq => hx (congrArg some heq))
  | compute type dest rhs =>
    have hne : dest ≠ x := fun heq => hx (congrArg some heq)
    simp only [ofAction, exec] at h
    split at h <;> cases h
    · exact (Store.get?_set _ _ _ _).trans (if_neg hne)
    · rfl
  | store type dest op y =>
    have hne : dest ≠ x := fun heq => hx (congrArg some heq)
    have hdeclare : (if type.isSome then s.declare dest else s).get? x = s.get? x := by
      split
      · exact (Store.get?_declare s dest x).trans (if_neg hne)
      · rfl
    simp only [ofAction, exec] at h
    split at h <;> cases h
    · rw [Store.get?_set, if_neg hne, hdeclare]
    · exact hdeclare
  | jumpUnless | jumpIf =>
    simp only [ofAction, exec] at h
    split at h <;> cases h <;> rfl
  | jump | label | unknown =>
    cases h
    rfl

namespace Machine

variable (m : Machine) (lo hi : Nat)

/-- The machine goes from one place to another and executes only instructions with numbers from `lo`
to before `hi`. The moves that it makes are listed, each with the places before and after it. -/
inductive Walks : Config → List (Config × Config) → Config → Prop
  | refl (c : Config) : Walks c [] c
  | head {c c₁ c' : Config} {trail : List (Config × Config)} :
      lo ≤ c.ip → c.ip < hi → m.Moves c c₁ → Walks c₁ trail c' → Walks c ((c, c₁) :: trail) c'

/-- Whether a move leads into the stretch from `first` to before `last` from outside of it. A
stretch without instructions is come into, and left again, at `first`. -/
def comesIn (first last : Nat) (move : Config × Config) : Bool :=
  (move.1.ip < first || last ≤ move.1.ip) &&
    (move.2.ip == first || (first < move.2.ip && move.2.ip < last))

/-- The places where a walk comes into a stretch from outside. -/
def entries (first last : Nat) (trail : List (Config × Config)) : List Config :=
  (trail.filter (comesIn first last)).map (·.2)

variable {m lo hi} {c c₁ c' c'' : Config} {trail trail' : List (Config × Config)}
  {first last n : Nat}

theorem entries_append (first last : Nat) (trail trail' : List (Config × Config)) :
    entries first last (trail ++ trail') =
      entries first last trail ++ entries first last trail' := by
  simp [entries]

namespace Walks

theorem single (hlo : lo ≤ c.ip) (hhi : c.ip < hi) (h : m.Moves c c') :
    m.Walks lo hi c [(c, c')] c' :=
  .head hlo hhi h (.refl c')

theorem trans (h : m.Walks lo hi c trail c') (h' : m.Walks lo hi c' trail' c'') :
    m.Walks lo hi c (trail ++ trail') c'' := by
  induction h with
  | refl => exact h'
  | head hlo hhi hmoves _ ih => exact .head hlo hhi hmoves (ih h')

/-- A walk stays within a longer stretch too. -/
theorem mono {lo' hi' : Nat} (h : m.Walks lo hi c trail c') (hlo : lo' ≤ lo) (hhi : hi ≤ hi') :
    m.Walks lo' hi' c trail c' := by
  induction h with
  | refl => exact .refl _
  | head hlo' hhi' hmoves _ ih => exact .head (by omega) (by omega) hmoves ih

/-- A walk does not come into a stretch that it is in already. -/
theorem entries_inside (h : m.Walks first last c trail c') : entries first last trail = [] := by
  induction h with
  | refl => rfl
  | @head c c₁ c' trail hlo hhi _ _ ih =>
    have hnot : comesIn first last (c, c₁) = false := by
      simp only [comesIn, Bool.and_eq_false_iff, Bool.or_eq_false_iff, decide_eq_false_iff_not]
      omega
    rw [entries, List.filter_cons_of_neg (by simp [hnot])]
    exact ih

/-- A walk comes only to places of its own stretch, and to its end. -/
theorem entries_before (h : m.Walks lo hi c trail c') (hhi : hi ≤ first) (hend : c'.ip < first) :
    entries first last trail = [] := by
  induction h with
  | refl => rfl
  | @head c c₁ c' trail _ _ _ hrest ih =>
    have hlt : c₁.ip < first := by
      cases hrest with
      | refl => exact hend
      | head _ hhi' => omega
    have hnot : comesIn first last (c, c₁) = false := by
      simp only [comesIn, Bool.and_eq_false_iff, Bool.or_eq_false_iff, beq_eq_false_iff_ne,
        decide_eq_false_iff_not]
      omega
    rw [entries, List.filter_cons_of_neg (by simp [hnot])]
    exact ih hend

/-- What holds at the start of a walk and is kept by its moves holds at its end. -/
theorem keeps {P : Config → Prop} (h : m.Walks lo hi c trail c')
    (hmoves : ∀ c c', lo ≤ c.ip → c.ip < hi → m.Moves c c' → P c → P c') (hc : P c) : P c' := by
  induction h with
  | refl => exact hc
  | head hlo hhi hmove _ ih => exact ih (hmoves _ _ hlo hhi hmove hc)

/-- A name that no instruction of the stretch writes is left as it was. -/
theorem get?_eq {full code : List Instr} {place : Text → Nat} {x : Text}
    (hx : m.Executes full place) (hat : Located full lo code)
    (hwrites : ∀ i ∈ code, i.action.writes? ≠ some x)
    (h : m.Walks lo (lo + code.length) c trail c') : c'.store.get? x = c.store.get? x := by
  refine h.keeps (P := fun d => d.store.get? x = c.store.get? x) ?_ rfl
  intro d d' hlo hhi hmove hd
  obtain ⟨step, pos, flow, hcode, hexec, -⟩ := hmove
  obtain ⟨i, hi, rfl⟩ := hx.fetched hcode
  exact (Step.exec_get? hexec (hwrites i (hat.mem_of_getElem? hlo hhi hi))).trans hd

/-- A run goes the way of a walk, unless it comes to its limit before. -/
theorem runFor_eq (h : m.Walks lo hi c trail c') (fuel steps : Nat)
    (hlimit : ∀ limit ∈ m.limit, steps + trail.length ≤ limit) :
    m.runFor .background (trail.length + fuel) c.ip ⟨c.store, steps⟩ =
      m.runFor .background fuel c'.ip ⟨c'.store, steps + trail.length⟩ := by
  induction h generalizing steps with
  | refl => simp
  | @head c c₁ c' trail _ _ hmoves _ ih =>
    obtain ⟨step, pos, flow, hcode, hexec, hip⟩ := hmoves
    have hgoes : m.atLimit ⟨c.store, steps⟩ = false := by
      unfold atLimit
      cases hl : m.limit with
      | none => rfl
      | some limit =>
        have := hlimit limit hl
        simp only [List.length_cons] at this
        simp only [decide_eq_false_iff_not]
        omega
    have hrest := ih (steps + 1) (by
      intro limit hl
      have := hlimit limit hl
      simp only [List.length_cons] at this
      omega)
    have hfuel : ((c, c₁) :: trail).length + fuel = trail.length + fuel + 1 := by
      simp only [List.length_cons]
      omega
    rw [hfuel, runFor]
    simp only [hcode, hgoes, hexec, Context.canceled_background, Bool.false_and,
      Bool.false_eq_true, if_false]
    rw [← hip, hrest, List.length_cons, Nat.add_assoc, Nat.add_comm 1]

end Walks

/-- The machine walks from one place to another. It comes into the stretch from `first` to before
`last` at its start only, with the given stores, one after the other. -/
def Visits (m : Machine) (lo hi first last : Nat) (c : Config) (stores : List Store)
    (c' : Config) : Prop :=
  ∃ trail, m.Walks lo hi c trail c' ∧ entries first last trail = stores.map (Config.mk first)

namespace Visits

variable {stores stores' : List Store} {ip ip' : Nat} {s s' : Store}

theorem trans (h : m.Visits lo hi first last c stores c')
    (h' : m.Visits lo hi first last c' stores' c'') :
    m.Visits lo hi first last c (stores ++ stores') c'' := by
  obtain ⟨trail, hwalk, hentries⟩ := h
  obtain ⟨trail', hwalk', hentries'⟩ := h'
  refine ⟨trail ++ trail', hwalk.trans hwalk', ?_⟩
  rw [entries_append, hentries, hentries', List.map_append]

/-- A step that does not lead into the stretch. -/
theorem of_step (hstep : m.Steps 1 ⟨ip, s⟩ ⟨ip', s'⟩) (hlo : lo ≤ ip) (hhi : ip < hi)
    (hout : ip' < first ∨ (first < ip' ∧ last ≤ ip')) :
    m.Visits lo hi first last ⟨ip, s⟩ [] ⟨ip', s'⟩ := by
  have hnot : comesIn first last (⟨ip, s⟩, ⟨ip', s'⟩) = false := by
    simp only [comesIn, Bool.and_eq_false_iff, Bool.or_eq_false_iff, beq_eq_false_iff_ne,
      decide_eq_false_iff_not]
    omega
  cases hstep with
  | head hmoves hrest =>
    cases hrest
    exact ⟨_, .single hlo hhi hmoves, by simp [entries, hnot]⟩

/-- A step into the stretch. -/
theorem of_step_in (hstep : m.Steps 1 ⟨ip, s⟩ ⟨first, s'⟩) (hlo : lo ≤ ip) (hhi : ip < hi)
    (hout : ip < first ∨ last ≤ ip) :
    m.Visits lo hi first last ⟨ip, s⟩ [s'] ⟨first, s'⟩ := by
  cases hstep with
  | head hmoves hrest =>
    cases hrest
    exact ⟨_, .single hlo hhi hmoves, by simp [entries, comesIn, hout]⟩

end Visits

section

variable {full code : List Instr} {place : Text → Nat}

/-- Control stays in a piece of code, or comes to its end, if its jumps go to labels of its own or
to the end. -/
theorem Moves.within (hx : m.Executes full place) (hat : Located full lo code)
    (htargets : ∀ t ∈ targetsOf code, t ∈ labelsOf code ∨ place t = lo + code.length)
    (hlo : lo ≤ c.ip) (hhi : c.ip < lo + code.length) (h : m.Moves c c') :
    lo ≤ c'.ip ∧ c'.ip ≤ lo + code.length := by
  obtain ⟨step, pos, flow, hcode, hexec, hip⟩ := h
  obtain ⟨i, hi, rfl⟩ := hx.fetched hcode
  have hmem := hat.mem_of_getElem? hlo hhi hi
  rcases Step.exec_flow hexec with rfl | ⟨l, htarget, rfl⟩
  · rw [hip, follow]
    omega
  · rw [hip, follow]
    rcases htargets l (List.mem_filterMap.2 ⟨i, hmem, htarget⟩) with hlabel | hend
    · obtain ⟨b, hb, hname⟩ := List.mem_filterMap.1 hlabel
      obtain ⟨q, hq⟩ := List.mem_iff_getElem?.1 hb
      obtain ⟨hlt, -⟩ := List.getElem?_eq_some_iff.1 hq
      have hplace := hx.label (lo + q) b l ((hat.getElem?_eq hlt).trans hq) hname
      omega
    · omega

/-- A run through such a piece of code that comes to its end walks there. -/
theorem Steps.walks (hx : m.Executes full place) (hat : Located full lo code)
    (htargets : ∀ t ∈ targetsOf code, t ∈ labelsOf code ∨ place t = lo + code.length)
    (h : m.Steps n c c') (hlo : lo ≤ c.ip) (hhi : c.ip ≤ lo + code.length)
    (hend : c'.ip = lo + code.length) :
    ∃ trail s, m.Walks lo (lo + code.length) c trail ⟨lo + code.length, s⟩ := by
  induction h with
  | refl c =>
    obtain ⟨ip, s⟩ := c
    obtain rfl : ip = lo + code.length := hend
    exact ⟨[], s, .refl _⟩
  | @head n c c₁ c' hmoves _ ih =>
    by_cases hlast : c.ip = lo + code.length
    · obtain ⟨ip, s⟩ := c
      obtain rfl : ip = lo + code.length := hlast
      exact ⟨[], s, .refl _⟩
    · have hlt : c.ip < lo + code.length := by omega
      obtain ⟨hlo₁, hhi₁⟩ := hmoves.within hx hat htargets hlo hlt
      obtain ⟨trail, s, hwalk⟩ := ih hlo₁ hhi₁ hend
      exact ⟨_, s, .head hlo hlt hmoves hwalk⟩

/-- The machine with its code cut off in front of number `n`. -/
def upTo (m : Machine) (n : Nat) : Machine := { m with code := m.code.take n }

theorem getElem?_upTo (m : Machine) (n ip : Nat) :
    (m.upTo n).code[ip]? = if ip < n then m.code[ip]? else none := by
  show (m.code.extract 0 n)[ip]? = _
  rw [Array.getElem?_extract, Nat.zero_add]
  by_cases hsize : ip < m.code.size
  · have hiff : ip < min n m.code.size - 0 ↔ ip < n := by omega
    simp only [hiff]
  · rw [Array.getElem?_eq_none (by omega)]
    simp

theorem Executes.upTo (h : m.Executes full place) (n : Nat) :
    (m.upTo n).Executes (full.take n) place := by
  constructor
  · intro ip
    rw [getElem?_upTo, List.getElem?_take]
    split
    · exact h.fetch ip
    · rfl
  · intro ip i name hip hname
    rw [List.getElem?_take] at hip
    split at hip
    · exact h.label ip i name hip hname
    · cases hip

/-- Code without jumps is walked through from its start to its end. A run of the cut-off machine
cannot go on behind the end, and come back to it with another store. -/
theorem Steps.walks_straight (hx : m.Executes full place) (hat : Located full lo code)
    (hstraight : targetsOf code = []) (h : (m.upTo (lo + code.length)).Steps n c c')
    (hlo : lo ≤ c.ip) : ∃ trail, m.Walks lo (lo + code.length) c trail c' := by
  induction h with
  | refl => exact ⟨[], .refl _⟩
  | @head n c c₁ c' hmoves _ ih =>
    obtain ⟨step, pos, flow, hcode, hexec, hip⟩ := hmoves
    rw [getElem?_upTo] at hcode
    split at hcode
    · rename_i hlt
      have hmoves : m.Moves c c₁ := ⟨step, pos, flow, hcode, hexec, hip⟩
      obtain ⟨hlo₁, -⟩ := hmoves.within hx hat (by simp [hstraight]) hlo hlt
      obtain ⟨trail, hwalk⟩ := ih hlo₁
      exact ⟨_, .head hlo hlt hmoves hwalk⟩
    · cases hcode

end

end Machine

end ThreeAddress
