import ThreeAddress.Proofs.SourceOrder

/-! Warnings about names. The first event of a name decides what is reported about it: that it is
used before it is assigned if it is read there, and that it is reserved if it is. -/
namespace ThreeAddress

/-- The reserved name, if the warning is about one. -/
def Warning.reserved? (w : Warning) : Option Text :=
  match w.cause with
  | .reserved x => some x
  | _ => none

/-- The warning is about a name. -/
def Warning.isNamed (w : Warning) : Bool := w.unassigned?.isSome || w.reserved?.isSome

namespace Event

/-- The event is about the name `x`. -/
def about (x : Text) (e : Event) : Bool := e.name?.any (·.text == x)

/-- What is reported of a name whose first event is this one, if that is a read. -/
def unassigned : Event → List Warning
  | .read n => [⟨n.span.start, .unassigned n.text⟩]
  | _ => []

/-- What is reported of a reserved name whose first event is this one. -/
def reserved (e : Event) : List Warning :=
  (e.name?.filter (isReserved ·.text)).toList.map fun n => ⟨n.span.start, .reserved n.text⟩

/-- All that is reported of a name whose first event is this one. -/
def warnings (e : Event) : List Warning := e.unassigned ++ e.reserved

/-- The events that are the first of their name, where the names `met` have been met before. -/
def firsts (met : List Text) : List Event → List Event
  | [] => []
  | e :: rest =>
    match e.name? with
    | none => firsts met rest
    | some n => if n.text ∈ met then firsts met rest else e :: firsts (n.text :: met) rest

variable {met : List Text} {x : Text}

theorem about_iff {e : Event} {n : Name} (h : e.name? = some n) : e.about x ↔ x = n.text := by
  rw [about, h, Option.any_some, beq_iff_eq]
  exact eq_comm

theorem exists_of_about {e : Event} (h : e.about x) : ∃ n, e.name? = some n ∧ n.text = x := by
  cases hname : e.name? with
  | none => simp [about, hname] at h
  | some n => exact ⟨n, rfl, ((about_iff hname).1 h).symm⟩

theorem firsts_sublist (es : List Event) : (firsts met es).Sublist es := by
  induction es generalizing met with
  | nil => exact List.Sublist.refl _
  | cons e rest ih =>
    unfold firsts
    split
    · exact ih.cons e
    · split
      · exact ih.cons e
      · exact ih.cons_cons e

theorem firsts_filter (es : List Event) :
    firsts met (es.filter (·.name?.isSome)) = firsts met es := by
  induction es generalizing met with
  | nil => rfl
  | cons e rest ih =>
    cases hname : e.name? with
    | none => simp [firsts, hname, ih]
    | some n => simp [firsts, hname, ih]

/-- A name is met once. -/
theorem filter_firsts (es : List Event) : (firsts met es).filter (about x) =
    if x ∈ met then [] else (es.find? (about x)).toList := by
  induction es generalizing met with
  | nil => simp [firsts]
  | cons e rest ih =>
    unfold firsts
    cases hname : e.name? with
    | none =>
      have hnot : about x e = false := by simp [about, hname]
      simp [ih, hnot]
    | some n =>
      by_cases hx : n.text = x
      · have habout : about x e = true := by simp [about, hname, hx]
        by_cases hmet : x ∈ met
        · simp [hx, hmet, ih]
        · simp [hx, hmet, ih, habout]
      · have hnot : about x e = false := by simp [about, hname, hx]
        by_cases hmet : n.text ∈ met
        · simp [hmet, ih, hnot]
        · simp [hmet, ih, hnot, Ne.symm hx]

theorem reserved_of_some {e : Event} {n : Name} (h : e.name? = some n) :
    e.reserved = if isReserved n.text then [⟨n.span.start, .reserved n.text⟩] else [] := by
  unfold reserved
  rw [h, Option.filter_some]
  split <;> rfl

theorem filter_unassigned (e : Event) :
    e.warnings.filter (·.unassigned? == some x) = if about x e then e.unassigned else [] := by
  cases e with
  | read n =>
    rw [warnings, reserved_of_some rfl]
    by_cases hr : isReserved n.text <;> by_cases hx : n.text = x <;>
      simp [unassigned, Warning.unassigned?, about, name?, hr, hx]
  | declare n =>
    rw [warnings, reserved_of_some rfl]
    by_cases hr : isReserved n.text <;> simp [unassigned, Warning.unassigned?, hr]
  | zeroStep pos => rfl

theorem filter_reserved (e : Event) :
    e.warnings.filter (·.reserved? == some x) = if about x e then e.reserved else [] := by
  have hone : ∀ {n : Name}, e.name? = some n →
      e.reserved.filter (·.reserved? == some x) = if about x e then e.reserved else [] := by
    intro n hn
    rw [reserved_of_some hn]
    by_cases hr : isReserved n.text <;> by_cases hx : n.text = x <;>
      simp [Warning.reserved?, about, hn, hr, hx]
  cases e with
  | read n => exact hone rfl
  | declare n => exact hone rfl
  | zeroStep pos => rfl

end Event

namespace Warning

theorem Known.isFresh_iff (k : Known) (x : Text) :
    k.isFresh x ↔ ¬ k.declared.contains x ∧ x ∉ k.reported := by
  simp [isFresh]

/-- An event meets its name and no other. -/
theorem Known.isFresh_after (k : Known) (e : Event) (x : Text) :
    (k.after e).isFresh x ↔ k.isFresh x ∧ ¬ e.about x := by
  cases e with
  | zeroStep pos => simp [after, Event.about, Event.name?]
  | declare n =>
    rw [isFresh_iff, isFresh_iff, Event.about_iff rfl]
    show ¬ (k.declared.declare n.text n.span.start).contains x ∧ x ∉ k.reported ↔ _
    rw [SymbolTable.contains_declare, not_or]
    exact and_right_comm
  | read n =>
    rw [Event.about_iff rfl, after]
    by_cases hfresh : k.isFresh n.text
    · rw [if_pos hfresh, isFresh_iff, isFresh_iff, List.mem_cons, not_or, and_assoc]
      exact and_congr_right fun _ => and_comm
    · rw [if_neg hfresh, iff_self_and]
      rintro hx rfl
      exact hfresh hx

theorem Known.filter_warnings (k : Known) {e : Event} {n : Name} (h : e.name? = some n) :
    (k.warnings e).filter (·.isNamed) = if k.isFresh n.text then e.warnings else [] := by
  cases e with
  | zeroStep pos => cases h
  | read m =>
    obtain rfl : m = n := Option.some.inj h
    rw [Event.warnings, Event.reserved_of_some rfl]
    by_cases hfresh : k.isFresh m.text <;> by_cases hr : isReserved m.text <;>
      simp [warnings, hfresh, hr, Event.unassigned, isNamed, unassigned?, reserved?]
  | declare m =>
    obtain rfl : m = n := Option.some.inj h
    rw [Event.warnings, Event.reserved_of_some rfl]
    by_cases hfresh : k.isFresh m.text <;> by_cases hr : isReserved m.text <;>
      simp [warnings, hfresh, hr, Event.unassigned, isNamed, unassigned?, reserved?]

/-- Going through events reports of every name what its first event asks for. -/
theorem filter_ofEvents {k : Known} {met : List Text}
    (h : ∀ x, k.isFresh x = true ↔ x ∉ met) (es : List Event) :
    (ofEvents k es).filter (·.isNamed) = (Event.firsts met es).flatMap Event.warnings := by
  induction es generalizing k met with
  | nil => rfl
  | cons e rest ih =>
    rw [ofEvents, List.filter_append, Event.firsts]
    cases hname : e.name? with
    | none =>
      cases e with
      | zeroStep pos => exact ih h
      | read n => cases hname
      | declare n => cases hname
    | some n =>
      rw [k.filter_warnings hname]
      have hafter : ∀ x, (k.after e).isFresh x = true ↔ x ∉ n.text :: met := by
        intro x
        rw [k.isFresh_after, h, Event.about_iff hname, List.mem_cons, not_or, and_comm]
      by_cases hmet : n.text ∈ met
      · have hsame : ∀ x, (k.after e).isFresh x = true ↔ x ∉ met := by
          intro x
          rw [hafter, List.mem_cons, or_iff_right_of_imp]
          rintro rfl
          exact hmet
        simp [h, hmet, ih hsame]
      · simp [h, hmet, ih hafter]

end Warning

namespace Program

variable (p : Program)

/-- The first thing that a program does to a name. -/
def firstEvent? (x : Text) : Option Event := p.nameEvents.find? (Event.about x)

/-- The first event of every name, in order. -/
def firstEvents : List Event := Event.firsts [] p.nameEvents

theorem filter_warnings : p.warnings.filter (·.isNamed) = p.firstEvents.flatMap Event.warnings := by
  have h : ∀ x, Warning.Known.none.isFresh x = true ↔ x ∉ ([] : List Text) := by
    intro x
    simp [Warning.Known.isFresh_iff, Warning.Known.none, SymbolTable.contains, SymbolTable.lookup,
      SymbolTable.empty]
  rw [warnings, Warning.filter_ofEvents h, firstEvents, ← filter_events, Event.firsts_filter]

/-- What is reported of one name is what its first event asks for. -/
theorem filter_warnings_of {x : Text} {select : Warning → Bool} {asked : Event → List Warning}
    (hnamed : ∀ w, select w = true → w.isNamed)
    (hasked : ∀ e : Event, e.warnings.filter select = if e.about x then asked e else []) :
    p.warnings.filter select = (p.firstEvent? x).toList.flatMap asked := by
  have hkeep : p.warnings.filter select = (p.warnings.filter (·.isNamed)).filter select := by
    rw [List.filter_filter]
    refine List.filter_congr fun w _ => ?_
    cases hw : select w with
    | false => rfl
    | true => simp [hnamed w hw]
  have hfirst : p.firstEvents.filter (Event.about x) = (p.firstEvent? x).toList := by
    rw [firstEvents, Event.filter_firsts, if_neg List.not_mem_nil, firstEvent?]
  have hflat : ∀ es : List Event, es.flatMap (fun e => if e.about x then asked e else []) =
      (es.filter (Event.about x)).flatMap asked := by
    intro es
    induction es with
    | nil => rfl
    | cons e es ih => by_cases he : e.about x <;> simp [he, ih]
  rw [hkeep, filter_warnings, List.filter_flatMap]
  simp only [hasked]
  rw [hflat, hfirst]

theorem unassigned_warnings (x : Text) : p.warnings.filter (·.unassigned? == some x) =
    (p.firstEvent? x).toList.flatMap Event.unassigned := by
  refine p.filter_warnings_of (fun w hw => ?_) Event.filter_unassigned
  simp [Warning.isNamed, eq_of_beq hw]

theorem reserved_warnings (x : Text) : p.warnings.filter (·.reserved? == some x) =
    (p.firstEvent? x).toList.flatMap Event.reserved := by
  refine p.filter_warnings_of (fun w hw => ?_) Event.filter_reserved
  simp [Warning.isNamed, eq_of_beq hw]

theorem name_of_firstEvent {x : Text} {e : Event} (h : p.firstEvent? x = some e) :
    ∃ n ∈ p.names, e.name? = some n ∧ n.text = x := by
  obtain ⟨n, hname, hx⟩ := Event.exists_of_about (List.find?_some h)
  exact ⟨n, p.mem_names_iff.2 ⟨e, List.mem_of_find?_eq_some h, hname⟩, hname, hx⟩

theorem exists_firstEvent {n : Name} (h : n ∈ p.names) : ∃ e, p.firstEvent? n.text = some e := by
  obtain ⟨e, he, hname⟩ := p.mem_names_iff.1 h
  refine Option.isSome_iff_exists.1 (List.find?_isSome.2 ⟨e, he, ?_⟩)
  exact (Event.about_iff hname).2 rfl

/-- The warnings about names. A name is reported as used before it is assigned if and only if its
first event is a read, and as reserved if and only if it is and occurs at all; both once, where its
first event is. They come in the order of those events. -/
theorem name_warnings_are_exact (p : Program) :
    (∀ x n, p.firstEvent? x = some (.read n) →
      p.warnings.filter (·.unassigned? == some x) = [⟨n.span.start, .unassigned x⟩]) ∧
    (∀ x, (∀ n, p.firstEvent? x ≠ some (.read n)) →
      p.warnings.filter (·.unassigned? == some x) = []) ∧
    (∀ x, isReserved x → (∃ n ∈ p.names, n.text = x) → ∃ e n, p.firstEvent? x = some e ∧
      e.name? = some n ∧
      p.warnings.filter (·.reserved? == some x) = [⟨n.span.start, .reserved x⟩]) ∧
    (∀ x, ¬ (isReserved x ∧ ∃ n ∈ p.names, n.text = x) →
      p.warnings.filter (·.reserved? == some x) = []) ∧
    p.firstEvents.Sublist p.nameEvents ∧
    p.warnings.filter (·.isNamed) = p.firstEvents.flatMap Event.warnings := by
  refine ⟨?_, ?_, ?_, ?_, Event.firsts_sublist _, p.filter_warnings⟩
  · intro x n hfirst
    obtain ⟨m, -, hm, rfl⟩ := p.name_of_firstEvent hfirst
    obtain rfl : n = m := Option.some.inj hm
    rw [unassigned_warnings, hfirst]
    rfl
  · intro x hfirst
    rw [unassigned_warnings]
    cases he : p.firstEvent? x with
    | none => rfl
    | some e =>
      cases e with
      | read n => exact absurd he (hfirst n)
      | declare n => rfl
      | zeroStep pos => rfl
  · rintro _ hx ⟨n, hn, rfl⟩
    obtain ⟨e, he⟩ := p.exists_firstEvent hn
    obtain ⟨m, -, hname, hm⟩ := p.name_of_firstEvent he
    refine ⟨e, m, he, hname, ?_⟩
    rw [reserved_warnings, he, Option.toList_some, List.flatMap_singleton,
      Event.reserved_of_some hname, hm, if_pos hx]
  · intro x hx
    rw [reserved_warnings]
    cases he : p.firstEvent? x with
    | none => rfl
    | some e =>
      obtain ⟨n, hn, hname, rfl⟩ := p.name_of_firstEvent he
      have hfree : ¬ isReserved n.text := fun hr => hx ⟨hr, n, hn, rfl⟩
      rw [Option.toList_some, List.flatMap_singleton, Event.reserved_of_some hname, if_neg hfree]

/-- A reserved word as the name of a variable that is only read. -/
theorem reserved_name_is_read_first : ∃ p, Program.parse "x = int" = .ok p ∧
    p.warnings.filter (·.unassigned? == some (Text.ofString "int")) =
      [⟨⟨1, 5, 4⟩, .unassigned "int"⟩] ∧
    p.warnings.filter (·.reserved? == some (Text.ofString "int")) =
      [⟨⟨1, 5, 4⟩, .reserved "int"⟩] := by
  have ht : Token.tokenize "x = int" = [⟨.name, "x", ⟨1, 1, 0⟩⟩, ⟨.op .assign, "=", ⟨1, 3, 2⟩⟩,
      ⟨.name, "int", ⟨1, 5, 4⟩⟩] := by decide
  have hp : ∃ p, Program.parse "x = int" = .ok p ∧
      p.firstEvent? "int" = some (.read ⟨⟨⟨1, 5, 4⟩, ⟨1, 8, 7⟩⟩, "int"⟩) ∧
      ∃ n ∈ p.names, n.text = "int" := by
    rw [Program.parse, ht]
    refine ⟨_, rfl, rfl, ?_⟩
    exact ⟨_, List.mem_cons_of_mem _ List.mem_cons_self, rfl⟩
  obtain ⟨p, hparse, hfirst, hname⟩ := hp
  obtain ⟨hread, -, hreserved, -⟩ := name_warnings_are_exact p
  obtain ⟨e, n, he, hn, hwarning⟩ := hreserved "int" (by decide) hname
  rw [hfirst] at he
  cases he
  cases hn
  exact ⟨p, hparse, hread _ _ hfirst, hwarning⟩

end Program

end ThreeAddress
