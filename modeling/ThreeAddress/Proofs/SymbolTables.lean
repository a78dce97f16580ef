import ThreeAddress.Symbol

/-! The table of symbols through any sequence of requests. What it holds is told by the declarations
since the last reset alone: each of their names once, in the order in which they first came, with
the place where it came first. -/
namespace ThreeAddress.SymbolTable

variable {t : SymbolTable} {x : Text}

theorem contains_iff (t : SymbolTable) (x : Text) :
    t.contains x ↔ ∃ s ∈ t.symbols, s.name = x := by
  simp [contains, lookup, t.agree, List.find?_isSome]

theorem contains_iff_mem_names : t.contains x ↔ x ∈ t.names := by
  rw [contains_iff, names, List.mem_map]

theorem names_declare_of_new {name : Text} (h : ¬ t.contains name) (pos : Pos) :
    (t.declare name pos).names = t.names ++ [name] := by
  rw [names, symbols_declare h, List.map_append]
  rfl

theorem contains_declare (t : SymbolTable) (name x : Text) (pos : Pos) :
    (t.declare name pos).contains x ↔ t.contains x ∨ x = name := by
  by_cases h : t.contains name
  · rw [declare_of_contains h]
    refine ⟨Or.inl, ?_⟩
    rintro (hx | rfl)
    · exact hx
    · exact h
  · rw [contains_iff_mem_names, names_declare_of_new h, contains_iff_mem_names, List.mem_append,
      List.mem_singleton]

/-- What a table holds after the declarations `ds`, each with its place. -/
structure Represents (t : SymbolTable) (ds : List (Text × Pos)) : Prop where
  names : t.names = (ds.map Prod.fst).eraseDups
  nodup : t.names.Nodup
  entry : ∀ (i : Nat) (s : Symbol), t.symbols[i]? = some s →
    s.index = i ∧ s.type = .number ∧ ds.find? (·.1 == s.name) = some (s.name, s.pos)

namespace Represents

variable {ds : List (Text × Pos)} {name : Text}

theorem empty : Represents .empty [] :=
  ⟨rfl, List.nodup_nil, by simp [SymbolTable.empty]⟩

theorem contains_iff (h : Represents t ds) : t.contains name ↔ name ∈ ds.map Prod.fst := by
  rw [contains_iff_mem_names, h.names, List.mem_eraseDups]

/-- A name that is there keeps the place where it came first. -/
theorem entry_append (h : Represents t ds) (ds' : List (Text × Pos)) {i : Nat} {s : Symbol}
    (hs : t.symbols[i]? = some s) : s.index = i ∧ s.type = .number ∧
      (ds ++ ds').find? (·.1 == s.name) = some (s.name, s.pos) := by
  obtain ⟨hindex, htype, hfirst⟩ := h.entry i s hs
  exact ⟨hindex, htype, by rw [List.find?_append, hfirst, Option.some_or]⟩

/-- The one step: another declaration adds its name if it is new, and otherwise nothing. -/
theorem declare (h : Represents t ds) (name : Text) (pos : Pos) :
    Represents (t.declare name pos) (ds ++ [(name, pos)]) := by
  have hnames : ((ds ++ [(name, pos)]).map Prod.fst).eraseDups =
      t.names ++ ([name].removeAll (ds.map Prod.fst)).eraseDups := by
    rw [List.map_append, List.eraseDups_append, h.names]
    rfl
  by_cases hold : t.contains name
  · have hmem := h.contains_iff.1 hold
    rw [declare_of_contains hold]
    refine ⟨?_, h.nodup, fun i s hs => h.entry_append _ hs⟩
    rw [hnames]
    simp [List.removeAll, hmem]
  · have hmem : name ∉ ds.map Prod.fst := fun hmem => hold (h.contains_iff.2 hmem)
    refine ⟨?_, ?_, ?_⟩
    · rw [hnames, names_declare_of_new hold]
      simp [List.removeAll, hmem, List.eraseDups_cons]
    · rw [names_declare_of_new hold, List.nodup_append]
      refine ⟨h.nodup, by simp, ?_⟩
      rintro a ha b hb rfl
      obtain rfl := List.mem_singleton.1 hb
      exact hold (contains_iff_mem_names.2 ha)
    · intro i s hs
      rw [symbols_declare hold, List.getElem?_append] at hs
      split at hs
      · exact h.entry_append _ hs
      · rename_i hle
        obtain ⟨hi, rfl⟩ : i - t.symbols.length = 0 ∧ _ = s := by
          simpa [List.getElem?_singleton] using hs
        have hnone : ds.find? (·.1 == name) = none := by
          rw [List.find?_eq_none]
          intro d hd hname
          exact hmem (List.mem_map.2 ⟨d, hd, eq_of_beq hname⟩)
        refine ⟨?_, rfl, by simp [List.find?_append, hnone]⟩
        show t.symbols.length = i
        omega

/-- Under a name stands the one symbol that has it. -/
theorem lookup_eq_some_iff (h : Represents t ds) {s : Symbol} :
    t.lookup name = some s ↔ s ∈ t.symbols ∧ s.name = name := by
  rw [lookup, t.agree]
  constructor
  · intro hfind
    exact ⟨List.mem_of_find?_eq_some hfind, by simpa using List.find?_some hfind⟩
  · rintro ⟨hs, rfl⟩
    obtain ⟨first, hfirst⟩ : ∃ first, t.symbols.find? (·.name == s.name) = some first :=
      Option.isSome_iff_exists.1 (List.find?_isSome.2 ⟨s, hs, by simp⟩)
    have hname : first.name = s.name := by simpa using List.find?_some hfirst
    -- the names are different, so two symbols with one name stand at one place
    obtain ⟨i, hi⟩ := List.getElem?_of_mem (List.mem_of_find?_eq_some hfirst)
    obtain ⟨j, hj⟩ := List.getElem?_of_mem hs
    have hplace : t.names[i]? = t.names[j]? := by simp [SymbolTable.names, hi, hj, hname]
    have hlt : i < t.names.length := by
      rw [SymbolTable.names, List.length_map]
      exact (List.getElem?_eq_some_iff.1 hi).1
    obtain rfl := (List.getElem?_inj hlt h.nodup).1 hplace
    rw [hfirst, ← hi, hj]

end Represents

/-- What can be asked of a table. -/
inductive Request where
  | declare (name : Text) (pos : Pos)
  | lookup (name : Text)
  | reset

namespace Request

def isReset : Request → Bool
  | .reset => true
  | _ => false

def declaration? : Request → Option (Text × Pos)
  | .declare name pos => some (name, pos)
  | _ => none

/-- The declarations since the last reset, in order. -/
def current (requests : List Request) : List (Text × Pos) :=
  (requests.reverse.takeWhile (!·.isReset)).reverse.filterMap declaration?

theorem current_append (requests : List Request) (request : Request) :
    current (requests ++ [request]) =
      if request.isReset then [] else current requests ++ request.declaration?.toList := by
  unfold current
  rw [List.reverse_append, List.reverse_singleton, List.singleton_append, List.takeWhile_cons]
  cases request <;> simp [isReset, declaration?]

end Request

/-- The table after a request. -/
def serve (t : SymbolTable) : Request → SymbolTable
  | .declare name pos => (t.declareIfAbsent name pos).2
  | .lookup _ => t
  | .reset => .empty

/-- A new table after a sequence of requests. -/
def session (requests : List Request) : SymbolTable := requests.foldl serve .empty

theorem Represents.serve {before : List Request} (h : Represents t (Request.current before))
    (request : Request) : Represents (t.serve request) (Request.current (before ++ [request])) := by
  rw [Request.current_append]
  cases request with
  | declare name pos => exact h.declare name pos
  | lookup name => simpa [SymbolTable.serve, Request.isReset, Request.declaration?] using h
  | reset => exact .empty

theorem Represents.foldl {before : List Request} (h : Represents t (Request.current before))
    (requests : List Request) :
    Represents (requests.foldl SymbolTable.serve t) (Request.current (before ++ requests)) := by
  induction requests generalizing t before with
  | nil => simpa using h
  | cons request rest ih => simpa using ih (h.serve request)

theorem represents_session (requests : List Request) :
    Represents (session requests) (Request.current requests) := by
  have hnew : Represents .empty (Request.current []) := .empty
  exact hnew.foldl requests

/-- After any requests the table lists each name declared since the last reset once, in the order of
the first declarations; a symbol has the number of its place, the numeric type and the position of
its first declaration. Exactly these names are found, each with its symbol, and exactly the others
would be new. -/
theorem table_lists_current_declarations (requests : List Request) (name : Text) (pos : Pos) :
    (session requests).symbols.map (·.name) = ((Request.current requests).map Prod.fst).eraseDups ∧
    ((session requests).symbols.map (·.name)).Nodup ∧
    (∀ (i : Nat) (s : Symbol), (session requests).symbols[i]? = some s →
      s.index = i ∧ s.type = .number ∧
        (Request.current requests).find? (·.1 == s.name) = some (s.name, s.pos)) ∧
    (session requests).count = (session requests).symbols.length ∧
    (∀ s, (session requests).lookup name = some s ↔
      s ∈ (session requests).symbols ∧ s.name = name) ∧
    ((session requests).lookup name ≠ none ↔ name ∈ (Request.current requests).map Prod.fst) ∧
    ((session requests).declareIfAbsent name pos).1 =
      decide (name ∉ (Request.current requests).map Prod.fst) := by
  have h := represents_session requests
  have hcontains : (session requests).contains name ↔ _ := h.contains_iff
  refine ⟨h.names, h.nodup, h.entry, rfl, fun s => h.lookup_eq_some_iff, ?_, ?_⟩
  · rw [← hcontains, contains, Option.isSome_iff_ne_none]
  · rw [Bool.eq_iff_iff]
    simp [declareIfAbsent, ← hcontains]

end ThreeAddress.SymbolTable
