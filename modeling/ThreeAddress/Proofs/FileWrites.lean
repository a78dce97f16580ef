import ThreeAddress.FileTree

/-! Writing a file changes no other, and a write that fails leaves all of them as they were. The new
file that stands beside the target for a while is the point: no path that leads somewhere with it
needs it, and nothing of it is left. -/
namespace ThreeAddress.FileTree

variable {t : FileTree} {place q : Place} {content : Text}

/-- The content of the regular file at a place. -/
def contentAt (t : FileTree) (place : Place) : Option Text :=
  match t.get? place with
  | some (.file content) => some content
  | _ => none

theorem lookup_map (l : List (Place × Entry)) (e : Entry) :
    (l.map fun (p, e') => (p, if p == place then e else e')).lookup q =
      (l.lookup q).map fun e' => if q = place then e else e' := by
  induction l with
  | nil => rfl
  | cons x l ih =>
    obtain ⟨p, e'⟩ := x
    by_cases h : q = p
    · subst h
      simp
    · have hbeq : (q == p) = false := by simpa using h
      simp only [List.map_cons, List.lookup_cons, hbeq]
      exact ih

theorem lookup_put (t : FileTree) (place q : Place) (content : Text) :
    (t.put place content).entries.lookup q =
      if q = place then some (.file content) else t.entries.lookup q := by
  unfold put
  split
  · rename_i hsome
    rw [lookup_map]
    by_cases h : q = place
    · obtain ⟨e, he⟩ := Option.isSome_iff_exists.1 hsome
      simp [h, he]
    · simp [h]
  · rename_i hnone
    have hnone : t.entries.lookup place = none := Option.not_isSome_iff_eq_none.1 hnone
    rw [List.lookup_append]
    by_cases h : q = place
    · simp [h, hnone]
    · have hbeq : (q == place) = false := by simpa using h
      simp [h, List.lookup_cons, hbeq]

theorem remove_put (t : FileTree) (place : Place) (content : Text) :
    (t.put place content).remove place = t.remove place := by
  unfold put remove
  split
  · rename_i hsome
    generalize t.entries = l
    congr 1
    induction l with
    | nil => rfl
    | cons x l ih => by_cases h : x.1 = place <;> simp_all
  · simp

theorem remove_eq_self (h : t.entries.lookup place = none) : t.remove place = t := by
  have hkeep : t.entries.filter (·.1 != place) = t.entries := by
    rw [List.filter_eq_self]
    intro x hx
    have hne : place ≠ x.1 := by simpa using List.lookup_eq_none_iff.1 h x hx
    simpa using hne.symm
  rw [remove, hkeep]

theorem get?_of_lookup {e : Entry} (hq : q.names ≠ []) (h : t.entries.lookup q = some e) :
    t.get? q = some e := by
  simp [get?, hq, h]

theorem lookup_of_get?_none (h : t.get? q = none) :
    q.names ≠ [] ∧ t.entries.lookup q = none := by
  unfold get? at h
  split at h
  · cases h
  · rename_i hq
    refine ⟨by simpa using hq, ?_⟩
    split at h
    · cases h
    · assumption

/-- Only an entry of its own makes a place a regular file. -/
theorem contentAt_eq_some_iff :
    t.contentAt q = some content ↔ q.names ≠ [] ∧ t.entries.lookup q = some (.file content) := by
  unfold contentAt
  constructor
  · intro h
    split at h
    · rename_i hget
      obtain rfl := Option.some.inj h
      unfold get? at hget
      split at hget
      · cases hget
      · rename_i hq
        refine ⟨by simpa using hq, ?_⟩
        split at hget
        · rename_i hl
          rw [hl, Option.some.inj hget]
        · split at hget <;> cases hget
    · cases h
  · rintro ⟨hq, hl⟩
    rw [get?_of_lookup hq hl]

theorem contentAt_congr {t' : FileTree} (h : t'.entries.lookup q = t.entries.lookup q) :
    t'.contentAt q = t.contentAt q := by
  apply Option.ext
  intro content
  rw [contentAt_eq_some_iff, contentAt_eq_some_iff, h]

theorem contentAt_put_ne (h : q ≠ place) : (t.put place content).contentAt q = t.contentAt q :=
  contentAt_congr (by rw [lookup_put, if_neg h])

theorem contentAt_put (h : place.names ≠ []) :
    (t.put place content).contentAt place = some content :=
  contentAt_eq_some_iff.2 ⟨h, by rw [lookup_put, if_pos rfl]⟩

/-- Every place on the way to `place` is a directory. -/
def Reached (t : FileTree) (place : Place) : Prop :=
  ∀ q, q.leadsTo place → q ≠ place → t.get? q = some .directory

theorem leadsTo_iff {p q : Place} : p.leadsTo q ↔ p.base = q.base ∧ p.names <+: q.names := by
  simp [Place.leadsTo]

theorem get?_base (h : q.names = []) : t.get? q = some .directory := by
  simp [get?, h]

/-- The parent of a place is a base, or it lies on the way. -/
theorem parent_cases (place : Place) : place.parent.names = [] ∨
    (place.parent.leadsTo place ∧ place.parent.names.length < place.names.length) := by
  obtain ⟨base, _ | ⟨name, names⟩⟩ := place
  · cases base <;> exact Or.inl rfl
  · have hparent : Place.parent ⟨base, name :: names⟩ = ⟨base, (name :: names).dropLast⟩ := by
      cases base <;> rfl
    rw [hparent]
    refine Or.inr ⟨leadsTo_iff.2 ⟨rfl, List.dropLast_prefix _⟩, ?_⟩
    simp

theorem reached_parent (h : t.Reached place) : t.Reached place.parent := by
  intro q hq hne
  obtain ⟨hbase, hnames⟩ := leadsTo_iff.1 hq
  rcases parent_cases place with hnil | ⟨hparent, hlen⟩
  · rw [hnil, List.prefix_nil] at hnames
    exact get?_base hnames
  · obtain ⟨hbase', hnames'⟩ := leadsTo_iff.1 hparent
    apply h q (leadsTo_iff.2 ⟨hbase.trans hbase', hnames.trans hnames'⟩)
    rintro rfl
    have := hnames.length_le
    omega

theorem directory_parent (h : t.Reached place) : t.get? place.parent = some .directory := by
  rcases parent_cases place with hnil | ⟨hparent, hlen⟩
  · exact get?_base hnil
  · apply h _ hparent
    intro heq
    rw [heq] at hlen
    omega

theorem reached_child (h : t.Reached place) (hdir : t.get? place = some .directory) (name : Text) :
    t.Reached (place.child name) := by
  intro q hq hne
  obtain ⟨hbase, hnames⟩ := leadsTo_iff.1 hq
  rcases List.prefix_concat_iff.1 hnames with heq | hfront
  · exact absurd (by cases q; cases hbase; cases heq; rfl) hne
  · by_cases hplace : q = place
    · rw [hplace]
      exact hdir
    · exact h q (leadsTo_iff.2 ⟨hbase, hfront⟩) hplace

/-- A path leads to a place only through directories. -/
theorem walk_reached {parts : List Text} {target : Place} (h : t.Reached place)
    (hdir : t.get? place = some .directory) (hwalk : t.walk place parts = .ok target) :
    t.Reached target := by
  induction parts generalizing place with
  | nil =>
    obtain rfl := Except.ok.inj hwalk
    exact h
  | cons part rest ih =>
    simp only [walk] at hwalk
    split at hwalk
    · exact ih h hdir hwalk
    split at hwalk
    · exact ih (reached_parent h) (directory_parent h) hwalk
    split at hwalk
    · cases hwalk
    split at hwalk
    · obtain rfl := Except.ok.inj hwalk
      exact reached_child h hdir part
    split at hwalk
    · rename_i hnext
      exact ih (reached_child h hdir part) hnext hwalk
    · cases hwalk
    · cases hwalk

theorem reached_of_resolve {path : Text} (h : t.resolve path = .ok place) : t.Reached place := by
  have hbase : ∀ {p : Place}, p.names = [] → t.Reached p := by
    intro p hp q hq _
    obtain ⟨-, hnames⟩ := leadsTo_iff.1 hq
    rw [hp, List.prefix_nil] at hnames
    exact get?_base hnames
  unfold resolve at h
  split at h
  · cases h
  split at h
  · cases h
  split at h
  · cases h
  split at h
  · exact walk_reached (hbase rfl) (get?_base rfl) h
  · exact walk_reached (hbase rfl) (get?_base rfl) h

/-- A file in a directory makes no difference to what stands elsewhere. -/
theorem get?_put_ne (hplace : t.Reached place) (hq : q ≠ place) (content : Text) :
    (t.put place content).get? q = t.get? q := by
  by_cases hbase : q.names = []
  · rw [get?_base hbase, get?_base hbase]
  cases hl : t.entries.lookup q with
  | some e =>
    rw [get?_of_lookup hbase hl, get?_of_lookup hbase (by rw [lookup_put, if_neg hq, hl])]
  | none =>
    have hl' : (t.put place content).entries.lookup q = none := by rw [lookup_put, if_neg hq, hl]
    have hany : ((t.put place content).entries.any fun (p, _) => q.leadsTo p) =
        t.entries.any fun (p, _) => q.leadsTo p := by
      unfold put
      split
      · simp [List.any_map, Function.comp_def]
      · by_cases hleads : q.leadsTo place
        · have hdir := hplace q hleads hq
          unfold get? at hdir
          simp only [hbase, List.isEmpty_iff, if_false, hl] at hdir
          split at hdir
          · rename_i hsome
            simp [hsome, hleads]
          · cases hdir
        · simp [hleads]
    simp only [get?, hl, hl', hany]

/-- A path that leads somewhere when there is a file at `place` also does without that file. -/
theorem walk_of_put {start target : Place} {parts : List Text} (hplace : t.Reached place)
    (hnames : place.names ≠ []) (h : (t.put place content).walk start parts = .ok target) :
    t.walk start parts = .ok target := by
  induction parts generalizing start with
  | nil => exact h
  | cons part rest ih =>
    simp only [walk] at h ⊢
    split at h
    · rename_i hidle
      rw [if_pos hidle]
      exact ih h
    rename_i hidle
    rw [if_neg hidle]
    split at h
    · rename_i hup
      rw [if_pos hup]
      exact ih h
    rename_i hup
    rw [if_neg hup]
    split at h
    · cases h
    rename_i hlong
    rw [if_neg hlong]
    split at h
    · rename_i hlast
      rw [if_pos hlast]
      exact h
    rename_i hlast
    rw [if_neg hlast]
    split at h
    · rename_i hdir
      have hne : start.child part ≠ place := by
        intro heq
        rw [heq, get?_of_lookup hnames (by rw [lookup_put, if_pos rfl])] at hdir
        cases hdir
      rw [← get?_put_ne hplace hne content, hdir]
      exact ih h
    · cases h
    · cases h

theorem resolve_of_put {path : Text} {target : Place} (hplace : t.Reached place)
    (hnames : place.names ≠ []) (h : (t.put place content).resolve path = .ok target) :
    t.resolve path = .ok target := by
  unfold resolve at h ⊢
  split at h
  · cases h
  split at h
  · cases h
  split at h
  · cases h
  split at h
  · rename_i h₁ h₂ h₃ h₄
    rw [if_neg h₁, if_neg h₂, if_neg h₃, if_pos h₄]
    exact walk_of_put hplace hnames h
  · rename_i h₁ h₂ h₃ h₄
    rw [if_neg h₁, if_neg h₂, if_neg h₃, if_neg h₄]
    exact walk_of_put hplace hnames h

/-- A file is created only where nothing is. -/
theorem create_eq_ok {directory name : Text} {drawn : Nat → Nat} {left : Nat} {t' : FileTree}
    (h : t.create directory drawn left = .ok (name, place, t')) :
    t' = t.put place [] ∧ t.get? place = none ∧ t.Reached place := by
  induction left with
  | zero => cases h
  | succ left ih =>
    simp only [create] at h
    split at h
    · cases h
    · rename_i place' hresolve
      split at h
      · exact ih h
      · rename_i hget
        obtain ⟨-, rfl, rfl⟩ : _ ∧ place' = place ∧ t.put place' [] = t' := by simpa using h
        exact ⟨rfl, hget, reached_of_resolve hresolve⟩

theorem rename_eq_ok {source : Place} {path : Text} {t' : FileTree}
    (h : t.rename source path = .ok t') : ∃ target content, t.resolve path = .ok target ∧
      t.get? target ≠ some .directory ∧ t.get? source = some (.file content) ∧
      t' = (t.remove source).put target content := by
  unfold rename at h
  split at h
  · cases h
  · rename_i target hresolve
    split at h
    · cases h
    · rename_i content hsource hget
      obtain rfl := Except.ok.inj h
      exact ⟨target, content, hresolve, hget, hsource, rfl⟩
    · cases h

/-- What a write comes to: all is as before, or the file is at the place that the path leads to. -/
theorem write_cases (t : FileTree) (drawn : Nat → Nat) (path content : Text) :
    (∃ message, t.write drawn path content = (.error message, t)) ∨
      ∃ target, t.write drawn path content = (.ok (), t.put target content) ∧
        t.resolve path = .ok target ∧ target.names ≠ [] := by
  unfold write
  cases hcreate : t.create (parent path) drawn attempts with
  | error message => exact Or.inl ⟨message, rfl⟩
  | ok created =>
    obtain ⟨name, place, t'⟩ := created
    obtain ⟨rfl, hfree, hreached⟩ := create_eq_ok hcreate
    obtain ⟨hnames, hnone⟩ := lookup_of_get?_none hfree
    -- the tree with the content in the new file, in which the rename takes place
    have hremove : ((t.put place []).put place content).remove place = t := by
      rw [remove_put, remove_put, remove_eq_self hnone]
    have hget : ((t.put place []).put place content).get? place = some (.file content) :=
      get?_of_lookup hnames (by rw [lookup_put, if_pos rfl])
    simp only
    cases hrename : ((t.put place []).put place content).rename place path with
    | error e => exact Or.inl ⟨_, by rw [hremove]⟩
    | ok t' =>
      obtain ⟨target, content', hresolve, hdir, hsource, rfl⟩ := rename_eq_ok hrename
      obtain rfl : content' = content := by simpa [hget] using hsource.symm
      refine Or.inr ⟨target, by rw [hremove], ?_, ?_⟩
      · have hagain : (t.put place []).Reached place := by
          intro q hq hne
          rw [get?_put_ne hreached hne]
          exact hreached q hq hne
        exact resolve_of_put hreached hnames (resolve_of_put hagain hnames hresolve)
      · intro hnil
        exact hdir (get?_base hnil)

end ThreeAddress.FileTree
