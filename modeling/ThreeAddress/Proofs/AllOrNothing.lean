import ThreeAddress.CommandLine
import ThreeAddress.Proofs.FileWrites

/-! The command line does all that it is asked for, or nothing: a run that fails prints nothing and
leaves the files as they were, and one that succeeds changes no file but its output. -/
namespace ThreeAddress.CommandLine

/-- What the arguments may ask for before the names of the files. -/
inductive Flag where
  | verbose | quiet
  /-- The parse tree instead of the C program. -/
  | tree
  /-- The listing instead of the C program. -/
  | listing
  | noFormat
  | run
  | set (assignment : Text)
  | type (name : Text)
  | help | version
deriving DecidableEq

namespace Flag

/-- The words that spell a flag. -/
inductive Spelled : List Text → Flag → Prop
  | verbose : Spelled [Text.ofString "-v"] .verbose
  | quiet : Spelled [Text.ofString "-q"] .quiet
  | tree : Spelled [Text.ofString "-d"] .tree
  | listing : Spelled [Text.ofString "-da"] .listing
  | noFormat : Spelled [Text.ofString "-no-format"] .noFormat
  | noFormatLong : Spelled [Text.ofString "--no-format"] .noFormat
  | run : Spelled [Text.ofString "-run"] .run
  | runLong : Spelled [Text.ofString "--run"] .run
  | set (assignment : Text) : Spelled [Text.ofString "-set", assignment] (.set assignment)
  | setLong (assignment : Text) : Spelled [Text.ofString "--set", assignment] (.set assignment)
  | type (name : Text) : Spelled [Text.ofString "-type", name] (.type name)
  | typeLong (name : Text) : Spelled [Text.ofString "--type", name] (.type name)
  | typeEqual (name : Text) : Spelled [Text.ofString "-type=" ++ name] (.type name)
  | help : Spelled [Text.ofString "-h"] .help
  | helpLong : Spelled [Text.ofString "--help"] .help
  | version : Spelled [Text.ofString "-version"] .version
  | versionLong : Spelled [Text.ofString "--version"] .version

/-- The flag is answered at once, and what follows it is not looked at. -/
def isAnswered : Flag → Bool
  | .help | .version => true
  | _ => false

/-- With the flag no C program is written. -/
def keepsFiles : Flag → Bool
  | .tree | .listing | .run | .help | .version => true
  | _ => false

def type? : Flag → Option Text
  | .type name => some name
  | _ => none

def set? : Flag → Option Text
  | .set assignment => some assignment
  | _ => none

end Flag

/-- `Given args flags rest`: the arguments are these flags, up to one that is answered, and then the
rest. -/
inductive Given : List Text → List Flag → List Text → Prop
  | none {rest : List Text} : (∀ arg ∈ rest.head?, arg = Text.ofString "-" ∨
      arg.head? ≠ some (Text.ascii '-')) → Given rest [] rest
  | dashes {rest : List Text} : Given (Text.ofString "--" :: rest) [] rest
  | last {words rest : List Text} {f : Flag} : Flag.Spelled words f → f.isAnswered →
      Given (words ++ rest) [f] rest
  | more {words args rest : List Text} {f : Flag} {flags : List Flag} : Flag.Spelled words f →
      f.isAnswered = false → Given args flags rest → Given (words ++ args) (f :: flags) rest

/-- The options with one more flag. -/
def Options.add (o : Options) : Flag → Options
  | .verbose => { o with verbose := true }
  | .quiet => { o with quiet := true }
  | .tree => { o with tree := true }
  | .listing => { o with listing := true }
  | .noFormat => { o with noFormat := true }
  | .run => { o with run := true }
  | .set assignment => { o with sets := o.sets ++ [assignment] }
  | .type name => { o with type := name }
  | .help | .version => o

/-- The options that flags stand for. -/
def Options.of (flags : List Flag) : Options := flags.foldl add none

/-- An answer that is a failure prints nothing. -/
def Reply.IsFailure (r : Reply) : Prop := r.exit = 1 ∧ r.stdout = []

/-- What the flags `args` come to, with the options `o` before them. -/
def Request.Answers (o : Options) (args : List Text) : Request → Prop
  | .answer r => r.IsFailure ∨
      (r.exit = 0 ∧ ∃ flags rest, Given args flags rest ∧ ∃ f ∈ flags, f.isAnswered)
  | .proceed o' rest => ∃ flags, Given args flags rest ∧ (∀ f ∈ flags, f.isAnswered = false) ∧
      o' = flags.foldl Options.add o

variable {o : Options} {args words rest : List Text} {f : Flag} {flags : List Flag} {req : Request}

theorem answers_more (hf : Flag.Spelled words f) (hmore : f.isAnswered = false)
    (h : req.Answers (o.add f) args) : req.Answers o (words ++ args) := by
  cases req with
  | answer r =>
    rcases h with h | ⟨hexit, flags, rest, hgiven, g, hg, hanswered⟩
    · exact Or.inl h
    · exact Or.inr ⟨hexit, f :: flags, rest, .more hf hmore hgiven, g, by simp [hg], hanswered⟩
  | proceed o' rest =>
    obtain ⟨flags, hgiven, hall, rfl⟩ := h
    exact ⟨f :: flags, .more hf hmore hgiven, by simpa [hmore] using hall, rfl⟩

theorem answers_last (hf : Flag.Spelled words f) (hlast : f.isAnswered) (out err : Text) :
    (Request.answer (.success out err)).Answers o (words ++ rest) :=
  Or.inr ⟨rfl, [f], rest, .last hf hlast, f, by simp, hlast⟩

theorem eq_append_of_stripFront {front s value : Text} (h : Text.stripFront front s = some value) :
    s = front ++ value := by
  unfold Text.stripFront at h
  split at h
  · rename_i hfront
    obtain rfl := Option.some.inj h
    exact (List.prefix_iff_eq_append.1 (List.isPrefixOf_iff_prefix.1 hfront)).symm
  · cases h

theorem readFlags_answers (o : Options) (args : List Text) :
    (readFlags o args).Answers o args := by
  fun_induction readFlags o args with
  | case1 o => exact ⟨[], .none (by simp), by simp, rfl⟩
  | case2 o arg rest harg =>
    obtain rfl : arg = Text.ofString "--" := by simpa using harg
    exact ⟨[], .dashes, by simp, rfl⟩
  | case3 o arg rest _ harg => exact ⟨[], .none (by simpa using harg), by simp, rfl⟩
  | case4 o arg rest _ _ harg ih =>
    obtain rfl : arg = Text.ofString "-v" := by simpa using harg
    exact answers_more .verbose rfl ih
  | case5 o arg rest _ _ _ harg ih =>
    obtain rfl : arg = Text.ofString "-q" := by simpa using harg
    exact answers_more .quiet rfl ih
  | case6 o arg rest _ _ _ _ harg ih =>
    obtain rfl : arg = Text.ofString "-d" := by simpa using harg
    exact answers_more .tree rfl ih
  | case7 o arg rest _ _ _ _ _ harg ih =>
    obtain rfl : arg = Text.ofString "-da" := by simpa using harg
    exact answers_more .listing rfl ih
  | case8 o arg rest _ _ _ _ _ _ harg ih =>
    obtain rfl | rfl : arg = Text.ofString "-no-format" ∨ arg = Text.ofString "--no-format" := by
      simpa using harg
    · exact answers_more .noFormat rfl ih
    · exact answers_more .noFormatLong rfl ih
  | case9 o arg rest _ _ _ _ _ _ _ harg ih =>
    obtain rfl | rfl : arg = Text.ofString "-run" ∨ arg = Text.ofString "--run" := by
      simpa using harg
    · exact answers_more .run rfl ih
    · exact answers_more .runLong rfl ih
  | case10 => exact Or.inl ⟨rfl, rfl⟩
  | case11 o arg _ _ _ _ _ _ _ _ harg value rest ih =>
    obtain rfl | rfl : arg = Text.ofString "-set" ∨ arg = Text.ofString "--set" := by
      simpa using harg
    · exact answers_more (.set value) rfl ih
    · exact answers_more (.setLong value) rfl ih
  | case12 => exact Or.inl ⟨rfl, rfl⟩
  | case13 o arg _ _ _ _ _ _ _ _ _ harg value rest ih =>
    obtain rfl | rfl : arg = Text.ofString "-type" ∨ arg = Text.ofString "--type" := by
      simpa using harg
    · exact answers_more (.type value) rfl ih
    · exact answers_more (.typeLong value) rfl ih
  | case14 o arg rest _ _ _ _ _ _ _ _ _ _ harg =>
    obtain rfl | rfl : arg = Text.ofString "-h" ∨ arg = Text.ofString "--help" := by
      simpa using harg
    · exact answers_last .help rfl _ _
    · exact answers_last .helpLong rfl _ _
  | case15 o arg rest _ _ _ _ _ _ _ _ _ _ _ harg =>
    obtain rfl | rfl : arg = Text.ofString "-version" ∨ arg = Text.ofString "--version" := by
      simpa using harg
    · exact answers_last .version rfl _ _
    · exact answers_last .versionLong rfl _ _
  | case16 o arg rest _ _ _ _ _ _ _ _ _ _ _ _ value hvalue ih =>
    obtain rfl := eq_append_of_stripFront hvalue
    exact answers_more (.typeEqual value) rfl ih
  | case17 => exact Or.inl ⟨rfl, rfl⟩

/-- One flag is read and then those after it. -/
theorem readFlags_spelled (hf : Flag.Spelled words f) (hmore : f.isAnswered = false) (o : Options)
    (args : List Text) : readFlags o (words ++ args) = readFlags (o.add f) args := by
  cases hf with
  | help | helpLong | version | versionLong => cases hmore
  | set | setLong | type | typeLong => rfl
  | _ =>
    rw [List.singleton_append, readFlags.eq_def]
    rfl

/-- Flags of which none is answered at once are read to the end. -/
theorem readFlags_of_given (h : Given args flags rest) (hall : ∀ f ∈ flags, f.isAnswered = false)
    (o : Options) : readFlags o args = .proceed (flags.foldl Options.add o) rest := by
  induction h generalizing o with
  | @none rest hrest =>
    cases rest with
    | nil => rfl
    | cons arg rest =>
      have harg := hrest arg rfl
      have hdashes : arg ≠ Text.ofString "--" := by
        rintro rfl
        rcases harg with h | h <;> exact absurd h (by decide)
      have hstop : (arg == Text.ofString "-" || arg.head? != some (Text.ascii '-')) = true := by
        simpa using harg
      unfold readFlags
      rw [if_neg (by simpa using hdashes), if_pos hstop]
      rfl
  | dashes =>
    rw [readFlags.eq_def]
    rfl
  | last _ hlast =>
    rw [hall _ (by simp)] at hlast
    cases hlast
  | more hf hmore _ ih =>
    rw [readFlags_spelled hf hmore]
    exact ih (fun g hg => hall g (by simp [hg])) _

theorem add_flags (flags : List Flag) (o : Options) :
    ((flags.foldl Options.add o).tree = true ↔ o.tree ∨ .tree ∈ flags) ∧
    ((flags.foldl Options.add o).listing = true ↔ o.listing ∨ .listing ∈ flags) ∧
    ((flags.foldl Options.add o).run = true ↔ o.run ∨ .run ∈ flags) ∧
    ((flags.foldl Options.add o).noFormat = true ↔ o.noFormat ∨ .noFormat ∈ flags) ∧
    (flags.foldl Options.add o).sets = o.sets ++ flags.filterMap Flag.set? ∧
    (flags.foldl Options.add o).type = (flags.reverse.findSome? Flag.type?).getD o.type := by
  induction flags generalizing o with
  | nil => simp
  | cons f flags ih =>
    have h := ih (o.add f)
    cases f <;> simp_all [Options.add, Flag.set?, Flag.type?, List.filterMap_cons]

/-- The options tell which flags are given. -/
theorem options_of (flags : List Flag) :
    ((Options.of flags).tree = true ↔ .tree ∈ flags) ∧
    ((Options.of flags).listing = true ↔ .listing ∈ flags) ∧
    ((Options.of flags).run = true ↔ .run ∈ flags) ∧
    ((Options.of flags).noFormat = true ↔ .noFormat ∈ flags) ∧
    (Options.of flags).sets = flags.filterMap Flag.set? ∧
    (Options.of flags).type = (flags.reverse.findSome? Flag.type?).getD [] := by
  have h := add_flags flags .none
  simpa [Options.of, Options.none] using h

/-- How the flags want the source `input` to be compiled; of two types the last one counts. -/
def settingsOf (flags : List Flag) (input : Text) : Settings where
  scheme := { Scheme.default with type := (flags.reverse.findSome? Flag.type?).getD [] }
  layout := decide (.noFormat ∉ flags)
  file := if input = standard then [] else input

/-- `source` is what is read for the argument `input`. -/
def IsSource (stdin : Text) (files : FileTree) (input source : Text) : Prop :=
  (input = standard ∧ source = stdin) ∨
    (input ≠ standard ∧ ∃ place, files.resolve input = .ok place ∧
      files.contentAt place = some source)

/-- No file is to be written: a flag asks for something else, or the output is standard output. -/
def AsksNoFile (args : List Text) : Prop :=
  ∃ flags rest, Given args flags rest ∧
    ((∃ f ∈ flags, f.keepsFiles) ∨ ∃ input, rest = [input, standard])

/-- The arguments are in order and ask for a C program at `output`, and `code` is that program. -/
inductive Translates (args : List Text) (stdin : Text) (files : FileTree) (output code : Text) :
    Prop
  | mk {flags : List Flag} {input source : Text} {t : Compilation} :
      Given args flags [input, output] → (∀ f ∈ flags, f.keepsFiles = false) →
      (∀ s ∈ flags.filterMap Flag.set?, ∃ x, readSet s = .ok x) →
      IsSource stdin files input source →
      (compile (settingsOf flags input) source).outcome = .ok t → t.code = code →
      Translates args stdin files output code

theorem settings_eq {job : Job} (hjob : job.options = .of flags) :
    job.settings = settingsOf flags job.input := by
  obtain ⟨-, -, -, hformat, -, htype⟩ := options_of flags
  have hlayout : (!(Options.of flags).noFormat) = decide (.noFormat ∉ flags) := by
    simp [← hformat]
  simp only [Job.settings, settingsOf, hjob, hlayout, htype, beq_iff_eq]

theorem mapM_readSet_eq_ok (sets : List Text) :
    (∃ inputs, sets.mapM readSet = .ok inputs) ↔ ∀ s ∈ sets, ∃ x, readSet s = .ok x := by
  induction sets with
  | nil => simp [pure, Except.pure]
  | cons s sets ih =>
    rw [List.forall_mem_cons, ← ih]
    cases hs : readSet s with
    | error e => simp [List.mapM_cons, hs, bind, Except.bind]
    | ok x =>
      cases hsets : sets.mapM readSet <;>
        simp [List.mapM_cons, hs, hsets, bind, Except.bind, pure, Except.pure]

theorem read_source {stdin input source : Text} {files : FileTree} :
    (if input == standard then .ok stdin else files.read input) = Except.ok source ↔
      IsSource stdin files input source := by
  unfold IsSource
  by_cases hinput : input = standard
  · simp [hinput, eq_comm]
  · simp only [hinput, beq_iff_eq, if_false, false_and, ne_eq, not_false_eq_true, true_and,
      false_or]
    unfold FileTree.read FileTree.contentAt
    cases hresolve : files.resolve input with
    | error e => simp
    | ok place =>
      simp only [Except.ok.injEq, exists_eq_left']
      cases files.get? place with
      | none => simp
      | some entry => cases entry <;> simp

/-- The arguments are in order, and ask for the job. -/
structure Asks (args : List Text) (flags : List Flag) (job : Job) : Prop where
  options : job.options = .of flags
  proceeds : ∀ f ∈ flags, f.isAnswered = false
  sets : ∀ s ∈ flags.filterMap Flag.set?, ∃ x, readSet s = .ok x
  given : (job.output = none ∧ .run ∈ flags ∧ Given args flags [job.input]) ∨
    ∃ path, job.output = some path ∧ .run ∉ flags ∧ Given args flags [job.input, path]

/-- What reading the arguments comes to. -/
theorem readArguments_cases (args : List Text) :
    (∃ r, readArguments args = .error r ∧ (r.IsFailure ∨ (r.exit = 0 ∧ AsksNoFile args))) ∨
    ∃ flags job, readArguments args = .ok job ∧ Asks args flags job := by
  have hflags := readFlags_answers .none args
  unfold readArguments
  cases hreq : readFlags .none args with
  | answer r =>
    rw [hreq] at hflags
    refine Or.inl ⟨r, rfl, ?_⟩
    rcases hflags with hfail | ⟨hexit, flags, rest, hgiven, f, hf, hanswered⟩
    · exact Or.inl hfail
    · refine Or.inr ⟨hexit, flags, rest, hgiven, Or.inl ⟨f, hf, ?_⟩⟩
      cases f <;> simp_all [Flag.isAnswered, Flag.keepsFiles]
  | proceed o rest =>
    rw [hreq] at hflags
    obtain ⟨flags, hgiven, hall, rfl⟩ := hflags
    obtain ⟨-, -, hrun, -, hsets, -⟩ := options_of flags
    have hfold : flags.foldl Options.add .none = .of flags := rfl
    simp only [hfold, hsets]
    have hvalid := mapM_readSet_eq_ok (flags.filterMap Flag.set?)
    split
    · rename_i input hrun'
      cases hinputs : (flags.filterMap Flag.set?).mapM readSet with
      | error message => exact Or.inl ⟨_, rfl, Or.inl ⟨rfl, rfl⟩⟩
      | ok inputs =>
        exact Or.inr ⟨flags, _, rfl, rfl, hall, hvalid.1 ⟨inputs, hinputs⟩,
          Or.inl ⟨rfl, hrun.1 hrun', hgiven⟩⟩
    · rename_i input output hrun'
      cases hinputs : (flags.filterMap Flag.set?).mapM readSet with
      | error message => exact Or.inl ⟨_, rfl, Or.inl ⟨rfl, rfl⟩⟩
      | ok inputs =>
        have hnot : .run ∉ flags := by simpa [hrun'] using hrun
        exact Or.inr ⟨flags, _, rfl, rfl, hall, hvalid.1 ⟨inputs, hinputs⟩,
          Or.inr ⟨output, rfl, hnot, hgiven⟩⟩
    · exact Or.inl ⟨_, rfl, Or.inl ⟨rfl, rfl⟩⟩

/-- What a job comes to. -/
theorem perform_cases (job : Job) (source : Text) :
    (∃ r, job.perform source = .answer r ∧ r.IsFailure) ∨
    (∃ r, job.perform source = .answer r ∧ r.exit = 0 ∧ (job.options.tree ∨ job.options.listing ∨
      job.output = none ∨ job.output = some standard)) ∨
    ∃ t path log, (compile job.settings source).outcome = .ok t ∧ job.options.tree = false ∧
      job.options.listing = false ∧ job.output = some path ∧ path ≠ standard ∧
      job.perform source = .writeFile path t.code log := by
  unfold Job.perform
  simp only
  split
  · exact Or.inl ⟨_, rfl, rfl, rfl⟩
  · rename_i t ht
    split
    · rename_i htree
      exact Or.inr (Or.inl ⟨_, rfl, rfl, Or.inl htree⟩)
    rename_i htree
    split
    · rename_i hlisting
      exact Or.inr (Or.inl ⟨_, rfl, rfl, Or.inr (Or.inl hlisting)⟩)
    rename_i hlisting
    split
    · rename_i houtput
      split
      · exact Or.inl ⟨_, rfl, rfl, rfl⟩
      · exact Or.inr (Or.inl ⟨_, rfl, rfl, Or.inr (Or.inr (Or.inl houtput))⟩)
    · rename_i path houtput
      split
      · rename_i hpath
        obtain rfl : path = standard := by simpa using hpath
        exact Or.inr (Or.inl ⟨_, rfl, rfl, Or.inr (Or.inr (Or.inr houtput))⟩)
      · rename_i hpath
        exact Or.inr (Or.inr ⟨t, path, _, ht, by simpa using htree, by simpa using hlisting,
          houtput, by simpa using hpath, rfl⟩)

theorem perform_translated {job : Job} {source path : Text} {t : Compilation}
    (hcompile : (compile job.settings source).outcome = .ok t) (htree : job.options.tree = false)
    (hlisting : job.options.listing = false) (houtput : job.output = some path) : ∃ log,
      job.perform source =
        if path = standard then .answer (.success t.code log) else .writeFile path t.code log := by
  refine ⟨job.log (compile job.settings source).records, ?_⟩
  simp [Job.perform, hcompile, htree, hlisting, houtput]

theorem run_of_job {job : Job} {stdin source : Text} {files : FileTree} (drawn : Nat → Nat)
    (hjob : readArguments args = .ok job) (hsource : IsSource stdin files job.input source) :
    run args stdin files drawn = (job.perform source).carryOut files drawn := by
  simp only [run, hjob]
  rw [read_source.2 hsource]

/-- The run of a program whose arguments ask for a C program that can be written. -/
theorem exit_of_translates {stdin output code : Text} {files : FileTree} {drawn : Nat → Nat}
    (h : Translates args stdin files output code)
    (houtput : output = standard ∨ (files.write drawn output code).1 = .ok ()) :
    (run args stdin files drawn).1.exit = 0 := by
  obtain ⟨hgiven, hkeeps, hsets, hsource, hcompile, hcode⟩ := h
  rename_i flags input source t
  obtain ⟨htree, hlisting, hrun, -, hoptions, -⟩ := options_of flags
  have hanswered : ∀ f ∈ flags, f.isAnswered = false := by
    intro f hf
    have := hkeeps f hf
    cases f <;> simp_all [Flag.isAnswered, Flag.keepsFiles]
  obtain ⟨inputs, hinputs⟩ := (mapM_readSet_eq_ok _).2 hsets
  have hnot : ∀ f : Flag, f.keepsFiles → f ∉ flags := by
    intro f hf hmem
    rw [hkeeps f hmem] at hf
    cases hf
  have hread : readArguments args = .ok ⟨.of flags, input, some output, inputs⟩ := by
    have hrun' : (Options.of flags).run = false :=
      Bool.eq_false_iff.2 (mt hrun.1 (hnot .run rfl))
    have hfold : flags.foldl Options.add .none = .of flags := rfl
    simp only [readArguments, readFlags_of_given hgiven hanswered, hfold, hrun', hoptions, hinputs]
  have htree' : (Options.of flags).tree = false :=
    Bool.eq_false_iff.2 (mt htree.1 (hnot .tree rfl))
  have hlisting' : (Options.of flags).listing = false :=
    Bool.eq_false_iff.2 (mt hlisting.1 (hnot .listing rfl))
  have hsettings : Job.settings ⟨.of flags, input, some output, inputs⟩ = settingsOf flags input :=
    settings_eq rfl
  rw [← hsettings] at hcompile
  obtain ⟨log, hperform⟩ := perform_translated hcompile htree' hlisting' rfl
  rw [run_of_job drawn hread hsource, hperform]
  by_cases hstandard : output = standard
  · rw [if_pos hstandard]
    rfl
  · rw [if_neg hstandard, Job.Result.carryOut]
    subst hcode
    have hwrite := houtput.resolve_left hstandard
    cases hw : files.write drawn output t.code with
    | mk result files' =>
      rw [hw] at hwrite
      obtain rfl : result = .ok () := hwrite
      rfl

/-- A job that succeeds without a file to write was asked for as such. -/
theorem Asks.asksNoFile {job : Job} (h : Asks args flags job)
    (hwhy : job.options.tree ∨ job.options.listing ∨ job.output = none ∨
      job.output = some standard) : AsksNoFile args := by
  obtain ⟨htree, hlisting, -⟩ := options_of flags
  obtain ⟨rest, hrest⟩ : ∃ rest, Given args flags rest := by
    rcases h.given with ⟨-, -, hgiven⟩ | ⟨path, -, -, hgiven⟩ <;> exact ⟨_, hgiven⟩
  rw [h.options] at hwhy
  rcases hwhy with hwhy | hwhy | hwhy | hwhy
  · exact ⟨flags, rest, hrest, Or.inl ⟨.tree, htree.1 hwhy, rfl⟩⟩
  · exact ⟨flags, rest, hrest, Or.inl ⟨.listing, hlisting.1 hwhy, rfl⟩⟩
  · rcases h.given with ⟨-, hrun, -⟩ | ⟨path, hsome, -⟩
    · exact ⟨flags, rest, hrest, Or.inl ⟨.run, hrun, rfl⟩⟩
    · rw [hsome] at hwhy
      cases hwhy
  · rcases h.given with ⟨hnone, -⟩ | ⟨path, hsome, -, hgiven⟩
    · rw [hnone] at hwhy
      cases hwhy
    · obtain rfl : path = standard := Option.some.inj (hsome.symm.trans hwhy)
      exact ⟨flags, _, hgiven, Or.inr ⟨job.input, rfl⟩⟩

/-- A job that has a file to write translates its input. -/
theorem Asks.translates {job : Job} {stdin source path : Text} {files : FileTree}
    {t : Compilation} (h : Asks args flags job) (hsource : IsSource stdin files job.input source)
    (hcompile : (compile job.settings source).outcome = .ok t) (htree : job.options.tree = false)
    (hlisting : job.options.listing = false) (houtput : job.output = some path) :
    Translates args stdin files path t.code := by
  rcases h.given with ⟨hnone, -⟩ | ⟨path', hsome, hrun, hgiven⟩
  · rw [hnone] at houtput
    cases houtput
  obtain rfl : path' = path := Option.some.inj (hsome.symm.trans houtput)
  have hkeeps : ∀ f ∈ flags, f.keepsFiles = false := by
    intro f hf
    obtain ⟨htree', hlisting', -⟩ := options_of flags
    rw [h.options] at htree hlisting
    have hproceeds := h.proceeds f hf
    cases f with
    | tree => exact absurd (htree'.2 hf) (by simp [htree])
    | listing => exact absurd (hlisting'.2 hf) (by simp [hlisting])
    | run => exact absurd hf hrun
    | help | version => cases hproceeds
    | _ => rfl
  rw [settings_eq h.options] at hcompile
  exact .mk hgiven hkeeps h.sets hsource hcompile rfl

/-- The ways a run may end. -/
theorem run_cases (args : List Text) (stdin : Text) (files : FileTree) (drawn : Nat → Nat) :
    ∃ reply files', run args stdin files drawn = (reply, files') ∧
      ((reply.IsFailure ∧ files' = files) ∨
        (reply.exit = 0 ∧ AsksNoFile args ∧ files' = files) ∨
        ∃ output code place, reply.exit = 0 ∧ output ≠ standard ∧
          Translates args stdin files output code ∧ files.resolve output = .ok place ∧
          place.names ≠ [] ∧ files' = files.put place code) := by
  rcases readArguments_cases args with ⟨r, hr, hanswer⟩ | ⟨flags, job, hjob, hasks⟩
  · refine ⟨r, files, by simp [run, hr], ?_⟩
    rcases hanswer with hfail | ⟨hexit, hasks⟩
    · exact Or.inl ⟨hfail, rfl⟩
    · exact Or.inr (Or.inl ⟨hexit, hasks, rfl⟩)
  cases hread : (if job.input == standard then .ok stdin else files.read job.input) with
  | error message =>
    refine ⟨job.unreadable message, files, ?_, Or.inl ⟨⟨rfl, rfl⟩, rfl⟩⟩
    simp only [run, hjob]
    rw [hread]
  | ok source =>
    have hsource := read_source.1 hread
    rw [run_of_job drawn hjob hsource]
    rcases perform_cases job source with ⟨r, hr, hfail⟩ | ⟨r, hr, hexit, hwhy⟩ |
      ⟨t, path, log, hcompile, htree, hlisting, houtput, hpath, hwrite⟩
    · exact ⟨r, files, by rw [hr]; rfl, Or.inl ⟨hfail, rfl⟩⟩
    · exact ⟨r, files, by rw [hr]; rfl, Or.inr (Or.inl ⟨hexit, hasks.asksNoFile hwhy, rfl⟩)⟩
    · have htranslates := hasks.translates hsource hcompile htree hlisting houtput
      rw [hwrite, Job.Result.carryOut]
      rcases files.write_cases drawn path t.code with ⟨message, hfail⟩ |
        ⟨place, hdone, hresolve, hnames⟩
      · exact ⟨_, _, by rw [hfail], Or.inl ⟨⟨rfl, rfl⟩, rfl⟩⟩
      · refine ⟨_, _, by rw [hdone], Or.inr (Or.inr ?_)⟩
        exact ⟨path, t.code, place, rfl, hpath, htranslates, hresolve, hnames, rfl⟩

/-- A run fails with status 1, and then it prints nothing to standard output and no file is touched;
or it succeeds with status 0, and then the only file that may differ is the one at the output. That
happens unless a flag or the output asks for no file, and what is there is the translation of the
input under the flags given. -/
theorem run_does_all_or_nothing (args : List Text) (stdin : Text) (files : FileTree)
    (drawn : Nat → Nat) :
    let reply := (run args stdin files drawn).1
    let files' := (run args stdin files drawn).2
    (reply.exit = 0 ∨ reply.exit = 1) ∧
    (reply.exit = 1 → reply.stdout = [] ∧ files' = files) ∧
    (reply.exit = 0 → (AsksNoFile args ∧ files' = files) ∨
      ∃ output code place, output ≠ standard ∧ Translates args stdin files output code ∧
        files.resolve output = .ok place ∧ files'.contentAt place = some code ∧
        ∀ q, q ≠ place → files'.contentAt q = files.contentAt q) ∧
    (∀ output code, Translates args stdin files output code →
      output = standard ∨ (files.write drawn output code).1 = .ok () → reply.exit = 0) := by
  obtain ⟨reply, files', hrun, hcases⟩ := run_cases args stdin files drawn
  have hexit : ∀ output code, Translates args stdin files output code →
      output = standard ∨ (files.write drawn output code).1 = .ok () → reply.exit = 0 := by
    intro output code h houtput
    have := exit_of_translates h houtput
    rwa [hrun] at this
  simp only [hrun]
  rcases hcases with ⟨⟨hone, hstdout⟩, rfl⟩ | ⟨hzero, hasks, rfl⟩ |
    ⟨output, code, place, hzero, hne, htranslates, hresolve, hnames, rfl⟩
  · exact ⟨Or.inr hone, fun _ => ⟨hstdout, rfl⟩, fun hzero => by omega, hexit⟩
  · exact ⟨Or.inl hzero, fun hone => by omega, fun _ => Or.inl ⟨hasks, rfl⟩, hexit⟩
  · refine ⟨Or.inl hzero, fun hone => by omega, fun _ => Or.inr ?_, hexit⟩
    exact ⟨output, code, place, hne, htranslates, hresolve, FileTree.contentAt_put hnames,
      fun q hq => FileTree.contentAt_put_ne hq⟩

end ThreeAddress.CommandLine
