import Beamline.CommandLine
import Beamline.Proofs.Outcome

/-!
# Command lines — what the arguments say, and what the programs show

The arguments of `plot_steps` are read off a small grammar: they name one file (`NamesFile`), they
ask for the help or the version (`Asks`), or they are faulty, and which of these they do is the
first thing that counts. Where they name a file, the program is the library: it takes the settings
that hold and makes one step run, and shows how that went (`Exit.Shows`). `compare_dists` does the
same with a comparison, and its arguments say nothing.

What is shown of a failure is the outermost part of its message. There is one, as every failure
either interrupts a task or has words of its own (`Outcome.Speaks`). It is the last line on the
error output and not the first: before it comes whatever the logger writes of what the run has
reported until then, and a path with a line end in it makes two lines of one. So only where nothing
is written before it, and it is a single line, is it the first line (`Exit.Shows.first`,
`firstLine_not_complaint`).
-/

set_option autoImplicit false

namespace Beamline

/-! ## Failures that speak -/

namespace Outcome

variable {α β : Type} {task : Task} {cause : Cause} {x : Outcome α} {next : α → Outcome β}

/-- Whatever the failure, its message has an outermost part. A failure that is bare, as those of the
operating system are below any task, has none; so this is a fact about where failures come from. -/
def Speaks (x : Outcome α) : Prop := ∀ f, x = .error f → f.parts ≠ []

theorem speaks_ok (a : α) : Speaks (.ok a : Outcome α) := by
  intro f h
  cases h

theorem speaks_fail (h : cause.text? ≠ none) : Speaks (fail cause : Outcome α) := by
  intro f hf
  cases hf
  obtain ⟨text, htext⟩ := Option.ne_none_iff_exists'.mp h
  simp [Failure.parts, Failure.of, Failure.words?, htext]

/-- A refused drawing has the words of the renderer to show, and the cause's own before them. -/
theorem speaks_refusal (words : String) :
    Speaks (.error (Failure.ofRefusal words) : Outcome α) := by
  intro f hf
  cases hf
  simp [Failure.parts, Failure.ofRefusal, Failure.words?, Cause.text?]

/-- A failure speaks, whatever it is that is not had. -/
theorem Speaks.error {f : Failure} (h : Speaks (.error f : Outcome α)) :
    Speaks (.error f : Outcome β) := by
  intro g hg
  cases hg
  exact h f rfl

/-- A failure within a task says at least which, whatever is the matter. -/
theorem speaks_during (task : Task) (x : Outcome α) : Speaks (during task x) := by
  intro f hf
  obtain ⟨g, -, rfl⟩ := during_eq_error_iff.mp hf
  simp [Failure.parts, Failure.during]

/-- A chain of steps speaks if each step does. -/
theorem Speaks.bind (hx : Speaks x) (hnext : ∀ a, Speaks (next a)) : Speaks (x >>= next) := by
  intro f hf
  rcases bind_eq_error_iff.mp hf with hfirst | ⟨a, -, hsecond⟩
  · exact hx f hfirst
  · exact hnext a f hsecond

theorem Speaks.map (hx : Speaks x) (g : α → β) : Speaks (x.map g) := by
  cases x with
  | ok a => exact speaks_ok (g a)
  | error e =>
    intro f hf
    cases hf
    exact hx e rfl

end Outcome

section

open Outcome

theorem Settings.speaks_current (t : Tree) : (Settings.current t).Speaks := by
  unfold Settings.current Settings.load Settings.ofFile
  split
  · split
    · exact speaks_during _ _
    · split
      · exact speaks_during _ _
      · split
        · exact speaks_ok _
        · exact speaks_during _ _
  · exact speaks_ok _

theorem Distribution.speaks_load (name path : String) (t : Tree) :
    (Distribution.load name path t).Speaks := by
  unfold Distribution.load
  split <;> exact speaks_during _ _

/-- One kind of elements after another is tried. Where none of them fits, there are words for
that. -/
theorem StepSeries.speaks_ofFileTrying (path : String) (bytes : List UInt8)
    (es : List Npy.Element) :
    (StepSeries.ofFileTrying path bytes es).Speaks := by
  induction es with
  | nil => exact speaks_fail (by rintro ⟨⟩)
  | cons e es ih =>
    unfold StepSeries.ofFileTrying
    split
    next cube _ =>
      unfold StepSeries.ofCube
      split
      · exact speaks_ok _
      · exact speaks_fail (by rintro ⟨⟩)
    next => exact ih
    next => exact speaks_during _ _

theorem StepSeries.speaks_load (path : String) (t : Tree) : (StepSeries.load path t).Speaks := by
  unfold StepSeries.load
  split
  · exact speaks_during _ _
  · exact StepSeries.speaks_ofFileTrying _ _ _

theorem Histogram.speaks_ofValues (values : List Binary64) (bins : Nat) :
    (Histogram.ofValues values bins).Speaks := by
  unfold Histogram.ofValues
  split
  · exact speaks_ok _
  · exact speaks_fail (by rintro ⟨⟩)

theorem Action.speaks_create (j : Journal) (folder : String) (task : Task) :
    (Action.create j folder task).2.Speaks := by
  unfold Action.create
  split
  next => exact speaks_ok ()
  next kind _ => exact speaks_during task (fail (.io kind))

theorem Action.speaks_perform (renderer : Renderer) (j : Journal) (a : Action) :
    (a.perform renderer j).2.Speaks := by
  cases a with
  | createOutput folder => exact Action.speaks_create j folder .createOutput
  | createFigures folder => exact Action.speaks_create j folder .createFigures
  | saveArray folder name values =>
    unfold Action.perform
    dsimp only
    split
    next => exact speaks_ok ()
    next kind _ => exact speaks_during (.saveArray name) (fail (.io kind))
  | saveFigure path drawing =>
    unfold Action.perform
    dsimp only
    split
    next words _ => exact speaks_refusal words
    next =>
      split
      next => exact speaks_ok ()
      next => exact speaks_during (.saveFigure path) (fail .drawing)
  | report event => exact speaks_ok ()

/-- What is performed fails in one of the actions, and all of them speak. -/
theorem Action.speaks_performAll (renderer : Renderer) (j : Journal) (as : List Action) :
    (Action.performAll renderer j as).2.Speaks := by
  induction as generalizing j with
  | nil => exact speaks_ok ()
  | cons a as ih =>
    unfold Action.performAll
    split
    next => exact ih _
    next => exact Action.speaks_perform renderer j a

theorem StepRun.speaks_run (s : Settings) (path : String) (limit : Option Nat) (t : Tree)
    (renderer : Renderer) : (StepRun.run s path limit t renderer).result.Speaks := by
  have hload := StepSeries.speaks_load path t
  unfold StepRun.run
  split
  next f hf =>
    rw [hf] at hload
    exact hload.error
  next =>
    dsimp only
    split
    next kind _ => exact speaks_during .echoSeries (fail (.io kind))
    next => exact (Action.speaks_performAll _ _ _).map _

/-- Up to the first failure, or to the end. -/
theorem Comparison.speaks_report (s : Settings) (t : Tree) : (Comparison.report s t).2.Speaks := by
  have hinitial := Distribution.speaks_load "initial" s.initialPath t
  have hfinal := Distribution.speaks_load "final" s.finalPath t
  unfold Comparison.report
  split
  next f hf =>
    rw [hf] at hinitial
    exact hinitial.error
  next =>
    dsimp only
    split
    next f hf =>
      rw [hf] at hfinal
      exact hfinal.error
    next =>
      unfold Comparison.Report.ofDistributions
      have hhistogram := fun values => Histogram.speaks_ofValues values s.bins
      exact (hhistogram _).bind fun _ => (hhistogram _).bind fun _ => (hhistogram _).bind fun _ =>
        (hhistogram _).bind fun _ => speaks_ok _

theorem Comparison.speaks_run (s : Settings) (t : Tree) (renderer : Renderer) :
    (Comparison.run s t renderer).result.Speaks := by
  have hreport := Comparison.speaks_report s t
  unfold Comparison.run
  split
  next f hf =>
    rw [hf] at hreport
    exact hreport.error
  next => exact (Action.speaks_performAll _ _ _).map _

end

namespace CommandLine

/-! ## What arguments say -/

/-- A text that stands for a file: any but the empty one and the options. -/
structure IsFile (arg : String) : Prop where
  ne_empty : arg ≠ ""
  not_option : isOption arg = false

/-- The arguments name one file, and say nothing else. After a double minus, an option is a file as
well. -/
inductive NamesFile (path : String) : List String → Prop where
  | plain (h : IsFile path) : NamesFile path [path]
  | ended (h : IsFile path) : NamesFile path [path, "--"]
  | marked (h : path ≠ "") : NamesFile path ["--", path]

/-- The arguments ask for something other than a run, at once or after one file. What follows is not
looked at. -/
inductive Asks (request : Request) : List String → Prop where
  | first {arg : String} {rest : List String} (h : option? arg = some request) :
      Asks request (arg :: rest)
  | second {path arg : String} {rest : List String} (hpath : IsFile path)
      (h : option? arg = some request) : Asks request (path :: arg :: rest)

/-- The arguments neither name a file nor ask for anything. -/
structure Faulty (args : List String) : Prop where
  not_names : ∀ path, ¬ NamesFile path args
  not_asks : ∀ request, ¬ Asks request args

section

variable {args rest : List String} {arg path : String} {request : Request}

theorem IsFile.ne_mark (h : IsFile arg) : arg ≠ "--" := by
  rintro rfl
  exact absurd h.not_option (by decide)

theorem isOption_of_option? (h : option? arg = some request) : isOption arg = true := by
  unfold option? at h
  split at h
  next harg =>
    rw [harg]
    decide
  next =>
    split at h
    next harg =>
      rw [harg]
      decide
    next =>
      split at h
      next hletters => simp [isOption, hletters]
      next hletters => simp [isOption, hletters]
      next => cases h

theorem ne_mark_of_option? (h : option? arg = some request) : arg ≠ "--" := by
  rintro rfl
  have hnone : option? "--" = none := by decide
  rw [hnone] at h
  cases h

theorem option?_ne_run : option? arg ≠ some (.run path) := by
  unfold option?
  split
  · simp
  · split
    · simp
    · split <;> simp

/-- After a file, only the end of the arguments leads to a run, and only an option to anything else.
A double minus at the end is no second file. -/
theorem requestFrom_some {file : String} : requestFrom (some file) args = some request ↔
    ((args = [] ∨ args = ["--"]) ∧ request = .run file) ∨
      ∃ arg rest, args = arg :: rest ∧ option? arg = some request := by
  cases args with
  | nil => simp [requestFrom, eq_comm]
  | cons arg rest =>
    unfold requestFrom
    by_cases hmark : arg = "--"
    · subst hmark
      have hnone : option? "--" = none := by decide
      cases rest with
      | nil => simp [files?, hnone, eq_comm]
      | cons next rest => simp [files?, hnone]
    · rw [if_neg hmark]
      cases hoption : isOption arg with
      | true => simp [hmark]
      | false =>
        have hnone : option? arg ≠ some request := by
          intro h
          rw [isOption_of_option? h] at hoption
          cases hoption
        simp [hmark, hnone]

/-- The first file is taken down, and what follows decides. -/
theorem request?_cons_of_isFile (h : IsFile arg) :
    request? (arg :: rest) = requestFrom (some arg) rest := by
  have hempty : arg.isEmpty = false := by
    rw [← Bool.not_eq_true, String.isEmpty_iff]
    exact h.ne_empty
  rw [request?, requestFrom, if_neg h.ne_mark, h.not_option, hempty]
  rfl

theorem request?_cons_of_isOption (h : isOption arg = true) (hmark : arg ≠ "--") :
    request? (arg :: rest) = option? arg := by
  rw [request?, requestFrom, if_neg hmark, if_pos h]

/-- After a double minus, one text is a file. -/
theorem request?_mark : request? ("--" :: rest) = some request ↔
    ∃ path, path ≠ "" ∧ rest = [path] ∧ request = .run path := by
  have hfiles : request? ("--" :: rest) = files? none rest := rfl
  rw [hfiles]
  match rest with
  | [] => simp [files?]
  | [path] =>
    have hone : files? none [path] = if path.isEmpty then none else some (.run path) := rfl
    rw [hone]
    by_cases hempty : path = ""
    · simp [hempty]
    · simp [hempty, eq_comm (b := request)]
  | _ :: _ :: _ => simp [files?]

/-- An argument is the double minus, another option, the empty text or a file. The reader asks in
this order, so these are the cases of what is requested. -/
theorem arg_cases (arg : String) :
    arg = "--" ∨ (isOption arg = true ∧ arg ≠ "--") ∨ arg = "" ∨ IsFile arg := by
  by_cases hmark : arg = "--"
  · exact Or.inl hmark
  · cases hoption : isOption arg with
    | true => exact Or.inr (Or.inl ⟨rfl, hmark⟩)
    | false =>
      by_cases hempty : arg = ""
      · exact Or.inr (Or.inr (Or.inl hempty))
      · exact Or.inr (Or.inr (Or.inr ⟨hempty, hoption⟩))

/-- **What is requested is what the arguments say.** The grammar is the right-hand side, and has no
reader in it. -/
theorem request?_eq_some_iff : request? args = some request ↔
    (∃ path, request = .run path ∧ NamesFile path args) ∨ Asks request args := by
  constructor
  · intro h
    cases args with
    | nil => cases h
    | cons arg rest =>
      rcases arg_cases arg with rfl | ⟨hoption, hmark⟩ | rfl | hfile
      · obtain ⟨path, hne, rfl, rfl⟩ := request?_mark.mp h
        exact Or.inl ⟨path, rfl, .marked hne⟩
      · rw [request?_cons_of_isOption hoption hmark] at h
        exact Or.inr (.first h)
      · cases h
      · rw [request?_cons_of_isFile hfile, requestFrom_some] at h
        rcases h with ⟨rfl | rfl, rfl⟩ | ⟨next, rest, rfl, h⟩
        · exact Or.inl ⟨arg, rfl, .plain hfile⟩
        · exact Or.inl ⟨arg, rfl, .ended hfile⟩
        · exact Or.inr (.second hfile h)
  · rintro (⟨path, rfl, hnames⟩ | hasks)
    · cases hnames with
      | plain h =>
        rw [request?_cons_of_isFile h, requestFrom_some]
        exact Or.inl ⟨Or.inl rfl, rfl⟩
      | ended h =>
        rw [request?_cons_of_isFile h, requestFrom_some]
        exact Or.inl ⟨Or.inr rfl, rfl⟩
      | marked h => exact request?_mark.mpr ⟨path, h, rfl, rfl⟩
    · cases hasks with
      | first h => rw [request?_cons_of_isOption (isOption_of_option? h) (ne_mark_of_option? h), h]
      | second hpath h =>
        rw [request?_cons_of_isFile hpath, requestFrom_some]
        exact Or.inr ⟨_, _, rfl, h⟩

theorem not_asks_run : ¬ Asks (.run path) args := by
  intro h
  cases h with
  | first h => exact option?_ne_run h
  | second _ h => exact option?_ne_run h

theorem request?_of_namesFile (h : NamesFile path args) : request? args = some (.run path) :=
  request?_eq_some_iff.mpr (Or.inl ⟨path, rfl, h⟩)

theorem request?_of_asks (h : Asks request args) : request? args = some request :=
  request?_eq_some_iff.mpr (Or.inr h)

/-- **Nothing is requested where the arguments are faulty.** -/
theorem request?_eq_none_iff : request? args = none ↔ Faulty args := by
  constructor
  · intro h
    refine ⟨fun path hnames => ?_, fun request hasks => ?_⟩
    · rw [request?_of_namesFile hnames] at h
      cases h
    · rw [request?_of_asks hasks] at h
      cases h
  · intro h
    cases hrequest : request? args with
    | none => rfl
    | some request =>
      rcases request?_eq_some_iff.mp hrequest with ⟨path, -, hnames⟩ | hasks
      · exact absurd hnames (h.not_names path)
      · exact absurd hasks (h.not_asks request)

-- No argument, a second file, and an option that there is not.

theorem faulty_nil : Faulty [] := request?_eq_none_iff.mp rfl

theorem faulty_of_isFile {other : String} (h : IsFile path) (h' : IsFile other) :
    Faulty (path :: other :: rest) := by
  rw [← request?_eq_none_iff, request?_cons_of_isFile h, requestFrom, if_neg h'.ne_mark,
    h'.not_option]
  rfl

theorem faulty_of_isOption (h : isOption arg = true) (hmark : arg ≠ "--")
    (hnone : option? arg = none) :
    Faulty (arg :: rest) := by
  rw [← request?_eq_none_iff, request?_cons_of_isOption h hmark, hnone]

end

/-! ## What is shown -/

/-- The first line of a text, without its end. -/
def firstLine (text : String) : String := String.ofList (text.toList.takeWhile (· ≠ '\n'))

theorem firstLine_line {line : String} (h : '\n' ∉ line.toList) :
    firstLine (line ++ "\n") = line := by
  have hline : ∀ c ∈ line.toList, decide (c ≠ '\n') = true := by
    intro c hc
    refine decide_eq_true ?_
    rintro rfl
    exact h hc
  unfold firstLine
  rw [String.toList_append, List.takeWhile_append_of_pos hline]
  simp

/-- An exit shows how a call went: what it left behind and handed over, that it succeeded, or the
outermost part of the message if it did not. The error output, up to where a list of causes may
follow, is exactly what the logger writes of the reports, and after that the complaint if there is
one. -/
structure Exit.Shows {α : Type} (e : Exit) (j : Journal) (output : List UInt8)
    (result : Outcome α) : Prop where
  tree : e.tree = j.tree
  output : e.output = output
  code : e.code = 0 ↔ ∃ a, result = .ok a
  quiet : ∀ a logger, result = .ok a → e.errorOutput logger = logger.text j.log
  complaint : ∀ f logger, result = .error f → ∃ outermost inner, f.parts = outermost :: inner ∧
    e.errorOutput logger = logger.text j.log ++ ("Error: " ++ outermost ++ "\n")
  /-- Where the logger has written nothing, a complaint of one line is the first line. -/
  first : ∀ f outermost inner logger, result = .error f → f.parts = outermost :: inner →
    logger.text j.log = "" → '\n' ∉ outermost.toList →
      firstLine (e.errorOutput logger) = "Error: " ++ outermost

section

variable {α : Type} {j : Journal} {output : List UInt8}

/-- The error output of a failure: the log first, as it has been written by the time that the
failure is shown. -/
theorem errorOutput_failed {f : Failure} {outermost : String} {inner : List String}
    (h : f.parts = outermost :: inner) (logger : Logger) :
    (Exit.failed output j f).errorOutput logger =
      logger.text j.log ++ ("Error: " ++ outermost ++ "\n") := by
  simp [Exit.errorOutput, Exit.failed, complaintOf, Failure.headline, h]

/-- A failure that speaks is shown. -/
theorem shows_failed {f : Failure} (h : f.parts ≠ []) :
    (Exit.failed output j f).Shows j output (.error f : Outcome α) where
  tree := rfl
  output := rfl
  code := by simp [Exit.failed]
  quiet := by
    rintro a logger ⟨⟩
  complaint := by
    rintro g logger ⟨⟩
    obtain ⟨outermost, inner, hparts⟩ := List.exists_cons_of_ne_nil h
    exact ⟨outermost, inner, hparts, errorOutput_failed hparts logger⟩
  first := by
    rintro g outermost inner logger ⟨⟩ hparts hsilent hline
    rw [errorOutput_failed hparts, hsilent, String.empty_append]
    exact firstLine_line (by simp [hline])

/-- And so is whatever comes of a run. -/
theorem shows_ofOutcome {result : Outcome α} (h : result.Speaks) :
    (Exit.ofOutcome output j result).Shows j output result := by
  cases result with
  | error f => exact shows_failed (h f rfl)
  | ok a =>
    refine ⟨rfl, rfl, by simp [Exit.ofOutcome], fun _ logger _ => ?_, by rintro f logger ⟨⟩,
      by rintro f outermost inner logger ⟨⟩⟩
    simp [Exit.errorOutput, Exit.ofOutcome]

end

/-- **The programs agree with the library**, in every folder and for all arguments.

With one file, `plot_steps` shows how it goes to take the settings that hold and then make a step
run over the file, with everything echoed. With faulty arguments it complains about those and writes
nothing else, whatever the folder, and asked for the help or the version it gives it; either way the
folder is left alone. One of the three it is. `compare_dists` shows how it goes to take the settings
that hold and then make a comparison, and prints nothing. -/
theorem programs_agree (args : List String) (t : Tree) (renderer : Renderer) :
    (∀ path, NamesFile path args →
      match Settings.current t with
      | .error f =>
        (Program.plotSteps.run args t renderer).Shows ⟨t, []⟩ [] (.error f : Outcome String)
      | .ok s =>
        let r := StepRun.run s path none t renderer
        (Program.plotSteps.run args t renderer).Shows r.journal r.echoed r.result) ∧
    (Faulty args → (Program.plotSteps.run args t renderer).code ≠ 0 ∧
      (∀ logger, (Program.plotSteps.run args t renderer).errorOutput logger =
        "Error: Provide one input file\n") ∧
      (Program.plotSteps.run args t renderer).output = [] ∧
      (Program.plotSteps.run args t renderer).tree = t) ∧
    (Asks .help args ∨ Asks .version args →
      (Program.plotSteps.run args t renderer).code = 0 ∧
      (Program.plotSteps.run args t renderer).tree = t) ∧
    ((∃ path, NamesFile path args) ∨ Faulty args ∨ Asks .help args ∨ Asks .version args) ∧
    match Settings.current t with
    | .error f =>
      (Program.compareDistributions.run args t renderer).Shows ⟨t, []⟩ []
        (.error f : Outcome (List String))
    | .ok s =>
      let r := Comparison.run s t renderer
      (Program.compareDistributions.run args t renderer).Shows r.journal [] r.result := by
  have hcurrent := Settings.speaks_current t
  refine ⟨fun path hnames => ?_, fun hfaulty => ?_, fun hasks => ?_, ?_, ?_⟩
  · have hrequest := request?_of_namesFile hnames
    cases hs : Settings.current t with
    | error f =>
      have hrun : Program.plotSteps.run args t renderer = Exit.failed [] ⟨t, []⟩ f := by
        simp only [Program.run, plotSteps, hrequest, hs]
      rw [hrun]
      exact shows_failed (hcurrent f hs)
    | ok s =>
      have hrun : Program.plotSteps.run args t renderer =
          Exit.ofOutcome (StepRun.run s path none t renderer).echoed
            (StepRun.run s path none t renderer).journal
            (StepRun.run s path none t renderer).result := by
        simp only [Program.run, plotSteps, hrequest, hs]
      dsimp only
      rw [hrun]
      exact shows_ofOutcome (StepRun.speaks_run s path none t renderer)
  · have hrun : Program.plotSteps.run args t renderer =
        ⟨1, [], [], some (complaintOf "Provide one input file"), t⟩ := by
      simp only [Program.run, plotSteps, request?_eq_none_iff.mpr hfaulty]
    rw [hrun]
    exact ⟨Nat.one_ne_zero, fun logger => rfl, rfl, rfl⟩
  · rcases hasks with hasks | hasks
    · simp [Program.run, plotSteps, request?_of_asks hasks]
    · simp [Program.run, plotSteps, request?_of_asks hasks]
  · cases hrequest : request? args with
    | none => exact Or.inr (Or.inl (request?_eq_none_iff.mp hrequest))
    | some request =>
      rcases request?_eq_some_iff.mp hrequest with ⟨path, -, hnames⟩ | hasks
      · exact Or.inl ⟨path, hnames⟩
      · cases request with
        | run path => exact absurd hasks not_asks_run
        | help => exact Or.inr (Or.inr (Or.inl hasks))
        | version => exact Or.inr (Or.inr (Or.inr hasks))
  · cases hs : Settings.current t with
    | error f =>
      have hrun : Program.compareDistributions.run args t renderer = Exit.failed [] ⟨t, []⟩ f := by
        simp only [Program.run, compareDistributions, hs]
      rw [hrun]
      exact shows_failed (hcurrent f hs)
    | ok s =>
      have hrun : Program.compareDistributions.run args t renderer =
          Exit.ofOutcome [] (Comparison.run s t renderer).journal
            (Comparison.run s t renderer).result := by
        simp only [Program.run, compareDistributions, hs]
      dsimp only
      rw [hrun]
      exact shows_ofOutcome (Comparison.speaks_run s t renderer)

/-- A complaint need not be the first line. With a good initial table and no final one, what comes
first is that the initial table has been loaded; and of a complaint about a path with a line end in
it, the first line is only the beginning. -/
theorem firstLine_not_complaint :
    let logger := Logger.usual fun _ _ => "2024-01-01T00:00:00Z INFO  beam_plots"
    let table := "dt,p\n1e-15,196.5\n".toUTF8.data.toList
    let t := (Tree.empty.set ["output"] .folder).set ["output", "initial_dist.csv"] (.file table)
    let f : Failure := ⟨[.openDistribution "./output/final_dist.csv"], .io .notFound, none⟩
    let g : Failure := ⟨[.readSeries "a\nb"], .io .notFound, none⟩
    (Settings.current t = .ok .standard ∧ (Comparison.run .standard t).result = .error f ∧
      firstLine ((Program.compareDistributions.run [] t).errorOutput logger) ≠
        "Error: " ++ f.headline) ∧
    Settings.current Tree.empty = .ok .standard ∧
      (StepRun.run .standard "a\nb" none Tree.empty).result = .error g ∧
      firstLine ((Program.plotSteps.run ["a\nb"] Tree.empty).errorOutput logger) ≠
        "Error: " ++ g.headline := by
  intro logger table t f g
  refine ⟨⟨rfl, rfl, ?_⟩, rfl, rfl, ?_⟩
  · unfold t table logger f
    decide +kernel
  · unfold logger g
    decide +kernel

example : (Program.plotSteps.run ["--", "-a.npy"] Tree.empty).errorOutput .silent =
    "Error: Could not read step series from -a.npy\n" := by
  decide +kernel

end CommandLine

end Beamline
