import Beamline.Proofs.Comparison.Frame
import Beamline.Proofs.Run.Effect
import Beamline.Proofs.Run.Steps

/-!
# Repetition — a run that succeeds can be run again

A run reads its inputs and then does what they say. It sees nothing of its outputs, unless an input
is one of them. So once a run has succeeded, the next one reads what the first has read and finds
everything done already: it succeeds with the same result and leaves the tree as it is.

For the same reason what a run leaves at its outputs is a function of its inputs and its settings,
and of the renderer, which has nothing to go by but what is to be drawn. What stood there before
does not show, however much of it there was.
-/

set_option autoImplicit false

namespace Beamline

open Beamline.Action (files events performed performAll)

namespace Tree

variable {t u : Tree} {path : String} {content : List UInt8}

theorem find_eq_ok_file_iff : t.find path = .ok (.file content) ↔ t.read path = .ok content := by
  unfold read
  cases h : t.find path with
  | error kind => simp
  | ok entry => cases entry <;> simp

end Tree

/-! ## Comparisons -/

namespace Comparison

variable {renderer : Renderer} {s : Settings} {t u : Tree} {figures : List String}

/-- Two ways of saying where outputs stand: by what a run does, and by the list of their paths. What
a run may change is said in the first, what is compared afterwards in the second. -/
theorem outputFile_iff {place : Location} :
    OutputFile s place ↔ ∃ path ∈ outputPaths s, Location.named path = place := by
  unfold OutputFile outputPaths figurePaths
  cases s.writeDerived with
  | true => simp [or_comm, or_and_right, exists_or]
  | false => simp

theorem load_congr {name path : String} (h : t.find path = u.find path) :
    Distribution.load name path t = Distribution.load name path u := by
  unfold Distribution.load
  rw [h]

/-- What is computed depends on the tables alone. Nothing else of the folder is looked at before
everything is computed. -/
theorem report_congr (hinitial : t.find s.initialPath = u.find s.initialPath)
    (hfinal : t.find s.finalPath = u.find s.finalPath) : report s t = report s u := by
  unfold report
  rw [load_congr hinitial, load_congr hfinal]

/-- A run that succeeds has computed a report and performed what is left to do about it. All that is
proved here of comparisons starts from this, as a run that has failed may have stopped anywhere. -/
theorem exists_report_of_run (h : (run s t renderer).result = .ok figures) :
    ∃ log r, report s t = (log, .ok r) ∧ (performAll renderer ⟨t, log⟩ (actions s r)).2 = .ok () ∧
      run s t renderer =
        ⟨⟨(run s t renderer).journal.tree, log ++ events (actions s r)⟩, .ok (figurePaths s)⟩ ∧
      (run s t renderer).journal.tree = (performAll renderer ⟨t, log⟩ (actions s r)).1.tree := by
  rcases hreport : report s t with ⟨log, f | r⟩
  · rw [run_of_report_error renderer hreport] at h
    cases h
  · have hrun := run_of_report_ok renderer hreport
    rw [hrun] at h
    obtain ⟨⟨⟩, hdone, -⟩ := map_eq_ok_iff.mp h
    refine ⟨log, r, rfl, hdone, ?_, by rw [hrun]⟩
    rw [hrun, hdone, ← Action.log_performAll_of_ok hdone]
    rfl

/-- The inputs of a run that succeeds are files, so that they are still what they were as long as
nobody writes to them. -/
theorem exists_read_of_run (h : (run s t renderer).result = .ok figures) :
    (∃ content, t.read s.initialPath = .ok content) ∧
      ∃ content, t.read s.finalPath = .ok content := by
  obtain ⟨log, r, hreport, -⟩ := exists_report_of_run h
  obtain ⟨⟨initial, hinitial⟩, ⟨final, hfinal⟩, -⟩ :=
    (exists_report_iff s t).mp ⟨r, by rw [hreport]⟩
  obtain ⟨content, hfind, -⟩ := hinitial
  obtain ⟨content', hfind', -⟩ := hfinal
  exact ⟨⟨content, Tree.find_eq_ok_file_iff.mp hfind⟩,
    content', Tree.find_eq_ok_file_iff.mp hfind'⟩

/-- A run computes the same where its inputs are read as before. That no output is an input is asked
for in terms of places, since two paths may lead to one file. -/
theorem report_of_changesOnly {outputs folders : Location → Prop}
    (h : (run s t renderer).result = .ok figures) (hchange : t.ChangesOnly outputs folders u)
    (hinitial : ¬ outputs (Location.named s.initialPath))
    (hfinal : ¬ outputs (Location.named s.finalPath)) : report s u = report s t := by
  obtain ⟨⟨content, hread⟩, content', hread'⟩ := exists_read_of_run h
  have hkept := hchange.read hread hinitial
  have hkept' := hchange.read hread' hfinal
  rw [← Tree.find_eq_ok_file_iff] at hread hread' hkept hkept'
  exact report_congr (hkept.trans hread.symm) (hkept'.trans hread'.symm)

/-- **A comparison that succeeds can be run again**, and nothing changes. -/
theorem run_again (h : (run s t renderer).result = .ok figures)
    (hinitial : ¬ OutputFile s (Location.named s.initialPath))
    (hfinal : ¬ OutputFile s (Location.named s.finalPath)) :
    run s (run s t renderer).journal.tree renderer = run s t renderer := by
  obtain ⟨log, r, hreport, hdone, hrun, htree⟩ := exists_report_of_run h
  obtain ⟨hi, hf⟩ := name_of_report hreport
  obtain ⟨names', hnames, hdistinct⟩ := exists_named_actions renderer s hi hf
  have hchange := changesOnly_actions renderer s ⟨t, log⟩ hi hf
  rw [← htree] at hchange
  have hreport' := report_of_changesOnly h hchange hinitial hfinal
  rw [hreport] at hreport'
  have hperform := Action.performAll_again hnames hdistinct hdone log
  rw [← htree] at hperform
  rw [run_of_report_ok renderer hreport', hperform]
  exact hrun.symm

/-- **What a comparison leaves at its outputs depends on its inputs alone.** -/
theorem run_outputs_eq {figures' : List String} (h : (run s t renderer).result = .ok figures)
    (h' : (run s u renderer).result = .ok figures')
    (hinitial : t.read s.initialPath = u.read s.initialPath)
    (hfinal : t.read s.finalPath = u.read s.finalPath) :
    figures = figures' ∧ (run s t renderer).journal.log = (run s u renderer).journal.log ∧
      ∀ output ∈ outputPaths s, ∃ content,
        (run s t renderer).journal.tree.read output = .ok content ∧
        (run s u renderer).journal.tree.read output = .ok content := by
  obtain ⟨⟨content, hread⟩, content', hread'⟩ := exists_read_of_run h
  have hsame : report s t = report s u := by
    refine report_congr ?_ ?_
    · rw [Tree.find_eq_ok_file_iff.mpr hread, Tree.find_eq_ok_file_iff.mpr (hinitial ▸ hread)]
    · rw [Tree.find_eq_ok_file_iff.mpr hread', Tree.find_eq_ok_file_iff.mpr (hfinal ▸ hread')]
  obtain ⟨log, r, hreport, hdone, hrun, htree⟩ := exists_report_of_run h
  obtain ⟨log', r', hreport', hdone', hrun', htree'⟩ := exists_report_of_run h'
  rw [hreport, hreport'] at hsame
  cases hsame
  obtain ⟨hi, hf⟩ := name_of_report hreport
  obtain ⟨names', hnames, hdistinct⟩ := exists_named_actions renderer s hi hf
  refine ⟨?_, ?_, fun output houtput => ?_⟩
  · rw [hrun] at h
    rw [hrun'] at h'
    cases h
    cases h'
    rfl
  · rw [hrun, hrun']
  · rw [← paths_files_actions hi hf (Action.not_refused_of_ok hdone)] at houtput
    obtain ⟨f, hfile, rfl⟩ := List.mem_map.mp houtput
    refine ⟨f.2, ?_, ?_⟩
    · rw [htree]
      exact Action.read_files hnames hdistinct hdone f hfile
    · rw [htree']
      exact Action.read_files hnames hdistinct hdone' f hfile

end Comparison

/-! ## Step runs -/

namespace StepRun

variable {renderer : Renderer} {s : Settings} {drawing : Drawing} {path figure : String}
  {limit : Option Nat} {t u : Tree}

theorem load_congr (h : t.read path = u.read path) :
    StepSeries.load path t = StepSeries.load path u := by
  unfold StepSeries.load
  rw [h]

theorem file_of_mem_actions {f : String × List UInt8} (h : f ∈ files renderer (actions s drawing)) :
    f.1 = figurePath s := by
  obtain ⟨a, ha, hfile⟩ := List.mem_filterMap.mp h
  simp only [actions, List.mem_cons, List.not_mem_nil, or_false] at ha
  rcases ha with rfl | rfl | rfl
  case inr.inl =>
    obtain ⟨picture, -, rfl⟩ := Action.file?_saveFigure.mp hfile
    rfl
  all_goals cases hfile

theorem endsIn_actions :
    ∀ f ∈ files renderer (actions s drawing), ∃ name, Path.EndsIn f.1 name := by
  intro f hf
  rw [file_of_mem_actions hf]
  exact ⟨_, endsIn_figurePath s⟩

theorem filePlace_actions {place : Location}
    (h : Action.FilePlace renderer (actions s drawing) place) :
    place = Location.named (figurePath s) := by
  obtain ⟨f, hf, rfl⟩ := h
  rw [file_of_mem_actions hf]

theorem folderPlace_actions {place : Location} :
    Action.FolderPlace (actions s drawing) place ↔ Location.OnWay s.figuresFolder place := by
  simp [Action.FolderPlace, actions, Action.folder?]

/-- A run that succeeds has one file, the picture that its renderer has drawn. -/
theorem exists_files_actions {j : Journal}
    (h : (performAll renderer j (actions s drawing)).2 = .ok ()) :
    ∃ picture, files renderer (actions s drawing) = [(figurePath s, picture)] := by
  cases hdraw : renderer.draw drawing with
  | ok picture =>
    have hfile := Action.file?_saveFigure.mpr ⟨picture, hdraw, (rfl : (figurePath s, picture) = _)⟩
    refine ⟨picture, ?_⟩
    unfold files actions
    rw [List.filterMap_cons_none rfl, List.filterMap_cons_some hfile, List.filterMap_cons_none rfl,
      List.filterMap_nil]
  | error words =>
    have hmem : .saveFigure (figurePath s) drawing ∈ actions s drawing := by simp [actions]
    exact absurd ⟨_, _, words, rfl, hdraw⟩ (Action.not_refused_of_ok h _ hmem)

theorem named_actions {j : Journal} (h : (performAll renderer j (actions s drawing)).2 = .ok ()) :
    Action.Named (files renderer (actions s drawing)) ["step_series.png"] := by
  obtain ⟨picture, hfiles⟩ := exists_files_actions h
  rw [hfiles]
  exact .cons (endsIn_figurePath s) .nil

/-- Drawing touches the figure and the folders on the way to it. -/
theorem changesOnly_actions (renderer : Renderer) (s : Settings) (drawing : Drawing) (j : Journal) :
    j.tree.ChangesOnly (· = Location.named (figurePath s)) (Location.OnWay s.figuresFolder)
      (performAll renderer j (actions s drawing)).1.tree := by
  exact (Action.changesOnly_performAll endsIn_actions).mono (fun _ => filePlace_actions)
    fun _ => folderPlace_actions.mp

/-- A run that succeeds has loaded a series, echoed all of it and drawn it. -/
theorem exists_series_of_run (h : (run s path limit t renderer).result = .ok figure) :
    ∃ series content, t.read path = .ok content ∧ StepSeries.load path t = .ok series ∧
      (Reader.mk limit).takesAll (Utf8.encode series.echo.toList) = true ∧
      let loaded := Event.loadedSteps series.steps series.particles path
      let left := actions s (drawingOf renderer s series)
      (performAll renderer ⟨t, [loaded]⟩ left).2 = .ok () ∧
      run s path limit t renderer =
        ⟨⟨(run s path limit t renderer).journal.tree, [loaded] ++ events left⟩,
          Utf8.encode series.echo.toList, .ok (figurePath s)⟩ ∧
      (run s path limit t renderer).journal.tree =
        (performAll renderer ⟨t, [loaded]⟩ left).1.tree := by
  cases hload : StepSeries.load path t with
  | error f =>
    rw [run_of_load_error hload] at h
    cases h
  | ok series =>
    cases htakes : (Reader.mk limit).takesAll (Utf8.encode series.echo.toList) with
    | false =>
      rw [run_of_not_takesAll hload htakes] at h
      cases h
    | true =>
      have hrun := run_of_takesAll renderer s hload htakes
      rw [hrun] at h
      obtain ⟨⟨⟩, hdone, -⟩ := map_eq_ok_iff.mp h
      have hread : ∃ content, t.read path = .ok content := by
        unfold StepSeries.load at hload
        cases hread : t.read path with
        | ok content => exact ⟨content, rfl⟩
        | error kind =>
          rw [hread] at hload
          cases hload
      obtain ⟨content, hread⟩ := hread
      refine ⟨series, content, hread, rfl, htakes, hdone, ?_, by rw [hrun]⟩
      rw [hrun, hdone, ← Action.log_performAll_of_ok hdone]
      rfl

/-- **A step run that succeeds can be run again**, and nothing changes. -/
theorem run_again (h : (run s path limit t renderer).result = .ok figure)
    (hpath : Location.named path ≠ Location.named (figurePath s)) :
    run s path limit (run s path limit t renderer).journal.tree renderer =
      run s path limit t renderer := by
  obtain ⟨series, content, hread, hload, htakes, hdone, hrun, htree⟩ := exists_series_of_run h
  let loaded := Event.loadedSteps series.steps series.particles path
  have hchange := changesOnly_actions renderer s (drawingOf renderer s series) ⟨t, [loaded]⟩
  rw [← htree] at hchange
  have hload' := (load_congr ((hchange.read hread hpath).trans hread.symm)).trans hload
  have hperform :=
    Action.performAll_again (named_actions hdone) (List.nodup_singleton _) hdone [loaded]
  rw [← htree] at hperform
  rw [run_of_takesAll renderer s hload' htakes, hperform]
  exact hrun.symm

end StepRun

/-! ## Both runs -/

open Comparison (outputPaths)

/-- **Runs are repeatable**, whatever the renderer. A comparison that succeeds, and neither of whose
inputs is one of its outputs, can be run again at once: the second run has the same result and the
same log, and leaves the tree exactly as the first. So can a step run over an array that is not its
own figure, and its echo is the same as well. And what a comparison that succeeds leaves at its
outputs, which are twenty-eight if it saves its arrays, it leaves there from any other tree in which
its inputs are the same: of what those files held before, nothing remains. -/
theorem runs_repeat (s : Settings) (t : Tree) (renderer : Renderer) :
    (∀ figures, (Comparison.run s t renderer).result = .ok figures →
      (∀ output ∈ outputPaths s, Location.named output ≠ Location.named s.initialPath ∧
        Location.named output ≠ Location.named s.finalPath) →
      Comparison.run s (Comparison.run s t renderer).journal.tree renderer =
        Comparison.run s t renderer) ∧
    (∀ path limit figure, (StepRun.run s path limit t renderer).result = .ok figure →
      Location.named path ≠ Location.named (StepRun.figurePath s) →
      StepRun.run s path limit (StepRun.run s path limit t renderer).journal.tree renderer =
        StepRun.run s path limit t renderer) ∧
    (s.writeDerived = true → (outputPaths s).length = 28) ∧
    ∀ t' figures figures', (Comparison.run s t renderer).result = .ok figures →
      (Comparison.run s t' renderer).result = .ok figures' →
      t.read s.initialPath = t'.read s.initialPath → t.read s.finalPath = t'.read s.finalPath →
      figures = figures' ∧
        (Comparison.run s t renderer).journal.log = (Comparison.run s t' renderer).journal.log ∧
        ∀ output ∈ outputPaths s, ∃ content,
          (Comparison.run s t renderer).journal.tree.read output = .ok content ∧
          (Comparison.run s t' renderer).journal.tree.read output = .ok content := by
  refine ⟨fun figures h hinputs => ?_, fun path limit figure => StepRun.run_again, fun hwrite => ?_,
    fun t' figures figures' => Comparison.run_outputs_eq⟩
  · refine Comparison.run_again h ?_ ?_
    · rintro houtput
      obtain ⟨output, hmem, heq⟩ := Comparison.outputFile_iff.mp houtput
      exact (hinputs output hmem).1 heq
    · rintro houtput
      obtain ⟨output, hmem, heq⟩ := Comparison.outputFile_iff.mp houtput
      exact (hinputs output hmem).2 heq
  · rw [outputPaths, if_pos hwrite]
    rfl

/-- Two particles against three and a series of two steps, over files that are longer than what
replaces them. -/
theorem runs_repeat_two_three :
    let two : List UInt8 := "dt,p\n1e-15,196.5\n-2e-15,nan\n".toUTF8.data.toList
    let three : List UInt8 := "p,dt\n195,0\n196.5,5e-324\n200,inf\n".toUTF8.data.toList
    let array : Encoding := .usual .int8 .little false .one ⟨2, 1, 2, fun step _ _ => step⟩
    let bare := ((Tree.empty.set ["i.csv"] (.file two)).set ["f.csv"] (.file three)).set ["a.npy"]
      (.file array.bytes)
    let stale : Entry := .file (List.replicate 2000 0)
    let t := (((bare.set ["out"] .folder).set ["out", "delz.npy"] stale).set
      ["out", "t-p_norm_py.png"] stale).set ["out", "step_series.png"] stale
    let s : Settings := { Settings.standard with
      initialPath := "i.csv"
      finalPath := "f.csv"
      figuresFolder := "out"
      outputFolder := "out"
      bins := 2
      writeDerived := true
      sizes := { FigureSizes.standard with dpi := 10.0, stepsDpi := 10.0 } }
    let after := (Comparison.run s t).journal.tree
    let drawn := (StepRun.run s "a.npy" none t).journal.tree
    Comparison.run s after = Comparison.run s t ∧
      StepRun.run s "a.npy" none drawn = StepRun.run s "a.npy" none t ∧
      (outputPaths s).length = 28 ∧
      (∀ output ∈ ["out/delz.npy", "out/t-p_norm_py.png"],
        ((after.read output).toOption.map fun content => decide (content.length < 2000)) =
          some true) ∧
      ∀ output ∈ outputPaths s, ∃ content, after.read output = .ok content ∧
        (Comparison.run s bare).journal.tree.read output = .ok content := by
  intro two three array bare stale t s after drawn
  obtain ⟨hok, hshorter⟩ : (Comparison.run s t).result.toBool = true ∧
      ∀ output ∈ ["out/delz.npy", "out/t-p_norm_py.png"],
        ((after.read output).toOption.map fun content => decide (content.length < 2000)) =
          some true := by
    unfold after s t stale bare two three
    decide +kernel
  obtain ⟨figures, hrun⟩ := exists_eq_ok_of_toBool hok
  obtain ⟨figures', hrun'⟩ : ∃ figures, (Comparison.run s bare).result = .ok figures := by
    refine exists_eq_ok_of_toBool ?_
    unfold s bare two three
    decide +kernel
  obtain ⟨figure, hstep⟩ : ∃ figure, (StepRun.run s "a.npy" none t).result = .ok figure := by
    refine exists_eq_ok_of_toBool ?_
    unfold s t stale bare array
    decide +kernel
  have hinputs : ∀ output ∈ outputPaths s, Location.named output ≠ Location.named s.initialPath ∧
      Location.named output ≠ Location.named s.finalPath := by
    unfold s
    decide +kernel
  have hinitial : t.read "i.csv" = bare.read "i.csv" :=
    (Tree.find_eq_ok_file_iff.mp (rfl : t.find "i.csv" = .ok (.file two))).trans
      (Tree.find_eq_ok_file_iff.mp (rfl : bare.find "i.csv" = .ok (.file two))).symm
  have hfinal : t.read "f.csv" = bare.read "f.csv" :=
    (Tree.find_eq_ok_file_iff.mp (rfl : t.find "f.csv" = .ok (.file three))).trans
      (Tree.find_eq_ok_file_iff.mp (rfl : bare.find "f.csv" = .ok (.file three))).symm
  obtain ⟨hagain, hstepAgain, hcount, houtputs⟩ := runs_repeat s t .white
  refine ⟨hagain figures hrun hinputs, hstepAgain "a.npy" none figure hstep (by decide +kernel),
    hcount rfl, hshorter, (houtputs bare figures figures' hrun hrun' hinitial hfinal).2.2⟩

end Beamline
