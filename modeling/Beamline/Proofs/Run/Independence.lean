import Beamline.Proofs.Run.Repetition

/-!
# Independence — the two runs in either order

The two runs share a folder for their figures and nothing else. In it their files have different
names, so what is left to ask for is that no run writes what the other reads, and that no folder
which only the comparison makes is where the step figure goes (`Apart`). Everything else that could
be in the way would have been in the way of one of the runs alone.

The renderer is the same in both. What it makes of a drawing, or that it refuses, does not depend on
the tree, so a drawing that succeeds alone succeeds after the other run as well.
-/

set_option autoImplicit false

namespace Beamline

open Beamline.Action (files events performAll)

/-- Neither run writes an input of the other, and the comparison makes no folder where the step
figure goes. Folders on the way to the figures do not count, both runs make those. -/
structure Apart (s : Settings) (path : String) (t : Tree) : Prop where
  array : ∀ output ∈ Comparison.outputPaths s, Location.named output ≠ Location.named path
  initial : Location.named s.initialPath ≠ Location.named (StepRun.figurePath s)
  final : Location.named s.finalPath ≠ Location.named (StepRun.figurePath s)
  folder : ∀ place, Comparison.OutputFolder s place → ¬ Location.OnWay s.figuresFolder place →
    t.look place = none → place ≠ Location.named (StepRun.figurePath s)

section

variable {renderer : Renderer} {s : Settings} {t : Tree} {r : Comparison.Report}
  {drawing : Drawing} {log log' : List Event}

theorem stepFigure_not_mem_fileNames : "step_series.png" ∉ Comparison.fileNames := by decide +kernel

/-- The step figure is none of the comparison's files. -/
theorem not_outputFile_stepFigure {place : Location} (h : Comparison.OutputFile s place) :
    place ≠ Location.named (StepRun.figurePath s) := by
  have hne : ∀ path name, name ∈ Comparison.fileNames → Path.EndsIn path name →
      Location.named path ≠ Location.named (StepRun.figurePath s) := by
    intro path name hname hends
    refine Location.named_ne hends (StepRun.endsIn_figurePath s) ?_
    rintro rfl
    exact stepFigure_not_mem_fileNames hname
  rcases h with ⟨name, hname, rfl⟩ | ⟨-, name, hname, rfl⟩
  · have hfile := List.mem_append_right (Comparison.arrayNames.map (· ++ ".npy"))
      (List.mem_map_of_mem (f := (· ++ ".png")) hname)
    exact hne _ _ hfile (Path.endsIn_join _ (Comparison.isName_of_mem hfile))
  · have hfile := List.mem_append_left (Comparison.names.map (· ++ ".png"))
      (List.mem_map_of_mem (f := (· ++ ".npy")) hname)
    exact hne _ _ hfile (Path.endsIn_join _ (Comparison.isName_of_mem hfile))

/-- The comparison has no folder where the step figure goes: one that stands there would be in the
way of the figure, and a file that stands there would be in the way of the folder. -/
theorem not_folderPlace_stepFigure {names' : List String}
    (hnames : Action.Named (files renderer (Comparison.actions s r)) names')
    (hdistinct : names'.Nodup)
    (hfolder : ∀ place, Comparison.OutputFolder s place → ¬ Location.OnWay s.figuresFolder place →
      t.look place = none → place ≠ Location.named (StepRun.figurePath s))
    (hstep : (performAll renderer ⟨t, log⟩ (StepRun.actions s drawing)).2 = .ok ())
    (hcomparison : (performAll renderer ⟨t, log'⟩ (Comparison.actions s r)).2 = .ok ())
    {place : Location} (hplace : Action.FolderPlace (Comparison.actions s r) place) :
    place ≠ Location.named (StepRun.figurePath s) := by
  intro hfigure
  have hnamed := StepRun.named_actions hstep
  obtain ⟨picture, hfiles⟩ := StepRun.exists_files_actions hstep
  have hmine : Action.FilePlace renderer (StepRun.actions s drawing) place :=
    ⟨(StepRun.figurePath s, picture), by simp [hfiles], hfigure.symm⟩
  have hnot : ¬ Location.OnWay s.figuresFolder place := fun honway =>
    Action.not_folderPlace_of_filePlace hnamed (List.nodup_singleton _) hstep hmine
      (StepRun.folderPlace_actions.mpr honway)
  cases hlook : t.look place with
  | none =>
    exact hfolder place (Comparison.outputFolder_of_folderPlace hplace) hnot hlook hfigure
  | some entry =>
    cases entry with
    | folder =>
      have hkept :=
        (StepRun.changesOnly_actions renderer s drawing ⟨t, log⟩).keepsFolders place hlook
      obtain ⟨f, hf, hthere⟩ := hmine
      rw [(Action.look_performAll hnamed (List.nodup_singleton _) hstep place).1 f hf hthere]
        at hkept
      cases hkept
    | file content =>
      have hmade := (Action.look_performAll hnames hdistinct hcomparison place).2.1 hplace
      have hchange := Action.changesOnly_performAll (j := ⟨t, log'⟩) hnames.endsIn place
      rw [hmade, hlook] at hchange
      simp at hchange

end

/-- **The two runs are independent**, whatever the renderer. Let a step run and a comparison succeed
from one tree, and be apart. Then each of them succeeds after the other as it does alone, with the
same result, the same log and the same echo; and the trees at the end are equal. -/
theorem runs_independent {renderer : Renderer} {s : Settings} {path figure : String}
    {limit : Option Nat} {t : Tree} {figures : List String}
    (hstep : (StepRun.run s path limit t renderer).result = .ok figure)
    (hcomparison : (Comparison.run s t renderer).result = .ok figures) (hapart : Apart s path t) :
    let step := StepRun.run s path limit t renderer
    let comparison := Comparison.run s t renderer
    let comparisonAfter := Comparison.run s step.journal.tree renderer
    let stepAfter := StepRun.run s path limit comparison.journal.tree renderer
    comparisonAfter.result = .ok figures ∧
      comparisonAfter.journal.log = comparison.journal.log ∧
      stepAfter.result = .ok figure ∧
      stepAfter.echoed = step.echoed ∧
      stepAfter.journal.log = step.journal.log ∧
      comparisonAfter.journal.tree = stepAfter.journal.tree := by
  intro step comparison comparisonAfter stepAfter
  obtain ⟨series, content, hread, hload, htakes, hdone, hrun, htree⟩ :=
    StepRun.exists_series_of_run hstep
  obtain ⟨log, r, hreport, hdone', hrun', htree'⟩ := Comparison.exists_report_of_run hcomparison
  obtain ⟨hi, hf⟩ := Comparison.name_of_report hreport
  obtain ⟨names', hnames, hdistinct⟩ := Comparison.exists_named_actions renderer s hi hf
  have hnamed := StepRun.named_actions hdone
  let loaded := Event.loadedSteps series.steps series.particles path
  let drawing := StepRun.drawingOf renderer s series
  -- Neither sees the other's files.
  have hchange := StepRun.changesOnly_actions renderer s drawing ⟨t, [loaded]⟩
  rw [← htree] at hchange
  have hchange' := Comparison.changesOnly_actions renderer s ⟨t, log⟩ hi hf
  rw [← htree'] at hchange'
  have hreportAfter :=
    Comparison.report_of_changesOnly hcomparison hchange hapart.initial hapart.final
  rw [hreport] at hreportAfter
  have hloadAfter : StepSeries.load path comparison.journal.tree = .ok series := by
    refine (StepRun.load_congr ((hchange'.read hread ?_).trans hread.symm)).trans hload
    intro houtput
    obtain ⟨output, hmem, heq⟩ := Comparison.outputFile_iff.mp houtput
    exact hapart.array output hmem heq
  -- Nor is one in the other's way.
  have hcomm := Action.performAll_comm hnamed (List.nodup_singleton _) hnames hdistinct
    ?files ?file ?folder hdone hdone'
  case files =>
    intro place hfigure hfile
    have houtput := Comparison.outputFile_of_filePlace (Comparison.names_arrays hi hf) hfile
    exact not_outputFile_stepFigure houtput (StepRun.filePlace_actions hfigure)
  case file =>
    intro place hfigure hplace
    exact not_folderPlace_stepFigure hnames hdistinct hapart.folder hdone hdone' hplace
      (StepRun.filePlace_actions hfigure)
  case folder =>
    intro place hplace hfile
    refine Action.not_folderPlace_of_filePlace hnames hdistinct hdone' hfile ?_
    exact ⟨.createFigures s.figuresFolder, List.mem_append_right _ List.mem_cons_self, _, rfl,
      StepRun.folderPlace_actions.mp hplace⟩
  rw [← htree, ← htree'] at hcomm
  obtain ⟨hthen, hthen', htrees⟩ := hcomm
  have hafter : comparisonAfter = _ := Comparison.run_of_report_ok renderer hreportAfter
  have hafter' : stepAfter = _ := StepRun.run_of_takesAll renderer s hloadAfter htakes
  rw [hrun'] at hcomparison
  rw [hrun] at hstep
  refine ⟨?_, ?_, ?_, ?_, ?_, ?_⟩
  · rw [hafter, hthen]
    exact hcomparison
  · rw [hafter]
    exact (Action.log_performAll_of_ok hthen).trans (congrArg (·.journal.log) hrun').symm
  · rw [hafter', hthen']
    exact hstep
  · rw [hafter']
    exact (congrArg (·.echoed) hrun).symm
  · rw [hafter']
    exact (Action.log_performAll_of_ok hthen').trans (congrArg (·.journal.log) hrun).symm
  · rw [hafter, hafter']
    exact htrees

/-- Two particles against three and a series of two steps. The arrays go into a folder that already
holds a longer one, and the figures into one that is still to be made. -/
theorem runs_independent_two_three :
    let two : List UInt8 := "dt,p\n1e-15,196.5\n-2e-15,nan\n".toUTF8.data.toList
    let three : List UInt8 := "p,dt\n195,0\n196.5,5e-324\n200,inf\n".toUTF8.data.toList
    let array : Encoding := .usual .int8 .little false .one ⟨2, 1, 2, fun step _ _ => step⟩
    let t := (((((Tree.empty.set ["i.csv"] (.file two)).set ["f.csv"] (.file three)).set ["a.npy"]
      (.file array.bytes)).set ["out"] .folder).set ["out", "arrays"] .folder).set
      ["out", "arrays", "delz.npy"] (.file (List.replicate 2000 0))
    let s : Settings := { Settings.standard with
      initialPath := "i.csv"
      finalPath := "f.csv"
      figuresFolder := "out/figures"
      outputFolder := "out/arrays"
      bins := 2
      writeDerived := true }
    (∃ figures, (Comparison.run s (StepRun.run s "a.npy" none t).journal.tree).result =
      .ok figures) ∧
      (StepRun.run s "a.npy" none (Comparison.run s t).journal.tree).echoed =
        (StepRun.run s "a.npy" none t).echoed ∧
      (Comparison.run s (StepRun.run s "a.npy" none t).journal.tree).journal.tree =
        (StepRun.run s "a.npy" none (Comparison.run s t).journal.tree).journal.tree := by
  intro two three array t s
  obtain ⟨figure, hstep⟩ : ∃ figure, (StepRun.run s "a.npy" none t).result = .ok figure := by
    refine exists_eq_ok_of_toBool ?_
    unfold s t array two three
    decide +kernel
  obtain ⟨figures, hcomparison⟩ : ∃ figures, (Comparison.run s t).result = .ok figures := by
    refine exists_eq_ok_of_toBool ?_
    unfold s t array two three
    decide +kernel
  have hapart : Apart s "a.npy" t := by
    refine ⟨?_, ?_, ?_, fun place houtput hnot _ => ?_⟩
    · unfold s
      decide +kernel
    · unfold s
      decide +kernel
    · unfold s
      decide +kernel
    · -- Of the folders on the way to the arrays none is called as the figure.
      have hother : ∀ front ∈ (Path.steps "out/arrays").inits,
          Location.along front ≠ Location.named (StepRun.figurePath s) := by
        unfold s
        decide +kernel
      rcases houtput with honway | ⟨-, front, hfront, rfl⟩
      · exact absurd honway hnot
      · exact hother front ((List.mem_inits _ _).mpr hfront)
  obtain ⟨hresult, -, -, hecho, -, htrees⟩ := runs_independent hstep hcomparison hapart
  exact ⟨⟨figures, hresult⟩, hecho, htrees⟩

end Beamline
