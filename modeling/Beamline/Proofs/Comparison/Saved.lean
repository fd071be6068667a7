import Beamline.Proofs.Comparison.Inputs
import Beamline.Proofs.Npy.Vector
import Beamline.Proofs.Run.Effect

/-!
# Saved arrays — what a comparison leaves on disk

A comparison writes one file after another, twenty-one arrays and seven figures. Their names are
fixed (`fileNames`) and all different, so a run that succeeds leaves every file as it wrote it,
whatever the two folders are and whatever was there before. The rest is about one file at a time: an
array is written as a vector file, and a vector file gives its values back.
-/

set_option autoImplicit false

namespace Beamline
namespace Comparison

open Beamline.Action (file? files arrayPath)

/-! ## What a folder holds -/

/-- A folder holds an array under a name: its file is a vector of the values. The file is read by
its path, through whatever the folder is. -/
def HoldsArray (t : Tree) (folder name : String) (values : List Binary64) : Prop :=
  ∃ bytes, t.read (Path.join folder (name ++ ".npy")) = .ok bytes ∧ Npy.IsVector bytes values

/-- A folder holds the columns of a distribution. -/
structure HoldsColumns (t : Tree) (folder name : String) (d : Derived Binary64) : Prop where
  centeredTimeFs : HoldsArray t folder (name ++ "_t_centered_fs") d.centeredTimeFs
  timeFs : HoldsArray t folder (name ++ "_t_fs") d.timeFs
  energyGeV : HoldsArray t folder (name ++ "_energy_gev") d.energyGeV
  longitudinalOffsetUm : HoldsArray t folder (name ++ "_z_centered_um") d.longitudinalOffsetUm
  rawLongitudinalOffsetUm : HoldsArray t folder (name ++ "_z_um") d.rawLongitudinalOffsetUm
  fracMomentumDevPct : HoldsArray t folder (name ++ "_delta_pct") d.fracMomentumDevPct

/-- A folder holds the histogram of some values. -/
def HoldsHistogram (t : Tree) (folder name : String) (values : List Binary64) (bins : Nat) : Prop :=
  ∃ h, Histogram.density? values bins = some h ∧
    HoldsArray t folder (name ++ "_hist_edges") h.edges ∧
    HoldsArray t folder (name ++ "_hist_density") h.density

/-- A folder holds everything that is derived from two distributions. -/
structure HoldsDerived (t : Tree) (folder : String) (initial final : Distribution Binary64)
    (bins : Nat) : Prop where
  initialColumns : HoldsColumns t folder "initial" initial.derive
  finalColumns : HoldsColumns t folder "final" final.derive
  slip : HoldsArray t folder "delz" (deltaZUm final initial)
  initialTime : HoldsHistogram t folder "initial_t" initial.derive.centeredTimeFs bins
  initialEnergy : HoldsHistogram t folder "initial_p" initial.derive.energyGeV bins
  finalTime : HoldsHistogram t folder "final_t" final.derive.centeredTimeFs bins
  finalEnergy : HoldsHistogram t folder "final_p" final.derive.energyGeV bins

/-! ## Names -/

/-- The names of all files, in the order they are written. -/
def fileNames : List String := arrayNames.map (· ++ ".npy") ++ names.map (· ++ ".png")

/-- No two files have one name. The names are fixed, so this is decided. -/
theorem nodup_fileNames : fileNames.Nodup := by decide +kernel

theorem isName_of_mem {name : String} (h : name ∈ fileNames) : Path.IsName name := by
  have hall : ∀ n ∈ fileNames, n ≠ "" ∧ n ≠ "." ∧ n ≠ ".." ∧ '/' ∉ n.toList := by decide +kernel
  obtain ⟨hempty, hdot, habove, hslash⟩ := hall name h
  exact ⟨hempty, hdot, habove, hslash⟩

theorem map_fst_columns (d : Derived Binary64) : (columns d).map Prod.fst = columnNames d.name := by
  rw [columns, List.map_map]
  rfl

theorem map_fst_histogramArrays (name : String) (h : Histogram Binary64) :
    (histogramArrays name h).map Prod.fst = histogramNames name := by
  rw [histogramArrays, List.map_map]
  rfl

theorem names_arrays {r : Report} (hinitial : r.initial.name = "initial")
    (hfinal : r.final.name = "final") : (arrays r).map Prod.fst = arrayNames := by
  simp only [arrays, arrayNames, List.map_append, map_fst_columns, map_fst_histogramArrays,
    hinitial, hfinal]
  rfl

/-- The paths of the files that a comparison writes: its arrays if it saves them, and its
figures. -/
def outputPaths (s : Settings) : List String :=
  (if s.writeDerived then arrayNames.map (arrayPath s.outputFolder) else []) ++ figurePaths s

/-! ## Files

Which files a run writes is known before it starts, up to the figures that the renderer refuses.
Their names are a part of `fileNames` in any case, and all of it where nothing is refused. -/

section

variable {renderer : Renderer} {s : Settings} {r : Report}

theorem files_saveArray (folder : String) (as : List (String × List Binary64)) :
    files renderer (as.flatMap (saveArray folder)) =
      as.map fun a => (arrayPath folder a.1, Npy.writeVector a.2) := by
  induction as with
  | nil => rfl
  | cons a as ih =>
    rw [List.flatMap_cons, List.map_cons, ← ih]
    rfl

theorem files_arrayActions (hwrite : s.writeDerived = true) :
    files renderer (arrayActions s r) =
      (arrays r).map fun a => (arrayPath s.outputFolder a.1, Npy.writeVector a.2) := by
  unfold arrayActions
  rw [if_pos hwrite, Action.files_append, files_saveArray]
  exact List.append_nil _

theorem files_figureActions (s : Settings) (r : Report) :
    files renderer (figureActions s r) =
      files renderer ((plots r.initial r.final r.slip).map (savePlot s)) := by
  have hreports : files renderer ((figurePaths s).map fun path => .report (.savedFigure path)) =
      [] := by
    refine Action.files_eq_nil fun a ha => ?_
    obtain ⟨path, -, rfl⟩ := List.mem_map.mp ha
    rfl
  unfold figureActions
  rw [Action.files_append, hreports, List.append_nil]
  rfl

theorem mem_files_of_array (hwrite : s.writeDerived = true) {a : String × List Binary64}
    (ha : a ∈ arrays r) :
    (arrayPath s.outputFolder a.1, Npy.writeVector a.2) ∈ files renderer (actions s r) := by
  unfold actions
  rw [Action.files_append, files_arrayActions hwrite]
  exact List.mem_append_left _ (List.mem_map_of_mem ha)

/-- A plot is saved if it is drawn, and otherwise it is what fails. Which of them it is, is up to
the renderer. -/
theorem savePlot_cases (renderer : Renderer) (s : Settings) (p : Plot) :
    (∃ picture, renderer.draw (p.drawing (Style.comparison s.sizes)) = .ok picture ∧
        (savePlot s p).file? renderer = some (figurePath s p.name, picture)) ∨
      (savePlot s p).Refused renderer ∧ (savePlot s p).file? renderer = none := by
  unfold savePlot
  cases hdraw : renderer.draw (p.drawing (Style.comparison s.sizes)) with
  | ok picture => exact Or.inl ⟨picture, rfl, Action.file?_saveFigure.mpr ⟨picture, hdraw, rfl⟩⟩
  | error words => exact Or.inr ⟨⟨_, _, words, rfl, hdraw⟩, by simp [Action.file?, hdraw]⟩

theorem name_mem_names {p : Plot} (hp : p ∈ plots r.initial r.final r.slip) : p.name ∈ names :=
  plots_names r.initial r.final r.slip ▸ List.mem_map_of_mem hp

theorem mem_fileNames_of_array (hinitial : r.initial.name = "initial")
    (hfinal : r.final.name = "final") {a : String × List Binary64} (ha : a ∈ arrays r) :
    a.1 ++ ".npy" ∈ fileNames := by
  have hname : a.1 ∈ arrayNames := names_arrays hinitial hfinal ▸ List.mem_map_of_mem ha
  exact List.mem_append_left _ (List.mem_map_of_mem hname)

theorem isName_of_plot {name : String} (hname : name ∈ names) : Path.IsName (name ++ ".png") :=
  isName_of_mem (List.mem_append_right _ (List.mem_map_of_mem hname))

theorem named_arrays (folder : String) (hinitial : r.initial.name = "initial")
    (hfinal : r.final.name = "final") :
    Action.Named ((arrays r).map fun a => (arrayPath folder a.1, Npy.writeVector a.2))
      (arrayNames.map (· ++ ".npy")) := by
  unfold Action.Named
  rw [← names_arrays hinitial hfinal, List.map_map, List.forall₂_map_left_iff,
    List.forall₂_map_right_iff, List.forall₂_same]
  intro a ha
  exact Path.endsIn_join folder (isName_of_mem (mem_fileNames_of_array hinitial hfinal ha))

/-- The figures of some plots have the names of the plots, but for those that are refused. A run
stops at the first of these; the names are distinct whichever they are. -/
theorem exists_named_plots (renderer : Renderer) (s : Settings) {ps : List Plot}
    (h : ∀ p ∈ ps, p.name ∈ names) :
    ∃ written, Action.Named (files renderer (ps.map (savePlot s))) written ∧
      written.Sublist (ps.map fun p => p.name ++ ".png") := by
  induction ps with
  | nil => exact ⟨[], .nil, .slnil⟩
  | cons p ps ih =>
    obtain ⟨hname, hrest⟩ := List.forall_mem_cons.mp h
    obtain ⟨written, hnamed, hsublist⟩ := ih hrest
    rcases savePlot_cases renderer s p with ⟨picture, -, hfile⟩ | ⟨-, hfile⟩
    · refine ⟨(p.name ++ ".png") :: written, ?_, hsublist.cons_cons _⟩
      rw [List.map_cons, files, List.filterMap_cons_some hfile, ← files]
      exact .cons (Path.endsIn_join s.figuresFolder (isName_of_plot hname)) hnamed
    · refine ⟨written, ?_, hsublist.cons _⟩
      rw [List.map_cons, files, List.filterMap_cons_none hfile, ← files]
      exact hnamed

/-- The files of a comparison all have different names, whether it saves its arrays or not. -/
theorem exists_named_actions (renderer : Renderer) (s : Settings)
    (hinitial : r.initial.name = "initial") (hfinal : r.final.name = "final") :
    ∃ written, Action.Named (files renderer (actions s r)) written ∧ written.Nodup := by
  obtain ⟨figures, hfigures, hsublist⟩ :=
    exists_named_plots renderer s fun p hp => name_mem_names (r := r) hp
  have hnames : (plots r.initial r.final r.slip).map (fun p => p.name ++ ".png") =
      names.map (· ++ ".png") := by
    rw [← plots_names r.initial r.final r.slip, List.map_map]
    rfl
  rw [hnames] at hsublist
  rw [← files_figureActions] at hfigures
  unfold actions
  rw [Action.files_append]
  cases hwrite : s.writeDerived with
  | true =>
    rw [files_arrayActions hwrite]
    exact ⟨_, List.rel_append (named_arrays s.outputFolder hinitial hfinal) hfigures,
      nodup_fileNames.sublist (hsublist.append_left _)⟩
  | false =>
    have hnone : arrayActions s r = [] := by simp [arrayActions, hwrite]
    rw [hnone]
    exact ⟨figures, hfigures,
      (nodup_fileNames.sublist (List.sublist_append_right _ _)).sublist hsublist⟩

theorem paths_savePlot {ps : List Plot} (h : ∀ p ∈ ps, ¬ (savePlot s p).Refused renderer) :
    (files renderer (ps.map (savePlot s))).map Prod.fst = ps.map fun p => figurePath s p.name := by
  induction ps with
  | nil => rfl
  | cons p ps ih =>
    obtain ⟨hfirst, hrest⟩ := List.forall_mem_cons.mp h
    rcases savePlot_cases renderer s p with ⟨picture, -, hfile⟩ | ⟨hrefused, -⟩
    · rw [List.map_cons, files, List.filterMap_cons_some hfile, ← files, List.map_cons, ih hrest,
        List.map_cons]
    · exact absurd hrefused hfirst

/-- Where nothing is refused, a comparison writes all its outputs. -/
theorem paths_files_actions (hinitial : r.initial.name = "initial")
    (hfinal : r.final.name = "final") (h : ∀ a ∈ actions s r, ¬ a.Refused renderer) :
    (files renderer (actions s r)).map Prod.fst = outputPaths s := by
  have hplots : (files renderer (figureActions s r)).map Prod.fst = figurePaths s := by
    rw [files_figureActions, paths_savePlot]
    · rw [figurePaths, ← plots_names r.initial r.final r.slip, List.map_map]
      rfl
    · intro p hp
      refine h _ (List.mem_append_right _ (List.mem_append_left _ (List.mem_cons_of_mem _ ?_)))
      exact List.mem_map_of_mem hp
  unfold actions outputPaths
  rw [Action.files_append, List.map_append, hplots]
  cases hwrite : s.writeDerived with
  | true =>
    rw [files_arrayActions hwrite, if_pos rfl, ← names_arrays hinitial hfinal, List.map_map,
      List.map_map]
    rfl
  | false =>
    have hnone : arrayActions s r = [] := by simp [arrayActions, hwrite]
    rw [hnone]
    rfl

end

/-! ## Lengths

An array has to be counted by a machine word to be described. -/

section

variable {r : Report} {initial final : Distribution Binary64} {bins : Nat}

theorem length_columns (d : Distribution Binary64) {a : String × List Binary64}
    (ha : a ∈ columns d.derive) : a.2.length = d.size := by
  simp only [columns, columnTable, List.map_cons, List.map_nil, List.mem_cons, List.not_mem_nil,
    or_false] at ha
  rcases ha with rfl | rfl | rfl | rfl | rfl | rfl <;>
    simp [Distribution.derive, Distribution.dt, Distribution.p, Distribution.size]

theorem length_histogramArrays {name : String} {values : List Binary64} {h : Histogram Binary64}
    (hh : Histogram.density? values bins = some h) {a : String × List Binary64}
    (ha : a ∈ histogramArrays name h) : a.2.length ≤ bins + 1 := by
  unfold Histogram.density? at hh
  split at hh
  · cases hh
  · cases hh
    simp only [histogramArrays, histogramTable, List.map_cons, List.map_nil, List.mem_cons,
      List.not_mem_nil, or_false] at ha
    rcases ha with rfl | rfl
    · simp [Binning.edges, Binning.ofValues]
    · simp [Binning.counts, Binning.ofValues]

/-- Every array is short enough to be described, if the tables and the number of bins are. -/
theorem length_arrays (hof : r.Of initial final bins) (hinitial : initial.size ≤ Npy.maxLength)
    (hfinal : final.size ≤ Npy.maxLength) (hbins : bins + 1 ≤ Npy.maxLength)
    {a : String × List Binary64} (ha : a ∈ arrays r) : a.2.length ≤ Npy.maxLength := by
  obtain ⟨hi, hf, hslip, hit, hie, hft, hfe⟩ := hof
  simp only [arrays, List.mem_append, List.mem_singleton] at ha
  rw [hi, hf] at ha
  rcases ha with (((((ha | ha) | rfl) | ha) | ha) | ha) | ha
  · exact (length_columns initial ha).trans_le hinitial
  · exact (length_columns final ha).trans_le hfinal
  · have hlength : r.slip.length ≤ final.size := by
      rw [hslip, deltaZUm, List.length_zipWith, Distribution.dt, List.length_map]
      exact Nat.min_le_left _ _
    exact hlength.trans hfinal
  · exact (length_histogramArrays hit ha).trans hbins
  · exact (length_histogramArrays hie ha).trans hbins
  · exact (length_histogramArrays hft ha).trans hbins
  · exact (length_histogramArrays hfe ha).trans hbins

end

/-! ## The run -/

section

variable {t : Tree} {folder : String} {initial final : Distribution Binary64} {bins : Nat}

/-- The columns of a distribution are six of the arrays. Which name goes with which column is what
has to be looked at here; the rest treats all arrays alike. -/
theorem holdsColumns {d : Derived Binary64} (hall : ∀ a ∈ columns d, HoldsArray t folder a.1 a.2) :
    HoldsColumns t folder d.name d where
  centeredTimeFs :=
    hall (d.name ++ "_t_centered_fs", d.centeredTimeFs) (by simp [columns, columnTable])
  timeFs := hall (d.name ++ "_t_fs", d.timeFs) (by simp [columns, columnTable])
  energyGeV := hall (d.name ++ "_energy_gev", d.energyGeV) (by simp [columns, columnTable])
  longitudinalOffsetUm := hall (d.name ++ "_z_centered_um", d.longitudinalOffsetUm)
    (by simp [columns, columnTable])
  rawLongitudinalOffsetUm := hall (d.name ++ "_z_um", d.rawLongitudinalOffsetUm)
    (by simp [columns, columnTable])
  fracMomentumDevPct :=
    hall (d.name ++ "_delta_pct", d.fracMomentumDevPct) (by simp [columns, columnTable])

theorem holdsHistogram {name : String} {values : List Binary64} {h : Histogram Binary64}
    (hh : Histogram.density? values bins = some h)
    (hall : ∀ a ∈ histogramArrays name h, HoldsArray t folder a.1 a.2) :
    HoldsHistogram t folder name values bins :=
  ⟨h, hh, hall (name ++ "_hist_edges", h.edges) (by simp [histogramArrays, histogramTable]),
    hall (name ++ "_hist_density", h.density) (by simp [histogramArrays, histogramTable])⟩

/-- A folder that holds every array of a report holds what the report was derived for. -/
theorem holdsDerived {r : Report} (hof : r.Of initial final bins)
    (hinitial : initial.name = "initial")
    (hfinal : final.name = "final") (hall : ∀ a ∈ arrays r, HoldsArray t folder a.1 a.2) :
    HoldsDerived t folder initial final bins := by
  have hcolumns : HoldsColumns t folder r.initial.name r.initial ∧
      HoldsColumns t folder r.final.name r.final :=
    ⟨holdsColumns fun a ha => hall a (by simp [arrays, ha]),
      holdsColumns fun a ha => hall a (by simp [arrays, ha])⟩
  rw [hof.initial_eq, hof.final_eq, show initial.derive.name = "initial" from hinitial,
    show final.derive.name = "final" from hfinal] at hcolumns
  have hslip : HoldsArray t folder "delz" r.slip := hall ("delz", r.slip) (by simp [arrays])
  rw [hof.slip_eq] at hslip
  exact {
    initialColumns := hcolumns.1
    finalColumns := hcolumns.2
    slip := hslip
    initialTime := holdsHistogram hof.initialTime_eq fun a ha => hall a (by simp [arrays, ha])
    initialEnergy := holdsHistogram hof.initialEnergy_eq fun a ha => hall a (by simp [arrays, ha])
    finalTime := holdsHistogram hof.finalTime_eq fun a ha => hall a (by simp [arrays, ha])
    finalEnergy := holdsHistogram hof.finalEnergy_eq fun a ha => hall a (by simp [arrays, ha]) }

end

/-- **Every derived array survives on disk.** After a comparison that succeeds and saves its arrays,
whatever draws the figures, the output folder holds all that is derived from the two distributions,
each array bit for bit under its own name. No file of the run has been overwritten by a later one:
the run has written all its outputs, all are at different places, and each is read as it was
written. (The numbers of particles and of edges are those of machine words.) -/
theorem run_holdsDerived {s : Settings} {t : Tree} {renderer : Renderer}
    {initial final : Distribution Binary64} {figures : List String}
    (hinitial : Distribution.load "initial" s.initialPath t = .ok initial)
    (hfinal : Distribution.load "final" s.finalPath t = .ok final) (hwrite : s.writeDerived = true)
    (hrun : (run s t renderer).result = .ok figures) (hsize : initial.size ≤ Npy.maxLength)
    (hsize' : final.size ≤ Npy.maxLength) (hedges : s.bins + 1 ≤ Npy.maxLength) :
    HoldsDerived (run s t renderer).journal.tree s.outputFolder initial final s.bins ∧
      ∃ r, (report s t).2 = .ok r ∧ (files renderer (actions s r)).map Prod.fst = outputPaths s ∧
        (∀ f ∈ files renderer (actions s r), (run s t renderer).journal.tree.read f.1 = .ok f.2) ∧
        (files renderer (actions s r)).Pairwise fun f g => ∀ place,
          (run s t renderer).journal.tree.locate f.1 = .ok place →
            (run s t renderer).journal.tree.locate g.1 ≠ .ok place := by
  have htable := Distribution.load_eq_ok_iff.mp hinitial
  have htable' := Distribution.load_eq_ok_iff.mp hfinal
  have hreport := report_of_isTable htable htable'
  cases hr : Report.ofDistributions initial final s.bins with
  | error f =>
    rw [hr] at hreport
    rw [run_of_report_error renderer hreport] at hrun
    cases hrun
  | ok r =>
    rw [hr] at hreport
    have hof := Report.of_ofDistributions hr
    have hi : r.initial.name = "initial" := by
      rw [hof.initial_eq]
      exact htable.name_eq
    have hf : r.final.name = "final" := by
      rw [hof.final_eq]
      exact htable'.name_eq
    obtain ⟨written, hnamed, hdistinct⟩ := exists_named_actions renderer s hi hf
    rw [run_of_report_ok renderer hreport] at hrun ⊢
    obtain ⟨⟨⟩, hdone, -⟩ := map_eq_ok_iff.mp hrun
    have hread := Action.read_files hnamed hdistinct hdone
    refine ⟨holdsDerived hof htable.name_eq htable'.name_eq fun a ha => ?_, r, by rw [hreport],
      paths_files_actions hi hf (Action.not_refused_of_ok hdone), hread,
      hnamed.pairwise hdistinct _⟩
    have hlength : a.2.length ≤ Npy.maxLength := length_arrays hof hsize hsize' hedges ha
    have hfile := hread _ (mem_files_of_array hwrite ha)
    dsimp only [arrayPath] at hfile
    exact ⟨Npy.writeVector a.2, hfile, Npy.isVector_writeVector hlength⟩

/-- Two particles before and three after, and one folder for arrays and figures. -/
theorem run_holdsDerived_two_three :
    let two : List UInt8 := "dt,p\n1e-15,196.5\n-2e-15,nan\n".toUTF8.data.toList
    let three : List UInt8 := "p,dt\n195,0\n196.5,5e-324\n200,inf\n".toUTF8.data.toList
    let t := (Tree.empty.set ["i.csv"] (.file two)).set ["f.csv"] (.file three)
    let s : Settings := { Settings.standard with
      initialPath := "i.csv"
      finalPath := "f.csv"
      figuresFolder := "out"
      outputFolder := "out"
      bins := 2
      writeDerived := true }
    HoldsDerived (run s t).journal.tree "out"
      ⟨"initial", [⟨1e-15, 196.5⟩, ⟨-2e-15, .nan⟩]⟩
      ⟨"final", [⟨.zero .plus, 195.0⟩, ⟨5e-324, 196.5⟩, ⟨.infinite .plus, 200.0⟩]⟩ 2 := by
  intro two three t s
  obtain ⟨figures, hrun⟩ : ∃ figures, (run s t).result = .ok figures := by
    refine exists_eq_ok_of_toBool ?_
    unfold s t two three
    decide +kernel
  have hinitial :=
    Distribution.load_eq_ok_iff.mpr (Distribution.isTable_of_particles "initial"
      (rfl : t.find "i.csv" = .ok (.file two))
      (by decide +kernel : _ = some [⟨1e-15, 196.5⟩, ⟨-2e-15, .nan⟩]))
  have hfinal :=
    Distribution.load_eq_ok_iff.mpr (Distribution.isTable_of_particles "final"
      (rfl : t.find "f.csv" = .ok (.file three))
      (by decide +kernel : _ = some [⟨.zero .plus, 195.0⟩, ⟨5e-324, 196.5⟩,
        ⟨.infinite .plus, 200.0⟩]))
  exact (run_holdsDerived hinitial hfinal rfl hrun (by decide) (by decide) (by decide)).1

end Comparison
end Beamline
