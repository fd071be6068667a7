import Beamline.Proofs.Comparison.Frame
import Beamline.Proofs.Figure.Points

/-!
# Two sides — what depends on which distribution

A comparison handles two distributions by the same names with another word in front, and most of
what it makes belongs to one of them alone. So two runs that start from one initial distribution
agree on all of the initial side, whatever the final distributions are, and the other way around. On
both at once depends only the slip, and of the initial distribution it needs nothing but the times.

Runs are compared by what they have written: they may end in different places, and what both have
written is the same.
-/

set_option autoImplicit false

namespace Beamline
namespace Comparison

open Beamline.Action (files performed performAll arrayPath)
open Beamline.Distribution (IsTable)

/-! ## The arrays of one side -/

/-- The arrays of one distribution, by the names they are saved under: its columns and its two
histograms. -/
def sideArrays (d : Derived Binary64) (time energy : Histogram Binary64) :
    List (String × List Binary64) :=
  columns d ++ histogramArrays (d.name ++ "_t") time ++ histogramArrays (d.name ++ "_p") energy

/-- The names of the arrays of one distribution: they begin with its own. -/
def sideNames (name : String) : List String :=
  columnNames name ++ histogramNames (name ++ "_t") ++ histogramNames (name ++ "_p")

theorem names_sideArrays (d : Derived Binary64) (time energy : Histogram Binary64) :
    (sideArrays d time energy).map Prod.fst = sideNames d.name := by
  simp only [sideArrays, sideNames, List.map_append, map_fst_columns, map_fst_histogramArrays]

theorem sideNames_subset : sideNames "initial" ++ sideNames "final" ++ ["delz"] ⊆ arrayNames := by
  decide +kernel

section

variable {r r' : Report} {initial final initial' final' : Distribution Binary64} {bins : Nat}

/-- The arrays that are made of the initial distribution are among those of the report. The names in
the report are written out for both sides; these are made from the distribution's own. -/
theorem initialArrays_subset (hname : r.initial.name = "initial") :
    sideArrays r.initial r.initialTime r.initialEnergy ⊆ arrays r := by
  intro x hx
  unfold sideArrays at hx
  rw [hname] at hx
  simp only [arrays, List.mem_append] at hx ⊢
  tauto

theorem finalArrays_subset (hname : r.final.name = "final") :
    sideArrays r.final r.finalTime r.finalEnergy ⊆ arrays r := by
  intro x hx
  unfold sideArrays at hx
  rw [hname] at hx
  simp only [arrays, List.mem_append] at hx ⊢
  tauto

/-- They depend on the initial distribution and the number of bins, whatever the final one is. -/
theorem initialArrays_eq (h : r.Of initial final bins) (h' : r'.Of initial final' bins) :
    sideArrays r.initial r.initialTime r.initialEnergy =
      sideArrays r'.initial r'.initialTime r'.initialEnergy := by
  have htime := h.initialTime_eq.symm.trans h'.initialTime_eq
  have henergy := h.initialEnergy_eq.symm.trans h'.initialEnergy_eq
  rw [h.initial_eq, h'.initial_eq, Option.some.inj htime, Option.some.inj henergy]

theorem finalArrays_eq (h : r.Of initial final bins) (h' : r'.Of initial' final bins) :
    sideArrays r.final r.finalTime r.finalEnergy =
      sideArrays r'.final r'.finalTime r'.finalEnergy := by
  have htime := h.finalTime_eq.symm.trans h'.finalTime_eq
  have henergy := h.finalEnergy_eq.symm.trans h'.finalEnergy_eq
  rw [h.final_eq, h'.final_eq, Option.some.inj htime, Option.some.inj henergy]

/-- The slip depends on the final distribution and, of the initial one, on the times alone. -/
theorem slip_eq (h : r.Of initial final bins) (h' : r'.Of initial' final bins)
    (hdt : initial.dt = initial'.dt) : r.slip = r'.slip := by
  rw [h.slip_eq, h'.slip_eq, deltaZUm, deltaZUm, hdt]

/-- Where two reports have some arrays in common, they have the same values under their names. Names
are unique, so a name finds the array that is shared. -/
theorem values_eq_of_subset {shared : List (String × List Binary64)} {name : String}
    {values values' : List Binary64} (hnames : (arrays r).map Prod.fst = arrayNames)
    (hnames' : (arrays r').map Prod.fst = arrayNames) (hshared : shared ⊆ arrays r)
    (hshared' : shared ⊆ arrays r') (hname : name ∈ shared.map Prod.fst)
    (h : (name, values) ∈ arrays r) (h' : (name, values') ∈ arrays r') : values = values' := by
  have hnodup := (nodup_fileNames.sublist (List.sublist_append_left _ _)).of_map
  obtain ⟨⟨_, common⟩, hcommon, rfl⟩ := List.mem_map.mp hname
  have heq := List.inj_on_of_nodup_map (hnames ▸ hnodup) h (hshared hcommon) rfl
  have heq' := List.inj_on_of_nodup_map (hnames' ▸ hnodup) h' (hshared' hcommon) rfl
  cases heq
  cases heq'
  rfl

end

/-! ## What a run has written -/

/-- The files that a run writes, with their contents. -/
def written (renderer : Renderer) (s : Settings) (t : Tree) : List (String × List UInt8) :=
  match report s t with
  | (_, .error _) => []
  | (log, .ok r) => files renderer (performed renderer ⟨t, log⟩ (actions s r))

/-- A run saves an array under a name, as a file of some content. A run that ends early saves some
of its arrays and not others. -/
def Saves (renderer : Renderer) (s : Settings) (t : Tree) (name : String) (content : List UInt8) :
    Prop :=
  (arrayPath s.outputFolder name, content) ∈ written renderer s t

/-- Two runs agree on an array: as far as both save it, the files are the same. That a run which
succeeds saves all of them is a statement of its own (`exists_saves_of_ok`). -/
def SavesSame (renderer : Renderer) (s : Settings) (t t' : Tree) (name : String) : Prop :=
  ∀ content content', Saves renderer s t name content → Saves renderer s t' name content' →
    content = content'

/-- Joining names to one folder keeps them apart, so the path of an array tells which array it
is. -/
theorem join_injective (folder : String) : Function.Injective (Path.join folder) := by
  intro name name' h
  unfold Path.join at h
  split at h
  next => exact String.append_right_inj _ |>.mp h
  next => exact String.append_right_inj _ |>.mp h

section

variable {renderer : Renderer} {s : Settings} {t t' : Tree}
  {initial final initial' final' : Distribution Binary64}

/-- What is written is there when the run is over. -/
theorem read_written {f : String × List UInt8} (hf : f ∈ written renderer s t) :
    (run s t renderer).journal.tree.read f.1 = .ok f.2 := by
  unfold written at hf
  split at hf
  next => cases hf
  next log r hreport =>
    obtain ⟨hinitial, hfinal⟩ := name_of_report hreport
    obtain ⟨names', hnamed, hdistinct⟩ := exists_named_actions renderer s hinitial hfinal
    rw [run_of_report_ok renderer hreport]
    exact Action.read_performed hnamed hdistinct f hf

/-- A run that succeeds and saves its arrays saves all of them. -/
theorem exists_saves_of_ok {figures : List String} (h : (run s t renderer).result = .ok figures)
    (hwrite : s.writeDerived = true) {name : String} (hname : name ∈ arrayNames) :
    ∃ content, Saves renderer s t name content := by
  unfold Saves written
  rcases hreport : report s t with ⟨log, f | r⟩
  · rw [run_of_report_error renderer hreport] at h
    cases h
  · obtain ⟨hinitial, hfinal⟩ := name_of_report hreport
    rw [run_of_report_ok renderer hreport] at h
    obtain ⟨⟨⟩, hdone, -⟩ := map_eq_ok_iff.mp h
    rw [← names_arrays hinitial hfinal] at hname
    obtain ⟨a, ha, rfl⟩ := List.mem_map.mp hname
    refine ⟨Npy.writeVector a.2, ?_⟩
    dsimp only
    rw [Action.performed_eq_of_ok hdone]
    exact mem_files_of_array hwrite ha

/-- A saved array is one of the report's. What is written at its path cannot be a picture, because
pictures have names of their own. -/
theorem exists_report_of_saves (hinitial : IsTable "initial" s.initialPath t initial)
    (hfinal : IsTable "final" s.finalPath t final) {name : String} {content : List UInt8}
    (hname : name ∈ arrayNames) (h : Saves renderer s t name content) :
    ∃ r values, r.Of initial final s.bins ∧ (name, values) ∈ arrays r ∧
      content = Npy.writeVector values := by
  unfold Saves written at h
  rw [report_of_isTable hinitial hfinal] at h
  cases hr : Report.ofDistributions initial final s.bins with
  | error f =>
    rw [hr] at h
    cases h
  | ok r =>
    rw [hr] at h
    have hmem := ((Action.performed_isPrefix _ _ _).filterMap (Action.file? renderer)).subset h
    obtain ⟨a, ha, hfile⟩ := List.mem_filterMap.mp hmem
    refine ⟨r, ?_⟩
    rcases mem_actions ha with ⟨-, rfl | ⟨x, hx, rfl⟩ | rfl⟩ | rfl | ⟨p, hp, rfl⟩ | ⟨_, -, rfl⟩
    case inl.inr.inl =>
      obtain ⟨hpath, rfl⟩ := Prod.mk.inj (Option.some.inj hfile)
      have hsame : x.1 = name := by
        have hjoin := join_injective _ hpath
        exact (String.append_left_inj _).mp hjoin
      exact ⟨x.2, Report.of_ofDistributions hr, hsame ▸ hx, rfl⟩
    case inr.inr.inl =>
      -- No figure has the name of an array.
      obtain ⟨picture, -, hpicture⟩ := Action.file?_saveFigure.mp hfile
      have hpath : figurePath s p.name = arrayPath s.outputFolder name := congrArg Prod.fst hpicture
      have hfigure := name_mem_names hp
      have harray := List.mem_append_left (names.map (· ++ ".png"))
        (List.mem_map_of_mem (f := (· ++ ".npy")) hname)
      have hpicture := List.mem_append_right (arrayNames.map (· ++ ".npy"))
        (List.mem_map_of_mem (f := (· ++ ".png")) hfigure)
      have hne := List.disjoint_of_nodup_append nodup_fileNames (List.mem_map_of_mem hname)
      refine absurd (congrArg Location.named hpath) (Location.named_ne
        (Path.endsIn_join _ (isName_of_mem hpicture))
        (Path.endsIn_join _ (isName_of_mem harray)) ?_)
      intro heq
      exact hne (heq ▸ List.mem_map_of_mem hfigure)
    all_goals cases hfile

section

variable (hinitial : IsTable "initial" s.initialPath t initial)
  (hfinal : IsTable "final" s.finalPath t final)
  (hinitial' : IsTable "initial" s.initialPath t' initial')
  (hfinal' : IsTable "final" s.finalPath t' final')

include hinitial hfinal hinitial' hfinal'

/-- Runs whose reports have an array in common save it as the same file. The three lemmas below name
what is in common: one side, the other, or the slip. -/
theorem savesSame_of_subset {name : String} (hname : name ∈ arrayNames)
    (hcommon : ∀ r r' : Report, r.Of initial final s.bins → r'.Of initial' final' s.bins →
      ∃ shared, shared ⊆ arrays r ∧ shared ⊆ arrays r' ∧ name ∈ shared.map Prod.fst) :
    SavesSame renderer s t t' name := by
  intro content content' h h'
  obtain ⟨r, values, hof, hmem, rfl⟩ := exists_report_of_saves hinitial hfinal hname h
  obtain ⟨r', values', hof', hmem', rfl⟩ := exists_report_of_saves hinitial' hfinal' hname h'
  obtain ⟨shared, hshared, hshared', hnamed⟩ := hcommon r r' hof hof'
  obtain ⟨hi, hf⟩ := hof.name_eq hinitial hfinal
  obtain ⟨hi', hf'⟩ := hof'.name_eq hinitial' hfinal'
  rw [values_eq_of_subset (names_arrays hi hf)
    (names_arrays hi' hf') hshared hshared' hnamed hmem hmem']

theorem savesSame_initial (heq : initial = initial') {name : String}
    (hname : name ∈ sideNames "initial") :
    SavesSame renderer s t t' name := by
  subst heq
  refine savesSame_of_subset hinitial hfinal hinitial' hfinal'
    (sideNames_subset (by simp [hname])) ?_
  intro r r' hof hof'
  have hi := (hof.name_eq hinitial hfinal).1
  have hi' := (hof'.name_eq hinitial' hfinal').1
  refine ⟨_, initialArrays_subset hi, ?_, ?_⟩
  · rw [initialArrays_eq hof hof']
    exact initialArrays_subset hi'
  · rw [names_sideArrays, hi]
    exact hname

theorem savesSame_final (heq : final = final') {name : String} (hname : name ∈ sideNames "final") :
    SavesSame renderer s t t' name := by
  subst heq
  refine savesSame_of_subset hinitial hfinal hinitial' hfinal'
    (sideNames_subset (by simp [hname])) ?_
  intro r r' hof hof'
  have hf := (hof.name_eq hinitial hfinal).2
  have hf' := (hof'.name_eq hinitial' hfinal').2
  refine ⟨_, finalArrays_subset hf, ?_, ?_⟩
  · rw [finalArrays_eq hof hof']
    exact finalArrays_subset hf'
  · rw [names_sideArrays, hf]
    exact hname

theorem savesSame_slip (hdt : initial.dt = initial'.dt) (heq : final = final') :
    SavesSame renderer s t t' "delz" := by
  subst heq
  refine savesSame_of_subset hinitial hfinal hinitial' hfinal' (sideNames_subset (by simp)) ?_
  intro r r' hof hof'
  have hslip : ∀ r : Report, [("delz", r.slip)] ⊆ arrays r := by
    intro r
    simp [arrays]
  refine ⟨_, hslip r, ?_, List.mem_singleton.mpr rfl⟩
  rw [slip_eq hof hof' hdt]
  exact hslip r'

end

end

/-! ## What is drawn -/

/-- The plot of some name that is made of two distributions. Plots are found by their names here,
since two runs are compared plot by plot. -/
def plot? (initial final : Distribution Binary64) (name : String) : Option Plot :=
  (plotsOf initial final).find? fun plot => plot.name == name

/-- The series of a plot that carry some label. -/
def labelled (label : String) (plot : Plot) : List Scatter :=
  plot.series.filter fun series => series.label == some label

section

variable (initial final initial' final' : Distribution Binary64)

theorem plot?_initial : ∀ name ∈ ["t-p_initial_py", "z-delta_initial_py"],
    ∃ plot, plot? initial final name = some plot ∧ plot? initial final' name = some plot := by
  simp [plot?, plotsOf, plots]

theorem plot?_final : ∀ name ∈ ["t-p_end_py", "z-delta_end_py"],
    ∃ plot, plot? initial final name = some plot ∧ plot? initial' final name = some plot := by
  simp [plot?, plotsOf, plots]

theorem labelled_initial : ∀ name ∈ ["t-p_norm_py", "z-delta_norm_py"],
    ∃ series, (plot? initial final name).map (labelled initialLabel) = some [series] ∧
      (plot? initial final' name).map (labelled initialLabel) = some [series] := by
  simp [plot?, plotsOf, plots, labelled, initialSeries, finalSeries, initialLabel, finalLabel]

theorem labelled_final : ∀ name ∈ ["t-p_norm_py", "z-delta_norm_py"],
    ∃ series, (plot? initial final name).map (labelled finalLabel) = some [series] ∧
      (plot? initial' final name).map (labelled finalLabel) = some [series] := by
  simp [plot?, plotsOf, plots, labelled, initialSeries, finalSeries, initialLabel, finalLabel]

/-- The slip is drawn against the final deviations. -/
theorem plot?_slip : plot? initial final "delz-delta_py" =
    some ⟨"delz-delta_py", slipLabel, deviationLabel,
      [finalSeries (deltaZUm final initial) final.derive.fracMomentumDevPct]⟩ := by
  simp [plot?, plotsOf, plots]

end

/-! ## Two runs -/

/-- Two runs agree on one side: on its arrays, on its own plots, and on its series in the
overlays. -/
structure SameSide (renderer : Renderer) (s : Settings) (t t' : Tree)
    (initial final initial' final' : Distribution Binary64)
    (side : String) (own : List String) (label : String) : Prop where
  arrays : ∀ name ∈ sideNames side, SavesSame renderer s t t' name
  plots : ∀ name ∈ own,
    ∃ plot, plot? initial final name = some plot ∧ plot? initial' final' name = some plot
  overlays : ∀ name ∈ ["t-p_norm_py", "z-delta_norm_py"],
    ∃ series, (plot? initial final name).map (labelled label) = some [series] ∧
      (plot? initial' final' name).map (labelled label) = some [series]

/-- **The two distributions are never mixed up.** Take two runs with the same settings over any
tables. What each run has written is there in the end, all of it if the run succeeds, and it draws
the plots of its tables. If the initial tables are one distribution, the runs agree on the initial
side, and if the final ones are, on the final side, and then also on what the slip is drawn against.
On the slip itself they agree if besides the final distributions only the initial times are the
same. -/
theorem run_separates {renderer : Renderer} {s : Settings} {t t' : Tree}
    {initial final initial' final' : Distribution Binary64}
    (hinitial : IsTable "initial" s.initialPath t initial)
    (hfinal : IsTable "final" s.finalPath t final)
    (hinitial' : IsTable "initial" s.initialPath t' initial')
    (hfinal' : IsTable "final" s.finalPath t' final') :
    (∀ f ∈ written renderer s t, (run s t renderer).journal.tree.read f.1 = .ok f.2) ∧
    (∀ figures, (run s t renderer).result = .ok figures → s.writeDerived = true →
      ∀ name ∈ arrayNames, ∃ content, Saves renderer s t name content) ∧
    (∀ r, (report s t).2 = .ok r → plots r.initial r.final r.slip = plotsOf initial final) ∧
    (initial = initial' → SameSide renderer s t t' initial final initial' final' "initial"
      ["t-p_initial_py", "z-delta_initial_py"] "Initial") ∧
    (final = final' → SameSide renderer s t t' initial final initial' final' "final"
        ["t-p_end_py", "z-delta_end_py"] "1st-order" ∧
      ∃ x x' y, plot? initial final "delz-delta_py" =
          some ⟨"delz-delta_py", slipLabel, deviationLabel, [finalSeries x y]⟩ ∧
        plot? initial' final' "delz-delta_py" =
          some ⟨"delz-delta_py", slipLabel, deviationLabel, [finalSeries x' y]⟩) ∧
    (initial.dt = initial'.dt → final = final' → SavesSame renderer s t t' "delz" ∧
      plot? initial final "delz-delta_py" = plot? initial' final' "delz-delta_py") := by
  refine ⟨fun f => read_written, fun figures hok hwrite name => exists_saves_of_ok hok hwrite, ?_,
    ?_, ?_,
    ?_⟩
  · intro r hr
    rw [report_of_isTable hinitial hfinal] at hr
    have hof := Report.of_ofDistributions hr
    rw [hof.initial_eq, hof.final_eq, hof.slip_eq, plotsOf]
  · intro heq
    refine ⟨fun name => savesSame_initial hinitial hfinal hinitial' hfinal' heq, ?_, ?_⟩
    · subst heq
      exact plot?_initial initial final final'
    · subst heq
      exact labelled_initial initial final final'
  · intro heq
    refine ⟨⟨fun name => savesSame_final hinitial hfinal hinitial' hfinal' heq, ?_, ?_⟩, ?_⟩
    · subst heq
      exact plot?_final initial final initial'
    · subst heq
      exact labelled_final initial final initial'
    · subst heq
      exact ⟨_, _, _, plot?_slip initial final, plot?_slip initial' final⟩
  · intro hdt heq
    refine ⟨savesSame_slip hinitial hfinal hinitial' hfinal' hdt heq, ?_⟩
    subst heq
    rw [plot?_slip, plot?_slip, deltaZUm, deltaZUm, hdt]

/-- Against a final table of one particle, and against one of two. -/
theorem run_separates_one_two :
    let one : List UInt8 := [0x64, 0x74, 0x2C, 0x70, 0x0A, 0x30, 0x2C, 0x6E, 0x61, 0x6E, 0x0A]
    let two : List UInt8 := one ++ [0x30, 0x2C, 0x6E, 0x61, 0x6E, 0x0A]
    let s : Settings := { Settings.standard with
      initialPath := "i.csv"
      finalPath := "f.csv"
      writeDerived := true }
    let t := (Tree.empty.set ["i.csv"] (.file one)).set ["f.csv"] (.file one)
    let t' := (Tree.empty.set ["i.csv"] (.file one)).set ["f.csv"] (.file two)
    ∀ name ∈ sideNames "initial", SavesSame .white s t t' name := by
  intro one two s t t'
  let particle : Particle Binary64 := ⟨.zero .plus, .nan⟩
  have hone : ∀ name, Distribution.ofTable name one = .ok ⟨name, [particle]⟩ := fun name => rfl
  have htwo : Distribution.ofTable "final" two = .ok ⟨"final", [particle, particle]⟩ := rfl
  have hinitial : IsTable "initial" s.initialPath t _ := ⟨one, (rfl : t.find "i.csv" = _), hone _⟩
  have hfinal : IsTable "final" s.finalPath t _ := ⟨one, (rfl : t.find "f.csv" = _), hone _⟩
  have hinitial' : IsTable "initial" s.initialPath t' _ :=
    ⟨one, (rfl : t'.find "i.csv" = _), hone _⟩
  have hfinal' : IsTable "final" s.finalPath t' _ := ⟨two, (rfl : t'.find "f.csv" = _), htwo⟩
  exact ((run_separates hinitial hfinal hinitial' hfinal').2.2.2.1 rfl).arrays

end Comparison
end Beamline
