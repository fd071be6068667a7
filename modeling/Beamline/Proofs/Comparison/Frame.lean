import Beamline.Proofs.Comparison.Saved
import Beamline.Proofs.Figure.Picture

/-!
# What a comparison touches, and what it may say about it

The files that a comparison writes and the folders that it makes are known from its settings
(`OutputFile`, `OutputFolder`). Everything else is left as it is, wherever the run ends: in a folder
that cannot be made, at a file that cannot be written, or at a drawing that the renderer refuses.

What is logged as saved has been saved. The figures are reported when the last of them is written
and nothing is left that can fail; the arrays are reported when the last of them is written, and the
figures that follow have other names. That the figures of a run that succeeds are pictures is up to
the renderer, and the one thing that is asked of it.
-/

set_option autoImplicit false

namespace Beamline
namespace Comparison

open Beamline.Action (files events performed performAll arrayPath)

/-! ## Outputs -/

/-- The places of the files that a comparison may write: its figures, and its arrays if it saves
them. -/
def OutputFile (s : Settings) (place : Location) : Prop :=
  (∃ name ∈ names, Location.named (figurePath s name) = place) ∨
    s.writeDerived = true ∧ ∃ name ∈ arrayNames,
    Location.named (arrayPath s.outputFolder name) = place

/-- The places of the folders that a comparison may make: those on the way to its figures, and to
its arrays if it saves them. -/
def OutputFolder (s : Settings) (place : Location) : Prop :=
  Location.OnWay s.figuresFolder place ∨ s.writeDerived = true ∧ Location.OnWay s.outputFolder place

/-- Every array of a report has been written to a folder. -/
structure HasArrays (t : Tree) (folder : String) (r : Report) : Prop where
  names_eq : (arrays r).map Prod.fst = arrayNames
  read : ∀ a ∈ arrays r, t.read (arrayPath folder a.1) = .ok (Npy.writeVector a.2)

/-! ## Actions -/

section

variable {renderer : Renderer} {s : Settings} {r : Report}

/-- What the actions of a comparison can be. -/
theorem mem_actions {a : Action} (ha : a ∈ actions s r) :
    (s.writeDerived = true ∧ (a = .createOutput s.outputFolder ∨
        (∃ x ∈ arrays r, a = .saveArray s.outputFolder x.1 x.2) ∨
        a = .report (.savedDerived s.outputFolder))) ∨
      a = .createFigures s.figuresFolder ∨
      (∃ p ∈ plots r.initial r.final r.slip, a = savePlot s p) ∨
      ∃ path ∈ figurePaths s, a = .report (.savedFigure path) := by
  rcases List.mem_append.mp ha with harray | hfigure
  · left
    unfold arrayActions at harray
    split at harray
    next hwrite =>
      refine ⟨hwrite, ?_⟩
      rcases List.mem_append.mp harray with hsave | hreport
      · obtain ⟨x, hx, hmem⟩ := List.mem_flatMap.mp hsave
        rcases List.mem_cons.mp hmem with rfl | hmem
        · exact Or.inl rfl
        · exact Or.inr (Or.inl ⟨x, hx, List.mem_singleton.mp hmem⟩)
      · exact Or.inr (Or.inr (List.mem_singleton.mp hreport))
    next => cases harray
  · right
    rcases List.mem_append.mp hfigure with hsave | hreport
    · rcases List.mem_cons.mp hsave with rfl | hsave
      · exact Or.inl rfl
      · obtain ⟨p, hp, rfl⟩ := List.mem_map.mp hsave
        exact Or.inr (Or.inl ⟨p, hp, rfl⟩)
    · obtain ⟨path, hpath, rfl⟩ := List.mem_map.mp hreport
      exact Or.inr (Or.inr ⟨path, hpath, rfl⟩)

theorem outputFile_of_filePlace (hnames : (arrays r).map Prod.fst = arrayNames) {place : Location}
    (h : Action.FilePlace renderer (actions s r) place) : OutputFile s place := by
  obtain ⟨f, hf, hplace⟩ := h
  obtain ⟨a, ha, hfile⟩ := List.mem_filterMap.mp hf
  rcases mem_actions ha with ⟨hwrite, rfl | ⟨x, hx, rfl⟩ | rfl⟩ | rfl | ⟨p, hp, rfl⟩ | ⟨_, -, rfl⟩
  case inl.inr.inl =>
    cases hfile
    exact Or.inr ⟨hwrite, x.1, hnames ▸ List.mem_map_of_mem hx, hplace⟩
  case inr.inr.inl =>
    obtain ⟨picture, -, rfl⟩ := Action.file?_saveFigure.mp hfile
    exact Or.inl ⟨p.name, name_mem_names hp, hplace⟩
  all_goals cases hfile

theorem outputFolder_of_folderPlace {place : Location}
    (h : Action.FolderPlace (actions s r) place) : OutputFolder s place := by
  obtain ⟨a, ha, folder, hfolder, hplace⟩ := h
  rcases mem_actions ha with ⟨hwrite, rfl | ⟨_, -, rfl⟩ | rfl⟩ | rfl | ⟨_, -, rfl⟩ | ⟨_, -, rfl⟩
  case inl.inl =>
    cases hfolder
    exact Or.inr ⟨hwrite, hplace⟩
  case inr.inl =>
    cases hfolder
    exact Or.inl hplace
  all_goals cases hfolder

theorem events_saveArray (folder : String) (as : List (String × List Binary64)) :
    events (as.flatMap (saveArray folder)) = [] := by
  induction as with
  | nil => rfl
  | cons a as ih =>
    rw [List.flatMap_cons]
    exact ih

/-- The arrays are reported when all are saved. -/
theorem exists_saves (renderer : Renderer) (hwrite : s.writeDerived = true) (r : Report) :
    ∃ saves, arrayActions s r = saves ++ [.report (.savedDerived s.outputFolder)] ∧
      events saves = [] ∧ files renderer saves =
        (arrays r).map fun a => (arrayPath s.outputFolder a.1, Npy.writeVector a.2) :=
  ⟨_, if_pos hwrite, events_saveArray s.outputFolder (arrays r),
    files_saveArray s.outputFolder (arrays r)⟩

/-- The figures are reported when everything is done. -/
theorem exists_work (s : Settings) (r : Report) :
    ∃ work, actions s r = work ++ ((figurePaths s).map Event.savedFigure).map Action.report ∧
      events work = events (arrayActions s r) := by
  refine ⟨arrayActions s r ++ .createFigures s.figuresFolder :: (plots r.initial r.final r.slip).map
    (savePlot s), ?_, ?_⟩
  · exact (List.append_assoc ..).symm
  · exact List.filterMap_append.trans (List.append_nil _)

theorem savedFigure_not_mem_arrayActions (path : String) :
    .savedFigure path ∉ events (arrayActions s r) := by
  intro hmem
  cases hwrite : s.writeDerived with
  | true =>
    obtain ⟨saves, hsaves, hevents, -⟩ := exists_saves .white hwrite r
    rw [hsaves, events, List.filterMap_append, ← events, hevents] at hmem
    cases List.mem_singleton.mp hmem
  | false =>
    simp [arrayActions, hwrite, events] at hmem

end

/-! ## The run -/

section

variable {renderer : Renderer} {s : Settings} {r : Report} {j : Journal}

/-- Performing actions touches outputs and nothing else, however far it gets. -/
theorem changesOnly_actions (renderer : Renderer) (s : Settings) (j : Journal)
    (hinitial : r.initial.name = "initial") (hfinal : r.final.name = "final") :
    Tree.ChangesOnly (OutputFile s) (OutputFolder s) j.tree
      (performAll renderer j (actions s r)).1.tree := by
  obtain ⟨written, hnamed, -⟩ := exists_named_actions renderer s hinitial hfinal
  refine (Action.changesOnly_performAll hnamed.endsIn).mono ?_ ?_
  · intro place hplace
    exact outputFile_of_filePlace (names_arrays hinitial hfinal) hplace
  · intro place hplace
    exact outputFolder_of_folderPlace hplace

/-- Where the arrays are reported, they have been saved, and nothing has overwritten them. -/
theorem hasArrays_of_savedDerived (hinitial : r.initial.name = "initial")
    (hfinal : r.final.name = "final") {folder : String}
    (h : .savedDerived folder ∈ events (performed renderer j (actions s r))) :
    s.writeDerived = true ∧ folder = s.outputFolder ∧
      HasArrays (performAll renderer j (actions s r)).1.tree s.outputFolder r := by
  have hbegins := Action.performed_isPrefix renderer j (actions s r)
  have hmem := hbegins.subset (Action.mem_events_iff.mp h)
  obtain ⟨hwrite, heq⟩ : s.writeDerived = true ∧ folder = s.outputFolder := by
    rcases mem_actions hmem with ⟨hwrite, heq | ⟨_, -, heq⟩ | heq⟩ | heq | ⟨_, -, heq⟩ | ⟨_, -, heq⟩
    case inl.inr.inr =>
      cases heq
      exact ⟨hwrite, rfl⟩
    all_goals cases heq
  refine ⟨hwrite, heq, names_arrays hinitial hfinal, fun a ha => ?_⟩
  obtain ⟨written, hnamed, hdistinct⟩ := exists_named_actions renderer s hinitial hfinal
  obtain ⟨saves, hsaves, hevents, hfiles⟩ := exists_saves renderer hwrite r
  have hfront : saves <+: actions s r := by
    unfold actions
    rw [hsaves, List.append_assoc]
    exact List.prefix_append _ _
  -- A run that ends within the saves has not reported them.
  rcases List.prefix_or_prefix_of_prefix hbegins hfront with hwithin | hbeyond
  · have hnone := (hwithin.filterMap Action.event?).subset h
    rw [← events, hevents] at hnone
    cases hnone
  · refine Action.read_performed hnamed hdistinct
      (arrayPath s.outputFolder a.1, Npy.writeVector a.2)
      ((hbeyond.filterMap (Action.file? renderer)).subset ?_)
    rw [← files, hfiles]
    exact List.mem_map_of_mem ha

/-- Where everything succeeds, every plot has been drawn and the figure is there. -/
theorem read_figure (hinitial : r.initial.name = "initial") (hfinal : r.final.name = "final")
    (h : (performAll renderer j (actions s r)).2 = .ok ()) {p : Plot}
    (hp : p ∈ plots r.initial r.final r.slip) :
    ∃ picture, renderer.draw (p.drawing (Style.comparison s.sizes)) = .ok picture ∧
      (performAll renderer j (actions s r)).1.tree.read (figurePath s p.name) = .ok picture := by
  have haction : savePlot s p ∈ actions s r :=
    List.mem_append_right _
      (List.mem_append_left _ (List.mem_cons_of_mem _ (List.mem_map_of_mem hp)))
  obtain ⟨written, hnamed, hdistinct⟩ := exists_named_actions renderer s hinitial hfinal
  rcases savePlot_cases renderer s p with ⟨picture, hdraw, hfile⟩ | ⟨hrefused, -⟩
  · have hread := Action.read_files hnamed hdistinct h (figurePath s p.name, picture)
      (Action.mem_files haction hfile)
    exact ⟨picture, hdraw, hread⟩
  · exact absurd hrefused (Action.not_refused_of_ok h _ haction)

theorem log_of_ok (h : (performAll renderer j (actions s r)).2 = .ok ()) :
    ∃ before, (performAll renderer j (actions s r)).1.log =
        j.log ++ before ++ (figurePaths s).map .savedFigure ∧
      ∀ path, .savedFigure path ∉ before := by
  obtain ⟨work, hwork, hevents⟩ := exists_work s r
  refine ⟨events work, ?_, fun path => hevents ▸ savedFigure_not_mem_arrayActions path⟩
  rw [Action.log_performAll_of_ok h, hwork, events, List.filterMap_append, ← events,
    List.append_assoc]
  rfl

theorem log_of_error {e : Failure} (h : (performAll renderer j (actions s r)).2 = .error e)
    (path : String) :
    .savedFigure path ∉ events (performed renderer j (actions s r)) := by
  obtain ⟨work, hwork, hevents⟩ := exists_work s r
  intro hmem
  rw [hwork] at h hmem
  have hbegins := Action.performed_isPrefix_of_error h
  have hsaved := (hbegins.filterMap Action.event?).subset hmem
  rw [← events, hevents] at hsaved
  exact savedFigure_not_mem_arrayActions path hsaved

end

theorem not_saved_of_mem_inputLog {s : Settings} {initial final : Distribution Binary64} :
    ∀ event ∈ inputLog s initial final,
      (∀ folder, event ≠ .savedDerived folder) ∧ ∀ path, event ≠ .savedFigure path := by
  unfold inputLog
  split
  next => simp
  next => simp

/-- Computing reports nothing as saved. -/
theorem not_saved_of_mem_report {s : Settings} {t : Tree} {event : Event}
    (h : event ∈ (report s t).1) :
    (∀ folder, event ≠ .savedDerived folder) ∧ ∀ path, event ≠ .savedFigure path := by
  rcases report_cases s t with ⟨f, -, hr⟩ | ⟨initial, f, -, -, hr⟩ | ⟨initial, final, -, -, -, hr⟩ |
    ⟨initial, final, r, -, -, -, -, hr⟩
  · rw [hr] at h
    cases h
  · rw [hr] at h
    cases List.mem_singleton.mp h
    simp
  · rw [hr] at h
    exact not_saved_of_mem_inputLog event h
  · rw [hr] at h
    exact not_saved_of_mem_inputLog event h

/-- The sides of a report have the names that their tables were read under. -/
theorem Report.Of.name_eq {r : Report} {initial final : Distribution Binary64} {bins : Nat}
    {t : Tree} {path path' : String} (hof : r.Of initial final bins)
    (hinitial : Distribution.IsTable "initial" path t initial)
    (hfinal : Distribution.IsTable "final" path' t final) :
    r.initial.name = "initial" ∧ r.final.name = "final" := by
  rw [hof.initial_eq, hof.final_eq]
  exact ⟨hinitial.name_eq, hfinal.name_eq⟩

theorem name_of_report {s : Settings} {t : Tree} {log : List Event} {r : Report}
    (h : report s t = (log, .ok r)) : r.initial.name = "initial" ∧ r.final.name = "final" := by
  rcases report_cases s t with ⟨_, -, hr⟩ | ⟨_, _, -, -, hr⟩ | ⟨_, _, -, -, -, hr⟩ |
    ⟨initial, final, r', hinitial, hfinal, -, hof, hr⟩
  case inr.inr.inr =>
    rw [h] at hr
    cases hr
    exact hof.name_eq hinitial hfinal
  all_goals
    rw [h] at hr
    cases hr

/-- **A comparison touches its outputs and nothing else, and what it logs as saved is saved.**
Wherever it ends, no place has changed but those of its figures, those of its arrays if it saves
them, and those of folders on the way to them where nothing stood before. If it succeeds, its result
is the paths of the figures in order, each of them is read as what the renderer made of its plot,
which is a picture of the size of the style if the renderer draws pictures, and the log ends in one
line for each. If it fails, at whatever action, no figure is logged as saved. The arrays are logged
as saved only if every one of them has been written. -/
theorem run_frame (s : Settings) (t : Tree) (renderer : Renderer) :
    t.ChangesOnly (OutputFile s) (OutputFolder s) (run s t renderer).journal.tree ∧
    (match (run s t renderer).result with
      | .ok paths =>
        paths = figurePaths s ∧
          (∃ r, (report s t).2 = .ok r ∧ ∀ p ∈ plots r.initial r.final r.slip,
            ∃ picture, renderer.draw (p.drawing (Style.comparison s.sizes)) = .ok picture ∧
              (run s t renderer).journal.tree.read (figurePath s p.name) = .ok picture) ∧
          (renderer.DrawsPictures → ∀ path ∈ paths,
            ∃ picture, (run s t renderer).journal.tree.read path = .ok picture ∧
              Png.IsPicture picture (Style.comparison s.sizes).width
                (Style.comparison s.sizes).height) ∧
          ∃ before, (run s t renderer).journal.log = before ++ paths.map .savedFigure ∧
            ∀ path, .savedFigure path ∉ before
      | .error _ => ∀ path, .savedFigure path ∉ (run s t renderer).journal.log) ∧
    ∀ folder, .savedDerived folder ∈ (run s t renderer).journal.log →
      s.writeDerived = true ∧ folder = s.outputFolder ∧
        ∃ r, (report s t).2 = .ok r ∧
          HasArrays (run s t renderer).journal.tree s.outputFolder r := by
  have hcomputed := @not_saved_of_mem_report s t
  rcases hreport : report s t with ⟨log, f | r⟩
  · -- Nothing has been done.
    rw [hreport] at hcomputed
    rw [run_of_report_error renderer hreport]
    refine ⟨.refl t, fun path hmem => ?_, fun folder hmem => ?_⟩
    · exact (hcomputed hmem).2 path rfl
    · exact absurd rfl ((hcomputed hmem).1 folder)
  · rw [hreport] at hcomputed
    obtain ⟨hinitial, hfinal⟩ := name_of_report hreport
    rw [run_of_report_ok renderer hreport]
    dsimp only
    refine ⟨?_, ?_, fun folder hmem => ?_⟩
    · exact changesOnly_actions renderer s _ hinitial hfinal
    · cases hdone : (performAll renderer ⟨t, log⟩ (actions s r)).2 with
      | ok =>
        obtain ⟨before, hlog, hbefore⟩ := log_of_ok hdone
        refine ⟨rfl, ⟨r, rfl, fun p hp => read_figure hinitial hfinal hdone hp⟩,
          fun hpictures path hpath => ?_,
          log ++ before, hlog, fun path hmem => ?_⟩
        · obtain ⟨name, hname, rfl⟩ := List.mem_map.mp hpath
          rw [← plots_names r.initial r.final r.slip] at hname
          obtain ⟨p, hp, rfl⟩ := List.mem_map.mp hname
          obtain ⟨picture, hdraw, hread⟩ := read_figure hinitial hfinal hdone hp
          have hpicture := hpictures _ picture hdraw
          rw [Plot.style_drawing] at hpicture
          exact ⟨picture, hread, hpicture⟩
        · rcases List.mem_append.mp hmem with hmem | hmem
          · exact (hcomputed hmem).2 path rfl
          · exact hbefore path hmem
      | error e =>
        intro path hmem
        rw [Action.log_performAll] at hmem
        rcases List.mem_append.mp hmem with hmem | hmem
        · exact (hcomputed hmem).2 path rfl
        · exact log_of_error hdone path hmem
    · rw [Action.log_performAll] at hmem
      rcases List.mem_append.mp hmem with hmem | hmem
      · exact absurd rfl ((hcomputed hmem).1 folder)
      · obtain ⟨hwrite, hfolder, harrays⟩ := hasArrays_of_savedDerived hinitial hfinal hmem
        exact ⟨hwrite, hfolder, r, rfl, harrays⟩

/-- Two particles against three, into folders that are still to be made: all seven figures are
pictures of twelve by seven inches at six hundred pixels an inch, and the arrays are there. -/
theorem run_frame_two_three :
    let two : List UInt8 := "dt,p\n1e-15,196.5\n-2e-15,nan\n".toUTF8.data.toList
    let three : List UInt8 := "p,dt\n195,0\n196.5,5e-324\n200,inf\n".toUTF8.data.toList
    let t := (Tree.empty.set ["i.csv"] (.file two)).set ["f.csv"] (.file three)
    let s : Settings := { Settings.standard with
      initialPath := "i.csv"
      finalPath := "f.csv"
      figuresFolder := "out"
      outputFolder := "out/arrays"
      bins := 2
      writeDerived := true }
    (∀ path ∈ figurePaths s, ∃ picture, (run s t).journal.tree.read path = .ok picture ∧
      Png.IsPicture picture 7200 4200) ∧
    ∃ r, HasArrays (run s t).journal.tree "out/arrays" r := by
  intro two three t s
  obtain ⟨hok, hsaved⟩ : (run s t).result.toBool = true ∧
      Event.savedDerived "out/arrays" ∈ (run s t).journal.log := by
    unfold s t two three
    decide +kernel
  obtain ⟨figures, hrun⟩ := exists_eq_ok_of_toBool hok
  have hwidth : (Style.comparison s.sizes).width = 7200 := by decide +kernel
  have hheight : (Style.comparison s.sizes).height = 4200 := by decide +kernel
  obtain ⟨-, hresult, harrays⟩ := run_frame s t .white
  rw [hrun] at hresult
  obtain ⟨rfl, -, hpictures, -⟩ := hresult
  rw [hwidth, hheight] at hpictures
  obtain ⟨-, -, r, -, hthere⟩ := harrays "out/arrays" hsaved
  exact ⟨hpictures Renderer.white_drawsPictures, r, hthere⟩

end Comparison
end Beamline
