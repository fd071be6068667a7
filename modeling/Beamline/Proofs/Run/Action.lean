import Beamline.Proofs.Storage.Changes
import Beamline.Run.Action

/-!
# Actions — how far a run gets, and what it leaves

An action does one of four things: it writes a file, makes a folder with those above it, reports, or
asks for a drawing that the renderer refuses, and then it does nothing and fails. What it may touch
is known from the action and the renderer (`changesOnly_perform`), and so is what a run of actions
may touch, however far it gets (`changesOnly_performAll`). Nothing is assumed of the renderer.

How far it got is the list of actions that succeeded (`performed`): everything, or what comes before
an action that is no report, as reports never fail (`exists_refused`). The log says what was
performed and nothing else (`log_performAll`). And where the files of a run all have different
names, no write can undo an earlier one, so every file that was written is read as it was written
(`read_performed`).
-/

set_option autoImplicit false

namespace Beamline
namespace Action

/-- The file that an action writes: its path and its content. A drawing that is refused has
neither. -/
def file? (renderer : Renderer) : Action → Option (String × List UInt8)
  | saveArray folder name values => some (arrayPath folder name, Npy.writeVector values)
  | saveFigure path drawing =>
    match renderer.draw drawing with
    | .ok picture => some (path, picture)
    | .error _ => none
  | createOutput _ | createFigures _ | report _ => none

/-- The folder that an action makes. -/
def folder? : Action → Option String
  | createOutput folder | createFigures folder => some folder
  | saveArray .. | saveFigure .. | report _ => none

/-- What an action reports. -/
def event? : Action → Option Event
  | report event => some event
  | createOutput _ | createFigures _ | saveArray .. | saveFigure .. => none

/-- An action whose drawing the renderer refuses. It has no file, so that what a run may touch is
known without asking whether its drawings succeed. -/
def Refused (renderer : Renderer) (a : Action) : Prop :=
  ∃ path drawing words, a = saveFigure path drawing ∧ renderer.draw drawing = .error words

/-- The files that actions write, in the order they are written. These are the files of a whole run;
one that fails has written only those of `performed`. -/
def files (renderer : Renderer) (as : List Action) : List (String × List UInt8) :=
  as.filterMap (file? renderer)

/-- What actions report, first things first. -/
def events (as : List Action) : List Event := as.filterMap event?

section

variable {renderer : Renderer}

theorem file?_saveFigure {path : String} {drawing : Drawing} {f : String × List UInt8} :
    (saveFigure path drawing).file? renderer = some f ↔
      ∃ picture, renderer.draw drawing = .ok picture ∧ (path, picture) = f := by
  cases hdraw : renderer.draw drawing <;> simp [file?, hdraw]

theorem mem_files {as : List Action} {a : Action} {f : String × List UInt8} (ha : a ∈ as)
    (hf : a.file? renderer = some f) : f ∈ files renderer as :=
  List.mem_filterMap.mpr ⟨a, ha, hf⟩

theorem files_subset {as bs : List Action} (h : as ⊆ bs) :
    files renderer as ⊆ files renderer bs := by
  intro f hf
  obtain ⟨a, ha, hfile⟩ := List.mem_filterMap.mp hf
  exact mem_files (h ha) hfile

@[simp] theorem files_append (as bs : List Action) :
    files renderer (as ++ bs) = files renderer as ++ files renderer bs :=
  List.filterMap_append

theorem files_eq_nil {as : List Action} (h : ∀ a ∈ as, a.file? renderer = none) :
    files renderer as = [] :=
  List.filterMap_eq_nil_iff.mpr h

theorem mem_events_iff {as : List Action} {event : Event} :
    event ∈ events as ↔ report event ∈ as := by
  constructor
  · intro h
    obtain ⟨a, ha, hevent⟩ := List.mem_filterMap.mp h
    cases a with
    | report other =>
      cases hevent
      exact ha
    | _ => cases hevent
  · intro h
    exact List.mem_filterMap.mpr ⟨_, h, rfl⟩

/-- The paths of files end in the names given. Two folders may be one, or one inside the other, so
it is by the names that files are told apart. -/
def Named (fs : List (String × List UInt8)) (names : List String) : Prop :=
  List.Forall₂ (fun f name => Path.EndsIn f.1 name) fs names

theorem Named.exists_of_mem {fs : List (String × List UInt8)} {names : List String}
    (h : Named fs names) {f : String × List UInt8} (hf : f ∈ fs) :
    ∃ name ∈ names, Path.EndsIn f.1 name := by
  induction h with
  | nil => cases hf
  | cons hname _ ih =>
    rcases List.mem_cons.mp hf with rfl | hrest
    · exact ⟨_, List.mem_cons_self, hname⟩
    · obtain ⟨name, hmem, hends⟩ := ih hrest
      exact ⟨name, List.mem_cons_of_mem _ hmem, hends⟩

theorem Named.endsIn {fs : List (String × List UInt8)} {names : List String} (h : Named fs names) :
    ∀ f ∈ fs, ∃ name, Path.EndsIn f.1 name := by
  intro f hf
  obtain ⟨name, -, hname⟩ := h.exists_of_mem hf
  exact ⟨name, hname⟩

/-! ## One action -/

/-- Writing a file succeeds as the write does, and nothing else changes. A write that fails leaves
the tree as well as the log. -/
theorem perform_of_file? {j : Journal} {a : Action} {f : String × List UInt8}
    (h : a.file? renderer = some f) :
    (∃ u, j.tree.write f.1 f.2 = .ok u ∧ a.perform renderer j = ({ j with tree := u }, .ok ())) ∨
      ∃ kind e, j.tree.write f.1 f.2 = .error kind ∧ a.perform renderer j = (j, .error e) := by
  cases a with
  | createOutput | createFigures | report => cases h
  | saveArray folder name values =>
    cases h
    unfold perform
    dsimp only
    cases hwrite : j.tree.write (arrayPath folder name) (Npy.writeVector values) with
    | ok u => exact Or.inl ⟨u, rfl, rfl⟩
    | error kind => exact Or.inr ⟨kind, _, rfl, rfl⟩
  | saveFigure path drawing =>
    obtain ⟨picture, hdraw, rfl⟩ := file?_saveFigure.mp h
    unfold perform
    dsimp only
    rw [hdraw]
    dsimp only
    cases hwrite : j.tree.write path picture with
    | ok u => exact Or.inl ⟨u, rfl, rfl⟩
    | error kind => exact Or.inr ⟨kind, _, rfl, rfl⟩

theorem create_cases (j : Journal) (folder : String) (task : Task) :
    (create j folder task).1 = { j with tree := (j.tree.makeFolders folder).1 } ∧
      ((create j folder task).2 = .ok () ↔ (j.tree.makeFolders folder).2 = .ok ()) := by
  unfold create
  split
  next heq => simp [heq]
  next heq => simp [heq, Outcome.during, Outcome.fail]

/-- Making a folder changes the tree as that does, and succeeds if that does. The tree may have
changed though it failed: folders above may have been made. -/
theorem perform_of_folder? (renderer : Renderer) (j : Journal) {a : Action} {folder : String}
    (h : a.folder? = some folder) :
    (a.perform renderer j).1 = { j with tree := (j.tree.makeFolders folder).1 } ∧
      ((a.perform renderer j).2 = .ok () ↔ (j.tree.makeFolders folder).2 = .ok ()) := by
  cases a with
  | saveArray | saveFigure | report => cases h
  | createOutput f =>
    cases h
    exact create_cases j folder .createOutput
  | createFigures f =>
    cases h
    exact create_cases j folder .createFigures

/-- A refused drawing changes nothing, and fails without a task around it. -/
theorem perform_of_draw_error {drawing : Drawing} {words : String} (j : Journal) (path : String)
    (h : renderer.draw drawing = .error words) :
    (saveFigure path drawing).perform renderer j = (j, .error (Failure.ofRefusal words)) := by
  unfold perform
  dsimp only
  rw [h]

theorem Refused.perform_eq {a : Action} (h : a.Refused renderer) (j : Journal) :
    ∃ words, a.perform renderer j = (j, .error (Failure.ofRefusal words)) := by
  obtain ⟨path, drawing, words, rfl, hdraw⟩ := h
  exact ⟨words, perform_of_draw_error j path hdraw⟩

/-- Writing, making a folder, reporting and being refused are all there is. Proofs about an action
go by these four cases, and not by its constructors. -/
theorem kind_cases (renderer : Renderer) (a : Action) :
    (∃ f, a.file? renderer = some f ∧ a.event? = none) ∨
      (∃ folder, a.folder? = some folder ∧ a.event? = none) ∨
      (∃ event, a = report event) ∨ a.Refused renderer ∧ a.event? = none := by
  cases a with
  | saveArray => exact Or.inl ⟨_, rfl, rfl⟩
  | createOutput | createFigures => exact Or.inr (Or.inl ⟨_, rfl, rfl⟩)
  | report event => exact Or.inr (Or.inr (Or.inl ⟨event, rfl⟩))
  | saveFigure path drawing =>
    cases hdraw : renderer.draw drawing with
    | ok picture => exact Or.inl ⟨_, file?_saveFigure.mpr ⟨picture, hdraw, rfl⟩, rfl⟩
    | error words => exact Or.inr (Or.inr (Or.inr ⟨⟨path, drawing, words, rfl, hdraw⟩, rfl⟩))

/-- Reports never fail, so they can be left out of account where a run ends early. -/
theorem event?_of_error {j : Journal} {a : Action} {e : Failure}
    (h : (a.perform renderer j).2 = .error e) :
    a.event? = none := by
  rcases kind_cases renderer a with ⟨-, -, hevent⟩ | ⟨-, -, hevent⟩ | ⟨event, rfl⟩ | ⟨-, hevent⟩
  · exact hevent
  · exact hevent
  · cases h
  · exact hevent

theorem log_perform (renderer : Renderer) (j : Journal) (a : Action) :
    (a.perform renderer j).1.log = j.log ++ a.event?.toList := by
  rcases kind_cases renderer a with ⟨f, hfile, hevent⟩ | ⟨folder, hfolder, hevent⟩ | ⟨event, rfl⟩ |
    ⟨hrefused, hevent⟩
  · rcases perform_of_file? (j := j) hfile with ⟨u, -, hperform⟩ | ⟨-, e, -, hperform⟩
    · simp [hperform, hevent]
    · simp [hperform, hevent]
  · simp [(perform_of_folder? renderer j hfolder).1, hevent]
  · rfl
  · obtain ⟨words, hperform⟩ := hrefused.perform_eq j
    simp [hperform, hevent]

/-- The places of the files that actions write. -/
def FilePlace (renderer : Renderer) (as : List Action) (place : Location) : Prop :=
  ∃ f ∈ files renderer as, Location.named f.1 = place

/-- The places of the folders that actions make. -/
def FolderPlace (as : List Action) (place : Location) : Prop :=
  ∃ a ∈ as, ∃ folder, a.folder? = some folder ∧ Location.OnWay folder place

theorem FilePlace.mono {as bs : List Action} (h : as ⊆ bs) {place : Location}
    (hplace : FilePlace renderer as place) : FilePlace renderer bs place := by
  obtain ⟨f, hf, hnamed⟩ := hplace
  exact ⟨f, files_subset h hf, hnamed⟩

theorem FolderPlace.mono {as bs : List Action} (h : as ⊆ bs) {place : Location}
    (hplace : FolderPlace as place) : FolderPlace bs place := by
  obtain ⟨a, ha, hfolder⟩ := hplace
  exact ⟨a, h ha, hfolder⟩

/-- **An action touches the file or the folders that it is about**, whether it succeeds or not. The
file has to have a name for its place to be the one that is written. -/
theorem changesOnly_perform (j : Journal) {a : Action}
    (hname : ∀ f, a.file? renderer = some f → ∃ name, Path.EndsIn f.1 name) :
    Tree.ChangesOnly (FilePlace renderer [a]) (FolderPlace [a]) j.tree
      (a.perform renderer j).1.tree := by
  rcases kind_cases renderer a with ⟨f, hfile, -⟩ | ⟨folder, hfolder, -⟩ | ⟨event, rfl⟩ |
    ⟨hrefused, -⟩
  · obtain ⟨name, hends⟩ := hname f hfile
    rcases perform_of_file? (j := j) hfile with ⟨u, hwrite, hperform⟩ | ⟨-, e, -, hperform⟩
    · rw [hperform]
      refine (Tree.changesOnly_write hends hwrite).mono ?_ ?_
      · rintro place rfl
        exact ⟨f, mem_files List.mem_cons_self hfile, rfl⟩
      · exact fun _ h => h.elim
    · rw [hperform]
      exact .refl j.tree
  · rw [(perform_of_folder? renderer j hfolder).1]
    refine (Tree.changesOnly_makeFolders j.tree folder).mono ?_ ?_
    · exact fun _ h => h.elim
    · exact fun place h => ⟨a, List.mem_cons_self, folder, hfolder, h⟩
  · exact .refl j.tree
  · obtain ⟨words, hperform⟩ := hrefused.perform_eq j
    rw [hperform]
    exact .refl j.tree

/-! ## A run -/

theorem performAll_cons_of_ok {j : Journal} {a : Action} {as : List Action}
    (h : (a.perform renderer j).2 = .ok ()) :
    performAll renderer j (a :: as) = performAll renderer (a.perform renderer j).1 as := by
  rw [performAll]
  split
  next heq => rw [heq]
  next hne =>
    have heq : a.perform renderer j = ((a.perform renderer j).1, .ok ()) := Prod.ext rfl h
    exact absurd heq (hne _)

theorem performAll_cons_of_error {j : Journal} {a : Action} {as : List Action} {e : Failure}
    (h : (a.perform renderer j).2 = .error e) :
    performAll renderer j (a :: as) = a.perform renderer j := by
  rw [performAll]
  split
  next heq =>
    rw [heq] at h
    cases h
  next => rfl

/-- **A run touches the files and the folders that its actions are about**, wherever it ends. -/
theorem changesOnly_performAll {j : Journal} {as : List Action}
    (hnames : ∀ f ∈ files renderer as, ∃ name, Path.EndsIn f.1 name) :
    Tree.ChangesOnly (FilePlace renderer as) (FolderPlace as) j.tree
      (performAll renderer j as).1.tree := by
  induction as generalizing j with
  | nil => exact .refl j.tree
  | cons a as ih =>
    have hone : [a] ⊆ a :: as := by simp
    have hfirst : Tree.ChangesOnly (FilePlace renderer (a :: as)) (FolderPlace (a :: as)) j.tree
        (a.perform renderer j).1.tree := by
      refine (changesOnly_perform j fun f hf => ?_).mono (fun _ => .mono hone) fun _ => .mono hone
      exact hnames f (mem_files List.mem_cons_self hf)
    cases hresult : (a.perform renderer j).2 with
    | error e =>
      rw [performAll_cons_of_error hresult]
      exact hfirst
    | ok =>
      rw [performAll_cons_of_ok hresult]
      have hlater : as ⊆ a :: as := List.subset_cons_self a as
      refine hfirst.trans ((ih fun f hf => hnames f (files_subset hlater hf)).mono ?_ ?_)
      · exact fun _ => .mono hlater
      · exact fun _ => .mono hlater

/-- A file is read as before after a run that writes none of its name, wherever the run ends. The
tables that a run has read are such files, and so are the outputs of another run. -/
theorem read_performAll {j : Journal} {as : List Action} {path name : String} {content : List UInt8}
    (hname : Path.EndsIn path name)
    (has : ∀ f ∈ files renderer as, ∃ other, Path.EndsIn f.1 other ∧ other ≠ name)
    (hread : j.tree.read path = .ok content) :
    (performAll renderer j as).1.tree.read path = .ok content := by
  refine (changesOnly_performAll fun f hf => ?_).read hread ?_
  · exact (has f hf).imp fun _ h => h.1
  · rintro ⟨f, hf, hplace⟩
    obtain ⟨other, hother, hne⟩ := has f hf
    exact Location.named_ne hother hname hne hplace

/-! ## How far a run gets -/

/-- The actions of a run that succeed: all before the first that does not. -/
def performed (renderer : Renderer) (j : Journal) : List Action → List Action
  | [] => []
  | a :: as =>
    match a.perform renderer j with
    | (j, .ok ()) => a :: performed renderer j as
    | _ => []

theorem performed_cons_of_ok {j : Journal} {a : Action} {as : List Action}
    (h : (a.perform renderer j).2 = .ok ()) :
    performed renderer j (a :: as) = a :: performed renderer (a.perform renderer j).1 as := by
  rw [performed]
  split
  next heq => rw [heq]
  next hne =>
    have heq : a.perform renderer j = ((a.perform renderer j).1, .ok ()) := Prod.ext rfl h
    exact absurd heq (hne _)

theorem performed_cons_of_error {j : Journal} {a : Action} {as : List Action} {e : Failure}
    (h : (a.perform renderer j).2 = .error e) : performed renderer j (a :: as) = [] := by
  rw [performed]
  split
  next heq =>
    rw [heq] at h
    cases h
  next => rfl

/-- A run that succeeds performs everything. -/
theorem performed_eq_of_ok {j : Journal} {as : List Action}
    (h : (performAll renderer j as).2 = .ok ()) :
    performed renderer j as = as := by
  induction as generalizing j with
  | nil => rfl
  | cons a as ih =>
    cases hresult : (a.perform renderer j).2 with
    | error e =>
      rw [performAll_cons_of_error hresult, hresult] at h
      cases h
    | ok =>
      rw [performAll_cons_of_ok hresult] at h
      rw [performed_cons_of_ok hresult, ih h]

/-- A run that fails does so at an action that is no report, with all that comes before it done and
nothing of what comes after. -/
theorem exists_refused {j : Journal} {as : List Action} {e : Failure}
    (h : (performAll renderer j as).2 = .error e) :
    ∃ a rest, as = performed renderer j as ++ a :: rest ∧ a.event? = none := by
  induction as generalizing j with
  | nil => cases h
  | cons a as ih =>
    cases hresult : (a.perform renderer j).2 with
    | error e' =>
      refine ⟨a, as, ?_, event?_of_error hresult⟩
      rw [performed_cons_of_error hresult, List.nil_append]
    | ok =>
      rw [performAll_cons_of_ok hresult] at h
      obtain ⟨b, rest, hrest, hevent⟩ := ih h
      refine ⟨b, rest, ?_, hevent⟩
      rw [performed_cons_of_ok hresult, List.cons_append, ← hrest]

theorem performed_isPrefix (renderer : Renderer) (j : Journal) (as : List Action) :
    performed renderer j as <+: as := by
  cases h : (performAll renderer j as).2 with
  | ok => rw [performed_eq_of_ok h]
  | error e =>
    obtain ⟨a, rest, has, -⟩ := exists_refused h
    exact ⟨a :: rest, has.symm⟩

/-- A run that fails has not got to the reports it ends in. What a run says at its end is so a sign
that it has succeeded. -/
theorem performed_isPrefix_of_error {j : Journal} {work : List Action} {reported : List Event}
    {e : Failure} (h : (performAll renderer j (work ++ reported.map report)).2 = .error e) :
    performed renderer j (work ++ reported.map report) <+: work := by
  obtain ⟨a, rest, hsplit, hevent⟩ := exists_refused h
  rcases List.append_eq_append_iff.mp hsplit with ⟨later, -, hlater⟩ | ⟨later, hwork, -⟩
  · have hmem : a ∈ reported.map report := by simp [hlater]
    obtain ⟨event, -, rfl⟩ := List.mem_map.mp hmem
    cases hevent
  · exact ⟨later, hwork.symm⟩

/-- **The log says what was performed**, and it says it in order. What had been reported before
stands first. -/
theorem log_performAll (renderer : Renderer) (j : Journal) (as : List Action) :
    (performAll renderer j as).1.log = j.log ++ events (performed renderer j as) := by
  induction as generalizing j with
  | nil => exact (List.append_nil _).symm
  | cons a as ih =>
    have hlog := log_perform renderer j a
    cases hresult : (a.perform renderer j).2 with
    | error e =>
      rw [performAll_cons_of_error hresult, performed_cons_of_error hresult, hlog,
        event?_of_error hresult]
      rfl
    | ok =>
      rw [performAll_cons_of_ok hresult, performed_cons_of_ok hresult, ih, hlog, List.append_assoc]
      cases hevent : a.event? <;> simp [events, hevent]

/-- The log of a run that succeeds says all that its actions report. -/
theorem log_performAll_of_ok {j : Journal} {as : List Action}
    (h : (performAll renderer j as).2 = .ok ()) :
    (performAll renderer j as).1.log = j.log ++ events as := by
  rw [log_performAll, performed_eq_of_ok h]

/-- **Every file that was written is read as it was written**, where no two have one name. It holds
up to wherever the run ends; the induction is on the actions, and each later one leaves the earlier
files alone. -/
theorem read_performed {j : Journal} {as : List Action} {names : List String}
    (hnames : Named (files renderer as) names) (hdistinct : names.Nodup) :
    ∀ f ∈ files renderer (performed renderer j as),
      (performAll renderer j as).1.tree.read f.1 = .ok f.2 := by
  induction as generalizing j names with
  | nil =>
    intro f hf
    cases hf
  | cons a as ih =>
    cases hresult : (a.perform renderer j).2 with
    | error e =>
      rw [performed_cons_of_error hresult]
      intro f hf
      cases hf
    | ok =>
      rw [performAll_cons_of_ok hresult, performed_cons_of_ok hresult]
      cases hfile : a.file? renderer with
      | none =>
        have hfiles : ∀ bs, files renderer (a :: bs) = files renderer bs :=
          fun bs => List.filterMap_cons_none hfile
        rw [hfiles] at hnames ⊢
        exact ih hnames hdistinct
      | some g =>
        have hfiles : ∀ bs, files renderer (a :: bs) = g :: files renderer bs :=
          fun bs => List.filterMap_cons_some hfile
        rw [hfiles] at hnames ⊢
        obtain ⟨name, rest, hname, hrest, rfl⟩ := List.forall₂_cons_left_iff.mp hnames
        obtain ⟨hfresh, hdistinct'⟩ := List.nodup_cons.mp hdistinct
        intro f hf
        rcases List.mem_cons.mp hf with rfl | hf
        · -- What is written first is there at once, and nothing after it has its name.
          rcases perform_of_file? (j := j) hfile with ⟨u, hwrite, hperform⟩ | ⟨-, e, -, hperform⟩
          · refine read_performAll hname ?_ ?_
            · intro f' hf'
              obtain ⟨other, hmem, hother⟩ := Named.exists_of_mem hrest hf'
              exact ⟨other, hother, fun heq => hfresh (heq ▸ hmem)⟩
            · rw [hperform]
              exact Tree.read_write hname hwrite
          · rw [hperform] at hresult
            cases hresult
        · exact ih hrest hdistinct' f hf

/-- A run that succeeds leaves every file as it wrote it, where no two have one name. -/
theorem read_files {j : Journal} {as : List Action} {names : List String}
    (hnames : Named (files renderer as) names) (hdistinct : names.Nodup)
    (hok : (performAll renderer j as).2 = .ok ()) :
    ∀ f ∈ files renderer as, (performAll renderer j as).1.tree.read f.1 = .ok f.2 := by
  have hread := read_performed (j := j) hnames hdistinct
  rw [performed_eq_of_ok hok] at hread
  exact hread

/-- Files of different names are at different places. -/
theorem Named.pairwise {fs : List (String × List UInt8)} {names : List String}
    (h : Named fs names) (hdistinct : names.Nodup) (t : Tree) :
    fs.Pairwise fun f g => ∀ place, t.locate f.1 = .ok place → t.locate g.1 ≠ .ok place := by
  induction h with
  | nil => exact .nil
  | cons hname hrest ih =>
    obtain ⟨hfresh, hdistinct⟩ := List.nodup_cons.mp hdistinct
    refine .cons (fun g hg place hf hg' => ?_) (ih hdistinct)
    obtain ⟨other, hmem, hother⟩ := Named.exists_of_mem hrest hg
    refine Location.named_ne hname hother (fun heq => hfresh (heq ▸ hmem)) ?_
    rw [Tree.named_of_locate hf, Tree.named_of_locate hg']

end

end Action
end Beamline
