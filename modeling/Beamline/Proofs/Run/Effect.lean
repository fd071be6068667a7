import Beamline.Proofs.Run.Action
import Beamline.Proofs.Storage.Folders

/-!
# The effect of a run — performed again, and performed beside another

What a run of actions that succeeds leaves behind depends on the actions alone: their files with
their contents, and folders on the way to their folders (`look_performAll`). Nothing of what stood
there before shows. So performing the same actions once more changes nothing (`performAll_again`):
every file is there as it would be written, and every folder is there.

A run also succeeds in a tree that another run has added to (`performAll_of_changesOnly`), if
neither has a file where the other has a folder. The two trees differ then by what the other run
added, at every step.
-/

set_option autoImplicit false

namespace Beamline

namespace Tree

variable {t u : Tree} {path name : String} {content : List UInt8}

theorem get_of_look {place : Location} (h : t.look place ≠ some .folder) :
    t.get place = t.look place := by
  unfold look
  rw [isAnchor_of_look h]
  rfl

/-- Writing what is there changes nothing. -/
theorem write_of_read (hname : Path.EndsIn path name) (h : t.read path = .ok content) :
    t.write path content = .ok t := by
  obtain ⟨place, hlocate, hlook⟩ := read_eq_ok_iff.mp h
  have hnot : t.look place ≠ some .folder := by
    rw [hlook]
    simp
  refine (write_eq_ok_iff hname).mpr ⟨place, hlocate, hnot, ext_get fun q => ?_⟩
  rw [get_set]
  split
  next hq => rw [hq, get_of_look hnot, hlook]
  next => rfl

section

variable {files folders : Location → Prop} {t' : Tree}

/-- A write that succeeds does so in a tree that has more, if no folder was added at its place. The
difference stays the same. -/
theorem ChangesOnly.write (h : ChangesOnly files folders t u) (hname : Path.EndsIn path name)
    (hplace : ¬ folders (Location.named path)) (hwrite : t.write path content = .ok t') :
    ∃ u', u.write path content = .ok u' ∧ ChangesOnly files folders t' u' := by
  obtain ⟨place, hlocate, hlook, rfl⟩ := (write_eq_ok_iff hname).mp hwrite
  rw [named_of_locate hlocate] at hplace
  have hlook' : u.look place ≠ some .folder := by
    rcases h place with hsame | ⟨-, -, content, hcontent⟩ | ⟨hother, -⟩
    · rw [hsame]
      exact hlook
    · rw [hcontent]
      simp
    · exact absurd hother hplace
  refine ⟨_, (write_eq_ok_iff hname).mpr ⟨place, h.keepsFolders.locate hlocate, hlook', rfl⟩,
    fun q => ?_⟩
  rw [look_set hlook, look_set hlook']
  by_cases hq : q = place
  · rw [if_pos hq, if_pos hq]
    exact Or.inl rfl
  · rw [if_neg hq, if_neg hq]
    exact h q

/-- Folders that can be made can be made in a tree that has more, if no file was added on the way to
them. -/
theorem ChangesOnly.makeFolders (h : ChangesOnly files folders t u)
    (hplace : ∀ place, Location.OnWay path place → ¬ files place)
    (hmake : (t.makeFolders path).2 = .ok ()) :
    (u.makeFolders path).2 = .ok () ∧
      ChangesOnly files folders (t.makeFolders path).1 (u.makeFolders path).1 := by
  have hmake' : (u.makeFolders path).2 = .ok () := by
    refine makeFolders_of_keepsFolders h.keepsFolders ?_ hmake
    intro place hway content hcontent
    rcases h place with hsame | ⟨hother, -⟩ | ⟨-, -, hthere⟩
    · -- A file there would have been in the way.
      have hkept := t.changesOnly_makeFolders path place
      rw [(look_makeFolders hmake place).1 hway, ← hsame, hcontent] at hkept
      simp at hkept
    · exact hplace place hway hother
    · rw [hthere] at hcontent
      cases hcontent
  refine ⟨hmake', fun q => ?_⟩
  obtain ⟨hon, hoff⟩ := look_makeFolders hmake q
  obtain ⟨hon', hoff'⟩ := look_makeFolders hmake' q
  by_cases hq : Location.OnWay path q
  · exact Or.inl ((hon' hq).trans (hon hq).symm)
  · rw [hoff hq, hoff' hq]
    exact h q

end

end Tree

namespace Action

variable {renderer : Renderer} {j : Journal} {a : Action} {as : List Action} {names : List String}

/-! ## Again -/

/-- Nothing is left to do for an action: it can be drawn, its file is there as it would be written,
its folder is there. -/
structure Done (renderer : Renderer) (t : Tree) (a : Action) : Prop where
  not_refused : ¬ a.Refused renderer
  read : ∀ f, a.file? renderer = some f → t.read f.1 = .ok f.2
  hasFolders : ∀ folder, a.folder? = some folder → t.HasFolders folder

theorem perform_of_done (hname : ∀ f, a.file? renderer = some f → ∃ name, Path.EndsIn f.1 name)
    (h : Done renderer j.tree a) :
    a.perform renderer j = ({ j with log := j.log ++ a.event?.toList }, .ok ()) := by
  rcases kind_cases renderer a with ⟨f, hfile, hevent⟩ | ⟨folder, hfolder, hevent⟩ | ⟨event, rfl⟩ |
    ⟨hrefused, -⟩
  · obtain ⟨name, hends⟩ := hname f hfile
    have hwrite := Tree.write_of_read hends (h.read f hfile)
    rcases perform_of_file? (j := j) hfile with ⟨u, hu, hperform⟩ | ⟨kind, e, herror, -⟩
    · rw [hwrite] at hu
      cases hu
      simp [hperform, hevent]
    · rw [hwrite] at herror
      cases herror
  · obtain ⟨hmake, hok⟩ := perform_of_folder? renderer j hfolder
    rw [Tree.makeFolders_of_hasFolders (h.hasFolders folder hfolder)] at hmake hok
    refine Prod.ext ?_ (hok.mpr rfl)
    simp [hmake, hevent]
  · rfl
  · exact absurd hrefused h.not_refused

/-- **Where nothing is left to do, performing changes nothing.** -/
theorem performAll_of_done (hnames : ∀ f ∈ files renderer as, ∃ name, Path.EndsIn f.1 name)
    (h : ∀ a ∈ as, Done renderer j.tree a) :
    performAll renderer j as = ({ j with log := j.log ++ events as }, .ok ()) := by
  induction as generalizing j with
  | nil => simp [performAll, events]
  | cons a as ih =>
    obtain ⟨hfirst, hrest⟩ := List.forall_mem_cons.mp h
    have hperform := perform_of_done (fun f hf => hnames f (mem_files List.mem_cons_self hf)) hfirst
    rw [performAll_cons_of_ok (by rw [hperform]), hperform, ih]
    · cases hevent : a.event? <;> simp [events, hevent]
    · exact fun f hf => hnames f (files_subset (List.subset_cons_self a as) hf)
    · exact hrest

/-- A run that succeeds has drawn everything. -/
theorem not_refused_of_ok (hok : (performAll renderer j as).2 = .ok ()) :
    ∀ a ∈ as, ¬ a.Refused renderer := by
  induction as generalizing j with
  | nil =>
    intro a ha
    cases ha
  | cons a as ih =>
    cases hresult : (a.perform renderer j).2 with
    | error e =>
      rw [performAll_cons_of_error hresult, hresult] at hok
      cases hok
    | ok =>
      rw [performAll_cons_of_ok hresult] at hok
      refine List.forall_mem_cons.mpr ⟨fun hrefused => ?_, ih hok⟩
      obtain ⟨words, hperform⟩ := hrefused.perform_eq j
      rw [hperform] at hresult
      cases hresult

theorem hasFolders_performAll (hnames : ∀ f ∈ files renderer as, ∃ name, Path.EndsIn f.1 name)
    (hok : (performAll renderer j as).2 = .ok ()) :
    ∀ a ∈ as, ∀ folder, a.folder? = some folder →
      (performAll renderer j as).1.tree.HasFolders folder := by
  induction as generalizing j with
  | nil =>
    intro a ha
    cases ha
  | cons a as ih =>
    have hlater : ∀ f ∈ files renderer as, ∃ name, Path.EndsIn f.1 name :=
      fun f hf => hnames f (files_subset (List.subset_cons_self a as) hf)
    cases hresult : (a.perform renderer j).2 with
    | error e =>
      rw [performAll_cons_of_error hresult, hresult] at hok
      cases hok
    | ok =>
      rw [performAll_cons_of_ok hresult] at hok ⊢
      intro b hb folder hfolder
      rcases List.mem_cons.mp hb with rfl | hb
      · -- What is made first is there at once, and nothing after it takes it away.
        obtain ⟨hmake, hmade⟩ := perform_of_folder? renderer j hfolder
        have hthere := Tree.hasFolders_of_makeFolders (hmade.mp hresult)
        refine (changesOnly_performAll hlater).keepsFolders.hasFolders ?_
        rw [hmake]
        exact hthere
      · exact ih hlater hok b hb folder hfolder

/-- **A run that succeeds leaves nothing to do**, where no two files have one name. -/
theorem done_of_ok (hnames : Named (files renderer as) names) (hdistinct : names.Nodup)
    (hok : (performAll renderer j as).2 = .ok ()) :
    ∀ a ∈ as, Done renderer (performAll renderer j as).1.tree a := by
  intro a ha
  refine ⟨not_refused_of_ok hok a ha, ?_, ?_⟩
  · intro f hf
    exact read_files hnames hdistinct hok f (mem_files ha hf)
  · exact hasFolders_performAll hnames.endsIn hok a ha

/-- **Performing the same actions again changes nothing** and reports the same. -/
theorem performAll_again (hnames : Named (files renderer as) names) (hdistinct : names.Nodup)
    (hok : (performAll renderer j as).2 = .ok ()) (log : List Event) :
    performAll renderer ⟨(performAll renderer j as).1.tree, log⟩ as =
      (⟨(performAll renderer j as).1.tree, log ++ events as⟩, .ok ()) :=
  performAll_of_done hnames.endsIn (done_of_ok hnames hdistinct hok)

/-! ## Everywhere -/

/-- **What stands where after a run that succeeds**: its files as they were written, folders on the
way to its folders, and elsewhere what stood there. The three do not overlap, as no file of the run
is at one of its folders (`not_folderPlace_of_filePlace`). -/
theorem look_performAll (hnames : Named (files renderer as) names) (hdistinct : names.Nodup)
    (hok : (performAll renderer j as).2 = .ok ()) (place : Location) :
    (∀ f ∈ files renderer as, Location.named f.1 = place →
      (performAll renderer j as).1.tree.look place = some (.file f.2)) ∧
    (FolderPlace as place → (performAll renderer j as).1.tree.look place = some .folder) ∧
    (¬ FilePlace renderer as place → ¬ FolderPlace as place →
      (performAll renderer j as).1.tree.look place = j.tree.look place) := by
  have hends := hnames.endsIn
  refine ⟨fun f hf hplace => ?_, ?_, fun hfile hfolder => ?_⟩
  · obtain ⟨place', hlocate, hlook⟩ := Tree.read_eq_ok_iff.mp (read_files hnames hdistinct hok f hf)
    rw [← hplace, Tree.named_of_locate hlocate]
    exact hlook
  · rintro ⟨a, ha, folder, hfolder, hplace⟩
    exact (hasFolders_performAll hends hok a ha folder hfolder).look hplace
  · rcases changesOnly_performAll (j := j) hends place with hsame | ⟨hyes, -⟩ | ⟨hyes, -⟩
    · exact hsame
    · exact absurd hyes hfile
    · exact absurd hyes hfolder

theorem keepsAnchors_performAll (hnames : ∀ f ∈ files renderer as, ∃ name, Path.EndsIn f.1 name) :
    j.tree.KeepsAnchors (performAll renderer j as).1.tree := by
  induction as generalizing j with
  | nil => exact fun _ _ => rfl
  | cons a as ih =>
    have hfirst : j.tree.KeepsAnchors (a.perform renderer j).1.tree := by
      rcases kind_cases renderer a with ⟨f, hf, -⟩ | ⟨folder, hf, -⟩ | ⟨event, rfl⟩ | ⟨hrefused, -⟩
      · obtain ⟨name, hends⟩ := hnames f (mem_files List.mem_cons_self hf)
        rcases perform_of_file? (j := j) hf with ⟨u, hwrite, hperform⟩ | ⟨-, e, -, hperform⟩
        · obtain ⟨place, -, hlook, rfl⟩ := (Tree.write_eq_ok_iff hends).mp hwrite
          rw [hperform]
          exact Tree.keepsAnchors_set hlook _
        · rw [hperform]
          exact fun _ _ => rfl
      · rw [(perform_of_folder? renderer j hf).1]
        exact Tree.keepsAnchors_makeFolders j.tree folder
      · exact fun _ _ => rfl
      · obtain ⟨words, hperform⟩ := hrefused.perform_eq j
        rw [hperform]
        exact fun _ _ => rfl
    cases hresult : (a.perform renderer j).2 with
    | error e =>
      rw [performAll_cons_of_error hresult]
      exact hfirst
    | ok =>
      rw [performAll_cons_of_ok hresult]
      exact hfirst.trans (ih fun f hf => hnames f (files_subset (List.subset_cons_self a as) hf))

/-- No file of a run that succeeds is where it has a folder. -/
theorem not_folderPlace_of_filePlace (hnames : Named (files renderer as) names)
    (hdistinct : names.Nodup) (hok : (performAll renderer j as).2 = .ok ()) {place : Location}
    (h : FilePlace renderer as place) :
    ¬ FolderPlace as place := by
  intro hfolder
  obtain ⟨f, hf, hplace⟩ := h
  obtain ⟨hfile, hthere, -⟩ := look_performAll hnames hdistinct hok place
  have hboth := (hthere hfolder).symm.trans (hfile f hf hplace)
  cases hboth

/-! ## Beside another run -/

section

variable {files' folders' : Location → Prop} {log log' : List Event} {t u : Tree}

/-- An action that succeeds does so where another run has written files and made folders, if its own
file is at none of those folders, and its own folders at none of those files. The difference stays
the same. -/
theorem perform_of_changesOnly
    (hname : ∀ f, a.file? renderer = some f → ∃ name, Path.EndsIn f.1 name)
    (hfile : ∀ place, FilePlace renderer [a] place → ¬ folders' place)
    (hfolder : ∀ place, FolderPlace [a] place → ¬ files' place)
    (hchange : Tree.ChangesOnly files' folders' t u)
    (hok : (a.perform renderer ⟨t, log⟩).2 = .ok ()) :
    (a.perform renderer ⟨u, log'⟩).2 = .ok () ∧
      Tree.ChangesOnly files' folders' (a.perform renderer ⟨t, log⟩).1.tree
        (a.perform renderer ⟨u, log'⟩).1.tree := by
  rcases kind_cases renderer a with ⟨f, hf, -⟩ | ⟨folder, hf, -⟩ | ⟨event, rfl⟩ | ⟨hrefused, -⟩
  · obtain ⟨name, hends⟩ := hname f hf
    rcases perform_of_file? (j := ⟨t, log⟩) hf with ⟨made, hwrite, hperform⟩ | ⟨-, e, -, hperform⟩
    · have hmine := hfile _ ⟨f, mem_files List.mem_cons_self hf, rfl⟩
      obtain ⟨made', hwrite', hchange'⟩ := hchange.write hends hmine hwrite
      rcases perform_of_file? (j := ⟨u, log'⟩) hf with ⟨u', hu', hperform'⟩ | ⟨kind, -, hkind, -⟩
      · rw [hwrite'] at hu'
        cases hu'
        rw [hperform, hperform']
        exact ⟨rfl, hchange'⟩
      · rw [hwrite'] at hkind
        cases hkind
    · rw [hperform] at hok
      cases hok
  · obtain ⟨hmake, hmade⟩ := perform_of_folder? renderer ⟨t, log⟩ hf
    obtain ⟨hmake', hmade'⟩ := perform_of_folder? renderer ⟨u, log'⟩ hf
    have hmine : ∀ place, Location.OnWay folder place → ¬ files' place :=
      fun place hplace => hfolder place ⟨a, List.mem_cons_self, folder, hf, hplace⟩
    obtain ⟨hsecond, hchange'⟩ := hchange.makeFolders hmine (hmade.mp hok)
    rw [hmake, hmake']
    exact ⟨hmade'.mpr hsecond, hchange'⟩
  · exact ⟨rfl, hchange⟩
  · obtain ⟨words, hperform⟩ := hrefused.perform_eq ⟨t, log⟩
    rw [hperform] at hok
    cases hok

/-- **A run that succeeds does so beside another**, if neither has a file where the other has a
folder. -/
theorem performAll_of_changesOnly (hnames : ∀ f ∈ files renderer as, ∃ name, Path.EndsIn f.1 name)
    (hfile : ∀ place, FilePlace renderer as place → ¬ folders' place)
    (hfolder : ∀ place, FolderPlace as place → ¬ files' place)
    (hchange : Tree.ChangesOnly files' folders' t u)
    (hok : (performAll renderer ⟨t, log⟩ as).2 = .ok ()) :
    (performAll renderer ⟨u, log'⟩ as).2 = .ok () := by
  induction as generalizing t u log log' with
  | nil => rfl
  | cons a as ih =>
    have hone : [a] ⊆ a :: as := by simp
    have hlater : as ⊆ a :: as := List.subset_cons_self a as
    cases hresult : (a.perform renderer ⟨t, log⟩).2 with
    | error e =>
      rw [performAll_cons_of_error hresult, hresult] at hok
      cases hok
    | ok =>
      rw [performAll_cons_of_ok hresult] at hok
      obtain ⟨hresult', hchange'⟩ := perform_of_changesOnly
        (fun f hf => hnames f (mem_files List.mem_cons_self hf))
        (fun place hplace => hfile place (hplace.mono hone))
        (fun place hplace => hfolder place (hplace.mono hone)) hchange hresult
      rw [performAll_cons_of_ok hresult']
      exact ih (fun f hf => hnames f (files_subset hlater hf))
        (fun place hplace => hfile place (hplace.mono hlater))
        (fun place hplace => hfolder place (hplace.mono hlater)) hchange' hok

end

/-- **Two runs that succeed alone succeed in either order, and leave the same tree**, if they have
no file at one place and neither has a file where the other has a folder. -/
theorem performAll_comm {t : Tree} {bs : List Action} {names' : List String} {log log' : List Event}
    (hnames : Named (files renderer as) names) (hdistinct : names.Nodup)
    (hnames' : Named (files renderer bs) names') (hdistinct' : names'.Nodup)
    (hfiles : ∀ place, FilePlace renderer as place → ¬ FilePlace renderer bs place)
    (hfile : ∀ place, FilePlace renderer as place → ¬ FolderPlace bs place)
    (hfolder : ∀ place, FolderPlace as place → ¬ FilePlace renderer bs place)
    (hok : (performAll renderer ⟨t, log⟩ as).2 = .ok ())
    (hok' : (performAll renderer ⟨t, log'⟩ bs).2 = .ok ()) :
    (performAll renderer ⟨(performAll renderer ⟨t, log⟩ as).1.tree, log'⟩ bs).2 = .ok () ∧
      (performAll renderer ⟨(performAll renderer ⟨t, log'⟩ bs).1.tree, log⟩ as).2 = .ok () ∧
      (performAll renderer ⟨(performAll renderer ⟨t, log⟩ as).1.tree, log'⟩ bs).1.tree =
        (performAll renderer ⟨(performAll renderer ⟨t, log'⟩ bs).1.tree, log⟩ as).1.tree := by
  have hends := hnames.endsIn
  have hends' := hnames'.endsIn
  have hthen : (performAll renderer ⟨(performAll renderer ⟨t, log⟩ as).1.tree, log'⟩ bs).2 =
      .ok () :=
    performAll_of_changesOnly hends' (fun place h h' => hfolder place h' h)
      (fun place h h' => hfile place h' h) (changesOnly_performAll (j := ⟨t, log⟩) hends) hok'
  have hthen' : (performAll renderer ⟨(performAll renderer ⟨t, log'⟩ bs).1.tree, log⟩ as).2 =
      .ok () :=
    performAll_of_changesOnly hends hfile hfolder
      (changesOnly_performAll (j := ⟨t, log'⟩) hends') hok
  refine ⟨hthen, hthen', ?_⟩
  have hanchors : t.KeepsAnchors (performAll renderer ⟨t, log⟩ as).1.tree :=
    keepsAnchors_performAll hends
  have hanchors' : t.KeepsAnchors (performAll renderer ⟨t, log'⟩ bs).1.tree :=
    keepsAnchors_performAll hends'
  have hanchorsThen : Tree.KeepsAnchors (performAll renderer ⟨t, log⟩ as).1.tree
      (performAll renderer ⟨(performAll renderer ⟨t, log⟩ as).1.tree, log'⟩ bs).1.tree :=
    keepsAnchors_performAll (j := ⟨_, log'⟩) hends'
  have hanchorsThen' : Tree.KeepsAnchors (performAll renderer ⟨t, log'⟩ bs).1.tree
      (performAll renderer ⟨(performAll renderer ⟨t, log'⟩ bs).1.tree, log⟩ as).1.tree :=
    keepsAnchors_performAll (j := ⟨_, log⟩) hends
  refine (hanchors.trans hanchorsThen).eq_of_look (hanchors'.trans hanchorsThen') fun place => ?_
  obtain ⟨file, folder, other⟩ := look_performAll hnames hdistinct hok place
  obtain ⟨file', folder', other'⟩ := look_performAll hnames' hdistinct' hok' place
  obtain ⟨thenFile', thenFolder', thenOther'⟩ := look_performAll hnames' hdistinct' hthen place
  obtain ⟨thenFile, thenFolder, thenOther⟩ := look_performAll hnames hdistinct hthen' place
  -- What only one of the runs is about, the other leaves alone.
  by_cases hfirst : FilePlace renderer as place
  · obtain ⟨f, hf, hplace⟩ := hfirst
    have hmine : FilePlace renderer as place := ⟨f, hf, hplace⟩
    rw [thenOther' (hfiles place hmine) (hfile place hmine), thenFile f hf hplace]
    exact file f hf hplace
  by_cases hsecond : FilePlace renderer bs place
  · obtain ⟨f, hf, hplace⟩ := hsecond
    have hmine : FilePlace renderer bs place := ⟨f, hf, hplace⟩
    rw [thenOther hfirst fun h => hfolder place h hmine, thenFile' f hf hplace]
    exact (file' f hf hplace).symm
  by_cases hfolders : FolderPlace as place
  · rw [thenFolder hfolders]
    by_cases hfolders' : FolderPlace bs place
    · exact thenFolder' hfolders'
    · rw [thenOther' hsecond hfolders']
      exact folder hfolders
  · rw [thenOther hfirst hfolders]
    by_cases hfolders' : FolderPlace bs place
    · rw [thenFolder' hfolders', folder' hfolders']
    · rw [thenOther' hsecond hfolders', other hfirst hfolders, other' hsecond hfolders']

end Action
end Beamline
