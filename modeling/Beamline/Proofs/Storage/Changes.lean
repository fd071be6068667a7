import Beamline.Proofs.Storage.Following

/-!
# Changes — what writing a file and making folders may touch

A tree decides whether a path can be followed, and not where to: what is found at the end is the
place that the parts spell out (`named_of_locate`). So the places that a change may touch are known
before it is made. Writing touches the place that its path names. Making folders touches the places
on the way to one, and of these only such that nothing stood at.

`ChangesOnly` says this of the trees before and after. It is transitive, so it holds of any number
of changes, and it holds of a change that ends half way.
-/

set_option autoImplicit false

namespace Beamline

/-! ## Named places -/

namespace Location

/-- Where parts lead from the working folder, as long as there are folders on the way. -/
def along (parts : List String) : Location := parts.foldl follow []

/-- The place that a path names. It does not depend on a tree, and neither slashes at its end nor
single points in it matter to it. -/
def named (path : String) : Location := along (Path.parts path)

/-- A place on the way to the one that a path names, which is the last of them. All of them may be
made where folders are made for the path. -/
def OnWay (path : String) (place : Location) : Prop :=
  ∃ front, front <+: Path.steps path ∧ along front = place

theorem follow_stays (place : Location) {part : String} (h : Path.stays part = true) :
    place.follow part = place := by
  have hroot : part ≠ "/" := by
    rintro rfl
    simp [Path.stays] at h
  simp [follow, hroot, h]

theorem along_filter (parts : List String) :
    along (parts.filter fun part => ! Path.stays part) = along parts := by
  unfold along
  rw [List.foldl_filter]
  congr 1
  funext place part
  cases h : Path.stays part with
  | false => simp
  | true => simp [follow_stays place h]

theorem onWay_of_isPrefix {path : String} {front : List String} (h : front <+: Path.parts path) :
    OnWay path (along front) :=
  ⟨_, h.filter _, along_filter front⟩

theorem exists_named {path name : String} (h : Path.EndsIn path name) :
    ∃ q, named path = q ++ [name] := by
  obtain ⟨front, hparts⟩ := h.parts_eq
  refine ⟨along front, ?_⟩
  unfold named along
  rw [hparts, List.foldl_append, List.foldl_cons, List.foldl_nil, follow_name _ h.isName]

/-- Files of different names are at different places, whatever their folders are. It is what keeps
the outputs of a run from one another. -/
theorem named_ne {path path' name name' : String} (h : Path.EndsIn path name)
    (h' : Path.EndsIn path' name') (hne : name ≠ name') : named path ≠ named path' := by
  obtain ⟨q, hq⟩ := exists_named h
  obtain ⟨q', hq'⟩ := exists_named h'
  rw [hq, hq']
  exact ne_of_name_ne hne

end Location

namespace Tree

theorem foldl_of_walk {t : Tree} {place q : Location} {parts : List String}
    (h : t.walk place parts = .ok q) : parts.foldl Location.follow place = q := by
  induction parts generalizing place with
  | nil => exact Except.ok.inj h
  | cons part parts ih =>
    obtain ⟨next, honward, hrest⟩ := walk_cons_eq_ok_iff.mp h
    obtain ⟨-, -, hfollow⟩ := onward_eq_ok_iff.mp honward
    rw [List.foldl_cons, hfollow]
    exact ih hrest

/-- **Following a path leads to the place that it names**, if it leads anywhere. -/
theorem named_of_locate {t : Tree} {path : String} {place : Location}
    (h : t.locate path = .ok place) : Location.named path = place :=
  foldl_of_walk (locate_eq_ok_iff.mp h).2

/-! ## Changes -/

/-- The trees differ by files that were written at some places, where no folders were, and by
folders that were made at others, where nothing stood. Nothing is ever removed, and a folder stays
one; so paths that could be followed before can be followed after. -/
def ChangesOnly (files folders : Location → Prop) (t u : Tree) : Prop :=
  ∀ place, u.look place = t.look place ∨
    (files place ∧ t.look place ≠ some .folder ∧ ∃ content, u.look place = some (.file content)) ∨
    (folders place ∧ t.look place = none ∧ u.look place = some .folder)

namespace ChangesOnly

variable {files folders : Location → Prop} {t u v : Tree}

theorem refl (t : Tree) : ChangesOnly files folders t t := fun _ => Or.inl rfl

theorem trans (h : ChangesOnly files folders t u) (h' : ChangesOnly files folders u v) :
    ChangesOnly files folders t v := by
  intro place
  rcases h' place with hsame | ⟨hfile, hbefore, hafter⟩ | ⟨hfolder, hbefore, hafter⟩
  · rw [hsame]
    exact h place
  · refine Or.inr (Or.inl ⟨hfile, ?_, hafter⟩)
    intro ht
    rcases h place with hsame | ⟨-, hnot, -⟩ | ⟨-, hnone, -⟩
    · exact hbefore (hsame.trans ht)
    · exact hnot ht
    · rw [hnone] at ht
      cases ht
  · refine Or.inr (Or.inr ⟨hfolder, ?_, hafter⟩)
    rcases h place with hsame | ⟨-, -, content, hcontent⟩ | ⟨-, -, hmade⟩
    · exact hsame ▸ hbefore
    · rw [hbefore] at hcontent
      cases hcontent
    · rw [hbefore] at hmade
      cases hmade

theorem mono {files' folders' : Location → Prop} (h : ChangesOnly files folders t u)
    (hfiles : ∀ place, files place → files' place)
    (hfolders : ∀ place, folders place → folders' place) : ChangesOnly files' folders' t u := by
  intro place
  rcases h place with hsame | ⟨hfile, hchange⟩ | ⟨hfolder, hchange⟩
  · exact Or.inl hsame
  · exact Or.inr (Or.inl ⟨hfiles place hfile, hchange⟩)
  · exact Or.inr (Or.inr ⟨hfolders place hfolder, hchange⟩)

theorem keepsFolders (h : ChangesOnly files folders t u) : t.KeepsFolders u := by
  intro place ht
  rcases h place with hsame | ⟨-, hnot, -⟩ | ⟨-, hnone, -⟩
  · exact hsame.trans ht
  · exact absurd ht hnot
  · rw [hnone] at ht
    cases ht

/-- **A file is read as before**, unless it may have been written. Reading follows a path through
folders, and these are all kept. -/
theorem read (h : ChangesOnly files folders t u) {path : String} {content : List UInt8}
    (hread : t.read path = .ok content) (hfree : ¬ files (Location.named path)) :
    u.read path = .ok content := by
  refine h.keepsFolders.read hread fun place hlocate => ?_
  obtain ⟨place', hlocate', hlook⟩ := read_eq_ok_iff.mp hread
  cases Except.ok.inj (hlocate'.symm.trans hlocate)
  rcases h place with hsame | ⟨hfile, -⟩ | ⟨-, hnone, -⟩
  · exact hsame
  · exact absurd (named_of_locate hlocate ▸ hfile) hfree
  · rw [hnone] at hlook
    cases hlook

end ChangesOnly

/-! ## Writing -/

section

variable {t u : Tree} {path name : String} {content : List UInt8}

/-- Writing touches the place that its path names. -/
theorem changesOnly_write (hname : Path.EndsIn path name) (h : t.write path content = .ok u) :
    ChangesOnly (· = Location.named path) (fun _ => False) t u := by
  obtain ⟨place, hlocate, hlook, rfl⟩ := (write_eq_ok_iff hname).mp h
  intro q
  rw [look_set hlook]
  by_cases hq : q = place
  · subst hq
    exact Or.inr (Or.inl ⟨(named_of_locate hlocate).symm, hlook, content, if_pos rfl⟩)
  · exact Or.inl (if_neg hq)

/-- **What is written is read** by the same path, wherever that leads. -/
theorem read_write (hname : Path.EndsIn path name) (h : t.write path content = .ok u) :
    u.read path = .ok content := by
  have hkeeps := (changesOnly_write hname h).keepsFolders
  obtain ⟨place, hlocate, hlook, rfl⟩ := (write_eq_ok_iff hname).mp h
  refine read_eq_ok_iff.mpr ⟨place, hkeeps.locate hlocate, ?_⟩
  rw [look_set hlook, if_pos rfl]

end

/-! ## Making folders

Every folder is made at the end of parts that begin the parts of the path: the whole of them at
first, and where something is missing on the way, fewer. So what holds of making one folder at such
a place, and of one change after another, holds of making folders. -/

section

variable {p : Location → Prop} {R : Tree → Tree → Prop}

theorem dropSlashes_isPrefix (parts : List String) : dropSlashes parts <+: parts := by
  unfold dropSlashes
  rw [← List.reverse_suffix, List.reverse_reverse]
  exact List.dropWhile_suffix _

/-- A relation that trees are in when folders have been made at some places, where nothing stood.
Making folders tries one after another, and may give up half way; what is true of each single folder
and is transitive is true of all that, and said once for every such relation. -/
structure AllowsFolders (p : Location → Prop) (R : Tree → Tree → Prop) : Prop where
  refl : ∀ t, R t t
  trans : ∀ {t u v}, R t u → R u v → R t v
  make : ∀ {t place}, p place → t.look place = none → R t (t.set place .folder)

namespace AllowsFolders

theorem makeFolder (h : AllowsFolders p R) {t u : Tree} {parts : List String}
    (hmake : t.makeFolder parts = .ok u) (hp : p (Location.along (dropSlashes parts))) : R t u := by
  unfold Tree.makeFolder at hmake
  split at hmake
  next => cases hmake
  next place hplace =>
    split at hmake
    next => cases hmake
    next hlook =>
      have hend : Location.along (dropSlashes parts) = place := foldl_of_walk hplace
      cases hmake
      exact h.make (hend ▸ hp) (by simpa using hlook)

theorem settle (h : AllowsFolders p R) (t : Tree) {parts : List String}
    (hp : p (Location.along (dropSlashes parts))) : R t (t.settle parts).1 := by
  unfold Tree.settle
  split
  next made hmade => exact h.makeFolder hmade hp
  next => exact h.refl t

theorem makeAlong (h : AllowsFolders p R) (t : Tree) {steps : List String}
    (hp : ∀ front, front <+: steps.reverse → p (Location.along front)) :
    R t (t.makeAlong steps).1 := by
  induction steps generalizing t with
  | nil => exact h.refl t
  | cons step above ih =>
    have hall : p (Location.along (dropSlashes (step :: above).reverse)) :=
      hp _ (dropSlashes_isPrefix _)
    unfold Tree.makeAlong
    dsimp only
    split
    next =>
      have habove := ih t fun front hfront => by
        refine hp front (hfront.trans ?_)
        rw [List.reverse_cons]
        exact List.prefix_append _ _
      split
      next u hu =>
        rw [hu] at habove
        exact h.trans habove (h.settle u hall)
      next => exact habove
    next => exact h.settle t hall

/-- **What making one folder does, making folders on the way to one does**, whether it succeeds or
not. -/
theorem makeFolders {path : String} (h : AllowsFolders (Location.OnWay path) R) (t : Tree) :
    R t (t.makeFolders path).1 := by
  have hall : Location.OnWay path (Location.along (dropSlashes (Path.parts path))) :=
    Location.onWay_of_isPrefix (dropSlashes_isPrefix _)
  unfold Tree.makeFolders
  split
  next => exact h.refl t
  next =>
    split
    next => exact h.refl t
    next =>
      dsimp only
      split
      next =>
        have halong : R t (t.makeAlong (Path.steps path).dropLast.reverse).1 := by
          apply h.makeAlong
          intro front hfront
          rw [List.reverse_reverse] at hfront
          exact ⟨front, hfront.trans (List.dropLast_prefix _), rfl⟩
        split
        next u hu =>
          rw [hu] at halong
          exact h.trans halong (h.settle u hall)
        next => exact halong
      next => exact h.settle t hall

end AllowsFolders

theorem allowsFolders_changesOnly : AllowsFolders p (ChangesOnly (fun _ => False) p) where
  refl := .refl
  trans := .trans
  make := by
    intro t place hp hnone q
    rw [look_set (by rw [hnone]; simp)]
    by_cases hq : q = place
    · subst hq
      exact Or.inr (Or.inr ⟨hp, hnone, if_pos rfl⟩)
    · exact Or.inl (if_neg hq)

theorem changesOnly_makeAlong (t : Tree) {steps : List String}
    (hp : ∀ front, front <+: steps.reverse → p (Location.along front)) :
    ChangesOnly (fun _ => False) p t (t.makeAlong steps).1 :=
  allowsFolders_changesOnly.makeAlong t hp

/-- **Making folders makes folders on the way to one**, whether it succeeds or not. -/
theorem changesOnly_makeFolders (t : Tree) (path : String) :
    ChangesOnly (fun _ => False) (Location.OnWay path) t (t.makeFolders path).1 :=
  allowsFolders_changesOnly.makeFolders t

end

/-! ## Folders that are there

Making folders fails only where one of them is not there in the end. So if a file is found in a
folder after the folder was to be made, then it was made, or was there. -/

theorem isFolder_iff {t : Tree} {parts : List String} :
    t.isFolder parts = true ↔ ∃ place, t.walk [] parts = .ok place ∧
      t.look place = some .folder := by
  unfold isFolder placeOf
  cases h : t.walk [] parts with
  | error kind => simp
  | ok place => simp

theorem isFolder_of_isPrefix {t : Tree} {front parts : List String} (hbegins : front <+: parts)
    (h : t.isFolder parts = true) : t.isFolder front = true := by
  obtain ⟨back, rfl⟩ := hbegins
  obtain ⟨place, hwalk, hlook⟩ := isFolder_iff.mp h
  obtain ⟨m, hfront, hback⟩ := walk_append_eq_ok_iff.mp hwalk
  refine isFolder_iff.mpr ⟨m, hfront, ?_⟩
  cases back with
  | nil =>
    cases Except.ok.inj hback
    exact hlook
  | cons part back =>
    obtain ⟨next, honward, -⟩ := walk_cons_eq_ok_iff.mp hback
    exact (onward_eq_ok_iff.mp honward).1

theorem walk_steps {t : Tree} {place q : Location} {parts : List String}
    (h : t.walk place parts = .ok q) :
    t.walk place (parts.filter fun part => ! Path.stays part) = .ok q := by
  induction parts generalizing place with
  | nil => exact h
  | cons part parts ih =>
    obtain ⟨next, honward, hrest⟩ := walk_cons_eq_ok_iff.mp h
    cases hstays : Path.stays part with
    | false =>
      rw [List.filter_cons_of_pos (by simp [hstays])]
      exact walk_cons_eq_ok_iff.mpr ⟨next, honward, ih hrest⟩
    | true =>
      obtain ⟨-, -, hfollow⟩ := onward_eq_ok_iff.mp honward
      rw [Location.follow_stays place hstays] at hfollow
      rw [List.filter_cons_of_neg (by simp [hstays]), hfollow]
      exact ih hrest

end Tree
end Beamline
