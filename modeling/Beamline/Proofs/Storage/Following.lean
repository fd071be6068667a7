import Beamline.Proofs.Storage.Path
import Beamline.Storage.Files

/-!
# Following — what a path leads to, and what is written there

Following a path asks only one thing of the places on the way: that they are folders. So a path that
leads somewhere leads there still in any tree that has kept its folders (`KeepsFolders.locate`), and
what is read there is the same if that one place is (`KeepsFolders.read`). Writing a file succeeds
wherever its path leads to anything but a folder, and changes that place (`write_eq_ok_iff`).
-/

set_option autoImplicit false

namespace Beamline
namespace Tree

/-! ## Looking -/

theorem isAnchor_of_look {t : Tree} {place : Location} (h : t.look place ≠ some .folder) :
    place.isAnchor = false := by
  unfold look at h
  split at h
  next => exact absurd rfl h
  next hanchor => simpa using hanchor

/-- After a place is set, a look at it finds what was put there, and any other look is as before. An
anchor is a folder whatever is set, hence the condition that no folder is there. -/
theorem look_set {t : Tree} {place : Location} (h : t.look place ≠ some .folder) (e : Entry)
    (q : Location) : (t.set place e).look q = if q = place then some e else t.look q := by
  have hanchor := isAnchor_of_look h
  unfold look
  rw [get_set]
  by_cases hq : q = place
  · subst hq
    simp [hanchor]
  · simp [hq]

/-! ## Following parts -/

/-- Every folder of one tree is a folder of the other. Files may come, go and change: that is all
that a program does which writes files and creates folders, and following a path never asks about
them on the way. -/
def KeepsFolders (t u : Tree) : Prop :=
  ∀ place, t.look place = some .folder → u.look place = some .folder

theorem folderAt_eq_ok_iff {t : Tree} {place q : Location} :
    t.folderAt place = .ok q ↔ t.look place = some .folder ∧ place = q := by
  unfold folderAt
  split <;> simp_all

/-- One step along a path succeeds from a folder, by a part that is not too long, and then leads to
a place that does not depend on the tree. Everything about whole paths comes of this. -/
theorem onward_eq_ok_iff {t : Tree} {place q : Location} {part : String} :
    t.onward place part = .ok q ↔
      t.look place = some .folder ∧ part.utf8ByteSize ≤ nameLimit ∧ place.follow part = q := by
  unfold onward
  cases hfolder : t.folderAt place with
  | error kind =>
    have : t.look place ≠ some .folder := fun hlook => by
      have hok := folderAt_eq_ok_iff.mpr ⟨hlook, rfl⟩
      rw [hfolder] at hok
      cases hok
    simp [this]
  | ok folder =>
    obtain ⟨hlook, rfl⟩ := folderAt_eq_ok_iff.mp hfolder
    dsimp only
    split
    next hlong => simp [hlook, Nat.not_le.mpr hlong]
    next hshort => simp [hlook, Nat.not_lt.mp hshort]

theorem walk_cons_eq_ok_iff {t : Tree} {place q : Location} {part : String} {parts : List String} :
    t.walk place (part :: parts) = .ok q ↔
      ∃ next, t.onward place part = .ok next ∧ t.walk next parts = .ok q := by
  rw [walk]
  split
  next kind heq => simp [heq]
  next place' heq => simp [heq]

/-- A path is followed in two stages. The front of a file's path is its folder's, so what is known
of the folder decides where the file is. -/
theorem walk_append_eq_ok_iff {t : Tree} {place q : Location} {front back : List String} :
    t.walk place (front ++ back) = .ok q ↔
      ∃ m, t.walk place front = .ok m ∧ t.walk m back = .ok q := by
  induction front generalizing place with
  | nil => simp [walk]
  | cons part front ih =>
    rw [List.cons_append, walk_cons_eq_ok_iff]
    simp only [walk_cons_eq_ok_iff, ih]
    constructor
    · rintro ⟨next, hnext, m, hfront, hback⟩
      exact ⟨m, ⟨next, hnext, hfront⟩, hback⟩
    · rintro ⟨m, ⟨next, hnext, hfront⟩, hback⟩
      exact ⟨next, hnext, m, hfront, hback⟩

theorem locate_eq_ok_iff {t : Tree} {path : String} {q : Location} :
    t.locate path = .ok q ↔ refusal? path = none ∧ t.walk [] (Path.parts path) = .ok q := by
  unfold locate placeOf
  split
  next kind heq => simp [heq]
  next heq => simp [heq]

namespace KeepsFolders

variable {t u : Tree}

theorem walk (h : t.KeepsFolders u) {place q : Location} {parts : List String}
    (hwalk : t.walk place parts = .ok q) : u.walk place parts = .ok q := by
  induction parts generalizing place with
  | nil => exact hwalk
  | cons part parts ih =>
    obtain ⟨next, honward, hrest⟩ := walk_cons_eq_ok_iff.mp hwalk
    obtain ⟨hlook, hsize, hfollow⟩ := onward_eq_ok_iff.mp honward
    have honward' := onward_eq_ok_iff.mpr ⟨h place hlook, hsize, hfollow⟩
    exact walk_cons_eq_ok_iff.mpr ⟨next, honward', ih hrest⟩

/-- A path leads to the same place in every tree that has kept its folders. -/
theorem locate (h : t.KeepsFolders u) {path : String} {q : Location}
    (hlocate : t.locate path = .ok q) : u.locate path = .ok q := by
  obtain ⟨hrefusal, hwalk⟩ := locate_eq_ok_iff.mp hlocate
  exact locate_eq_ok_iff.mpr ⟨hrefusal, h.walk hwalk⟩

end KeepsFolders

/-- Reading succeeds where the path leads to a file, and gives its content. The two parts are what
later writes are held against: they leave the way and the place alone. -/
theorem read_eq_ok_iff {t : Tree} {path : String} {content : List UInt8} :
    t.read path = .ok content ↔
      ∃ place, t.locate path = .ok place ∧ t.look place = some (.file content) := by
  unfold read find
  cases hlocate : t.locate path with
  | error kind => simp
  | ok place =>
    dsimp only
    cases hlook : t.look place with
    | none => simp [hlook]
    | some e => cases e <;> simp [hlook]

/-- A file is read as before if its place is as before, whatever has been written elsewhere and
whatever folders have been created. -/
theorem KeepsFolders.read {t u : Tree} (h : t.KeepsFolders u) {path : String} {content : List UInt8}
    (hread : t.read path = .ok content)
    (hsame : ∀ place, t.locate path = .ok place → u.look place = t.look place) :
    u.read path = .ok content := by
  obtain ⟨place, hlocate, hlook⟩ := read_eq_ok_iff.mp hread
  exact read_eq_ok_iff.mpr ⟨place, h.locate hlocate, (hsame place hlocate).trans hlook⟩

/-! ## Writing -/

theorem dropSlashes_name (front : List String) {name : String} (h : name ≠ "") :
    dropSlashes (front ++ [name]) = front ++ [name] := by
  have hempty : ¬ name.isEmpty = true := fun hempty => h (String.isEmpty_iff.mp hempty)
  unfold dropSlashes
  rw [List.reverse_append, List.reverse_singleton, List.singleton_append,
    List.dropWhile_cons_of_neg hempty, List.reverse_cons, List.reverse_reverse]

/-- A file can be written wherever its path leads to, unless a folder is there, and the place is all
that changes. Nothing is asked about what was there before, so a longer old file is replaced like a
missing one. -/
theorem write_eq_ok_iff {t u : Tree} {path name : String} {content : List UInt8}
    (hname : Path.EndsIn path name) :
    t.write path content = .ok u ↔
      ∃ place, t.locate path = .ok place ∧ t.look place ≠ some .folder ∧
        t.set place (.file content) = u := by
  obtain ⟨front, hparts⟩ := hname.parts_eq
  have hdrop : dropSlashes (Path.parts path) = Path.parts path := by
    rw [hparts, dropSlashes_name front hname.isName.ne_empty]
  unfold write locate
  rw [hdrop, hname.not_slash]
  cases refusal? path with
  | some kind => simp
  | none =>
    cases t.placeOf (Path.parts path) with
    | error kind => simp
    | ok place =>
      by_cases hfolder : t.look place = some .folder
      · simp [hfolder]
      · simp [hfolder]

end Tree
end Beamline
