import Mathlib.Data.List.TakeWhile
import Beamline.Proofs.Storage.Changes

/-!
# Folders — making them again, and making them in a larger tree

A folder that was made is there (`hasFolders_of_makeFolders`), and making one that is there changes
nothing (`makeFolders_of_hasFolders`). So the tree after is known at every place from the path alone
(`look_makeFolders`).

Making folders also succeeds in a tree that has more in it, as long as no file stands on the way
(`makeFolders_of_keepsFolders`). This is not quite obvious: what is missing decides the order in
which folders are tried, and in the larger tree less is missing. But whatever was tried last in the
small tree can be tried in the large one, and what is on the way can only fail there by not being
there yet.

What a tree lists for its anchors is never looked at, and never changed (`KeepsAnchors`). So two
trees that came from one are equal as soon as the same stands everywhere
(`KeepsAnchors.eq_of_look`).
-/

set_option autoImplicit false

namespace Beamline
namespace Tree

variable {t u : Tree} {path : String} {parts : List String}

/-! ## Folders that are there -/

/-- The folders along a path are there. The empty path needs none. A path that is refused has none
either, even if a folder should stand where it leads. -/
def HasFolders (t : Tree) (path : String) : Prop :=
  path = "" ∨ refusal? path = none ∧ t.isFolder (Path.parts path) = true

theorem KeepsFolders.isFolder (h : t.KeepsFolders u) (hfolder : t.isFolder parts = true) :
    u.isFolder parts = true := by
  obtain ⟨place, hwalk, hlook⟩ := isFolder_iff.mp hfolder
  exact isFolder_iff.mpr ⟨place, h.walk hwalk, h place hlook⟩

theorem KeepsFolders.hasFolders (h : t.KeepsFolders u) (hfolders : t.HasFolders path) :
    u.HasFolders path :=
  hfolders.imp_right (And.imp_right h.isFolder)

theorem exists_slashes (parts : List String) :
    ∃ slashes, dropSlashes parts ++ slashes = parts ∧ ∀ part ∈ slashes, part = "" := by
  refine ⟨(parts.reverse.takeWhile String.isEmpty).reverse, ?_, ?_⟩
  · rw [dropSlashes, ← List.reverse_append, List.takeWhile_append_dropWhile, List.reverse_reverse]
  · intro part hpart
    exact String.isEmpty_iff.mp (List.mem_takeWhile_imp (List.mem_reverse.mp hpart))

/-- A slash after a folder leads nowhere else. -/
theorem walk_slashes {place : Location} {slashes : List String}
    (hlook : t.look place = some .folder)
    (hempty : ∀ part ∈ slashes, part = "") : t.walk place slashes = .ok place := by
  induction slashes with
  | nil => rfl
  | cons part slashes ih =>
    obtain ⟨rfl, hrest⟩ := List.forall_mem_cons.mp hempty
    have honward : t.onward place "" = .ok place :=
      onward_eq_ok_iff.mpr ⟨hlook, Nat.zero_le _, Location.follow_stays place rfl⟩
    exact walk_cons_eq_ok_iff.mpr ⟨place, honward, ih hrest⟩

/-- Slashes at the end do not matter to a folder. -/
theorem isFolder_dropSlashes : t.isFolder (dropSlashes parts) = true ↔ t.isFolder parts = true := by
  constructor
  · intro h
    obtain ⟨place, hwalk, hlook⟩ := isFolder_iff.mp h
    obtain ⟨slashes, hparts, hempty⟩ := exists_slashes parts
    refine isFolder_iff.mpr ⟨place, ?_, hlook⟩
    rw [← hparts]
    exact walk_append_eq_ok_iff.mpr ⟨place, hwalk, walk_slashes hlook hempty⟩
  · exact isFolder_of_isPrefix (dropSlashes_isPrefix parts)

theorem makeFolder_eq_ok_iff :
    t.makeFolder parts = .ok u ↔
      ∃ place, t.walk [] (dropSlashes parts) = .ok place ∧ t.look place = none ∧
        t.set place .folder = u := by
  unfold makeFolder placeOf
  cases hwalk : t.walk [] (dropSlashes parts) with
  | error kind => simp
  | ok place => cases hlook : t.look place <;> simp [hlook]

/-- A folder that was made is there. -/
theorem isFolder_of_makeFolder (h : t.makeFolder parts = .ok u) : u.isFolder parts = true := by
  obtain ⟨place, hwalk, hnone, rfl⟩ := makeFolder_eq_ok_iff.mp h
  have hfree : t.look place ≠ some .folder := by
    rw [hnone]
    simp
  have hlook := look_set hfree .folder
  have hkeeps : t.KeepsFolders (t.set place .folder) := by
    intro q hq
    rw [hlook]
    split
    · rfl
    · exact hq
  refine isFolder_dropSlashes.mp (isFolder_iff.mpr ⟨place, hkeeps.walk hwalk, ?_⟩)
  rw [hlook, if_pos rfl]

theorem makeFolder_of_isFolder (h : t.isFolder parts = true) :
    t.makeFolder parts = .error .alreadyExists := by
  obtain ⟨place, hwalk, hlook⟩ := isFolder_iff.mp (isFolder_dropSlashes.mpr h)
  unfold makeFolder placeOf
  rw [hwalk]
  simp [hlook]

theorem settle_of_isFolder (h : t.isFolder parts = true) : t.settle parts = (t, .ok ()) := by
  unfold settle
  rw [makeFolder_of_isFolder h]
  simp [h]

theorem isFolder_settle (h : (t.settle parts).2 = .ok ()) :
    (t.settle parts).1.isFolder parts = true := by
  unfold settle at h ⊢
  split at h
  next made hmade => exact isFolder_of_makeFolder hmade
  next kind hkind =>
    dsimp only at h ⊢
    split at h
    next hfolder => exact hfolder
    next => cases h

/-! ## One attempt

Folders are made by attempts: the last one is tried, then if something is missing those above it,
and the last one again. -/

/-- Makes a folder, and where something above it is missing, that first. Both the first folder that
is tried and those above it are made in this way, so each fact about it is used twice. -/
def attempt (t : Tree) (parts above : List String) : Tree × Except IoKind Unit :=
  match t.makeFolder parts with
  | .error .notFound =>
    match t.makeAlong above with
    | (t, .ok ()) => t.settle parts
    | failed => failed
  | _ => t.settle parts

theorem makeAlong_cons (t : Tree) (step : String) (above : List String) :
    t.makeAlong (step :: above) = t.attempt (step :: above).reverse above := by
  rw [makeAlong]
  rfl

theorem makeFolders_eq (hne : path ≠ "") (hrefusal : refusal? path = none) :
    t.makeFolders path = t.attempt (Path.parts path) (Path.steps path).dropLast.reverse := by
  have hnot : ¬ path.isEmpty = true := fun hempty => hne (String.isEmpty_iff.mp hempty)
  rw [makeFolders, if_neg hnot, hrefusal]
  rfl

theorem refusal?_of_makeFolders (hne : path ≠ "") (h : (t.makeFolders path).2 = .ok ()) :
    refusal? path = none := by
  have hnot : ¬ path.isEmpty = true := fun hempty => hne (String.isEmpty_iff.mp hempty)
  rw [makeFolders, if_neg hnot] at h
  cases hrefusal : refusal? path with
  | none => rfl
  | some kind =>
    rw [hrefusal] at h
    cases h

/-- An attempt settles the folder in the end, in the tree it started from or in one where everything
above has been made. Whatever came before that, the last step tells whether it succeeds. -/
theorem attempt_cases {above : List String} (h : (t.attempt parts above).2 = .ok ()) :
    t.attempt parts above = t.settle parts ∨
      (t.makeAlong above).2 = .ok () ∧
        t.attempt parts above = (t.makeAlong above).1.settle parts := by
  unfold attempt at h ⊢
  split
  next hmissing =>
    rw [hmissing] at h
    rcases hmade : t.makeAlong above with ⟨made, e | ⟨⟩⟩
    · rw [hmade] at h
      cases h
    · exact Or.inr ⟨rfl, rfl⟩
  next => exact Or.inl rfl

theorem isFolder_attempt {above : List String} (h : (t.attempt parts above).2 = .ok ()) :
    (t.attempt parts above).1.isFolder parts = true := by
  rcases attempt_cases h with heq | ⟨-, heq⟩
  · rw [heq] at h ⊢
    exact isFolder_settle h
  · rw [heq] at h ⊢
    exact isFolder_settle h

/-- **Folders that were made are there.** -/
theorem hasFolders_of_makeFolders (h : (t.makeFolders path).2 = .ok ()) :
    (t.makeFolders path).1.HasFolders path := by
  by_cases hne : path = ""
  · exact Or.inl hne
  · have hrefusal := refusal?_of_makeFolders hne h
    rw [makeFolders_eq hne hrefusal] at h ⊢
    exact Or.inr ⟨hrefusal, isFolder_attempt h⟩

/-- **Making folders that are there changes nothing.** -/
theorem makeFolders_of_hasFolders (h : t.HasFolders path) : t.makeFolders path = (t, .ok ()) := by
  rcases h with rfl | ⟨hrefusal, hfolder⟩
  · rfl
  · by_cases hne : path = ""
    · subst hne
      rfl
    · rw [makeFolders_eq hne hrefusal, attempt, makeFolder_of_isFolder hfolder,
        settle_of_isFolder hfolder]

theorem look_of_isFolder_steps (h : t.isFolder (Path.steps path) = true) {place : Location}
    (hplace : Location.OnWay path place) : t.look place = some .folder := by
  obtain ⟨front, hfront, rfl⟩ := hplace
  obtain ⟨place, hwalk, hlook⟩ := isFolder_iff.mp (isFolder_of_isPrefix hfront h)
  rw [Location.along, foldl_of_walk hwalk]
  exact hlook

theorem HasFolders.look (h : t.HasFolders path) {place : Location}
    (hplace : Location.OnWay path place) :
    t.look place = some .folder := by
  refine look_of_isFolder_steps ?_ hplace
  rcases h with rfl | ⟨-, hfolder⟩
  · exact isFolder_iff.mpr ⟨[], rfl, rfl⟩
  · obtain ⟨place, hwalk, hlook⟩ := isFolder_iff.mp hfolder
    exact isFolder_iff.mpr ⟨place, walk_steps hwalk, hlook⟩

/-- **What stands where after folders were made**: folders on the way, and elsewhere what stood
there. In which order they were tried does not show. -/
theorem look_makeFolders (h : (t.makeFolders path).2 = .ok ()) (place : Location) :
    (Location.OnWay path place → (t.makeFolders path).1.look place = some .folder) ∧
      (¬ Location.OnWay path place → (t.makeFolders path).1.look place = t.look place) := by
  refine ⟨(hasFolders_of_makeFolders h).look, fun hnot => ?_⟩
  rcases changesOnly_makeFolders t path place with hsame | ⟨hfile, -⟩ | ⟨hfolder, -⟩
  · exact hsame
  · exact hfile.elim
  · exact absurd hfolder hnot

/-! ## Anchors -/

/-- What is listed for the anchors is the same. An anchor is a folder whatever is listed for it, so
nobody looks; but two trees are equal only if their lists agree there as well. -/
def KeepsAnchors (t u : Tree) : Prop :=
  ∀ place, Location.isAnchor place = true → u.get place = t.get place

theorem KeepsAnchors.trans {v : Tree} (h : t.KeepsAnchors u) (h' : u.KeepsAnchors v) :
    t.KeepsAnchors v :=
  fun place hplace => (h' place hplace).trans (h place hplace)

theorem keepsAnchors_set {place : Location} (h : t.look place ≠ some .folder) (e : Entry) :
    t.KeepsAnchors (t.set place e) := by
  intro q hq
  have hne : q ≠ place := by
    rintro rfl
    rw [isAnchor_of_look h] at hq
    cases hq
  rw [get_set, if_neg hne]

theorem keepsAnchors_makeFolders (t : Tree) (path : String) :
    t.KeepsAnchors (t.makeFolders path).1 := by
  refine AllowsFolders.makeFolders ⟨fun _ _ _ => rfl, .trans, fun _ hnone => ?_⟩ t
  exact keepsAnchors_set (by rw [hnone]; simp) .folder

/-- Trees that came from one are equal if the same stands everywhere. -/
theorem KeepsAnchors.eq_of_look {v : Tree} (h : t.KeepsAnchors u) (h' : t.KeepsAnchors v)
    (hlook : ∀ place, u.look place = v.look place) : u = v := by
  refine ext_get fun place => ?_
  cases hanchor : Location.isAnchor place with
  | true => rw [h place hanchor, h' place hanchor]
  | false =>
    have hplace := hlook place
    unfold look at hplace
    rw [hanchor] at hplace
    exact hplace

/-! ## Larger trees -/

/-- No file stands where parts lead on the way. It is the one thing that can keep folders from being
made in a larger tree. -/
def Clear (t : Tree) (parts : List String) : Prop :=
  ∀ front, front <+: parts → ∀ content, t.look (Location.along front) ≠ some (.file content)

theorem Clear.of_isPrefix {front : List String} (h : t.Clear parts) (hfront : front <+: parts) :
    t.Clear front :=
  fun first hfirst => h first (hfirst.trans hfront)

theorem Clear.of_changesOnly {p : Location → Prop} (h : t.Clear parts)
    (hchange : ChangesOnly (fun _ => False) p t u) : u.Clear parts := by
  intro front hfront content hlook
  rcases hchange (Location.along front) with hsame | ⟨hfile, -⟩ | ⟨-, -, hfolder⟩
  · exact h front hfront content (hsame ▸ hlook)
  · exact hfile
  · rw [hfolder] at hlook
    cases hlook

/-- Parts that can be followed in one tree can be followed in another where no file stands on the
way, or something is missing there. What is missing can be made first. -/
theorem walk_of_clear {front back : List String} {q : Location} (hclear : u.Clear (front ++ back))
    (h : t.walk (Location.along front) back = .ok q) :
    u.walk (Location.along front) back = .ok q ∨
      u.walk (Location.along front) back = .error .notFound := by
  induction back generalizing front with
  | nil => exact Or.inl h
  | cons part back ih =>
    obtain ⟨next, honward, hrest⟩ := walk_cons_eq_ok_iff.mp h
    obtain ⟨-, hsize, rfl⟩ := onward_eq_ok_iff.mp honward
    have hnext : (Location.along front).follow part = Location.along (front ++ [part]) := by
      simp [Location.along]
    cases hlook : u.look (Location.along front) with
    | none =>
      right
      simp [walk, onward, folderAt, hlook]
    | some entry =>
      cases entry with
      | file content => exact absurd hlook (hclear front (List.prefix_append _ _) content)
      | folder =>
        have honward' := onward_eq_ok_iff.mpr ⟨hlook, hsize, rfl⟩
        rw [walk, honward']
        dsimp only
        rw [hnext] at hrest ⊢
        refine ih ?_ hrest
        rw [List.append_assoc]
        exact hclear

/-- A folder can be settled wherever its parts can be followed, unless a file is there. -/
theorem settle_of_walk {place : Location} (hclear : t.Clear parts)
    (hwalk : t.walk [] (dropSlashes parts) = .ok place) : (t.settle parts).2 = .ok () := by
  cases hlook : t.look place with
  | none => rw [settle, makeFolder_eq_ok_iff.mpr ⟨place, hwalk, hlook, rfl⟩]
  | some entry =>
    cases entry with
    | folder =>
      have hthere := isFolder_dropSlashes.mp (isFolder_iff.mpr ⟨place, hwalk, hlook⟩)
      rw [settle_of_isFolder hthere]
    | file content =>
      have hplace : Location.along (dropSlashes parts) = place := foldl_of_walk hwalk
      exact absurd hlook (hplace ▸ hclear _ (dropSlashes_isPrefix parts) content)

theorem exists_walk_of_settle (h : (t.settle parts).2 = .ok ()) :
    ∃ place, t.walk [] (dropSlashes parts) = .ok place := by
  unfold settle at h
  split at h
  next made hmade =>
    obtain ⟨place, hwalk, -⟩ := makeFolder_eq_ok_iff.mp hmade
    exact ⟨place, hwalk⟩
  next =>
    split at h
    next hthere =>
      obtain ⟨place, hwalk, -⟩ := isFolder_iff.mp (isFolder_dropSlashes.mpr hthere)
      exact ⟨place, hwalk⟩
    next => cases h

theorem settle_of_keepsFolders (hkeeps : t.KeepsFolders u) (hclear : u.Clear parts)
    (h : (t.settle parts).2 = .ok ()) : (u.settle parts).2 = .ok () := by
  obtain ⟨place, hwalk⟩ := exists_walk_of_settle h
  exact settle_of_walk hclear (hkeeps.walk hwalk)

theorem isFolder_makeAlong {steps : List String} (h : (t.makeAlong steps).2 = .ok ()) :
    (t.makeAlong steps).1.isFolder steps.reverse = true := by
  cases steps with
  | nil => exact isFolder_iff.mpr ⟨[], rfl, rfl⟩
  | cons step above =>
    rw [makeAlong_cons] at h ⊢
    exact isFolder_attempt h

/-- What is made in the small tree is there in the large one, once it has been made there too. -/
theorem KeepsFolders.makeAlong (hkeeps : t.KeepsFolders u) {steps : List String}
    (h : (u.makeAlong steps).2 = .ok ()) :
    (t.makeAlong steps).1.KeepsFolders (u.makeAlong steps).1 := by
  intro place hplace
  have hchange : ChangesOnly (fun _ => False)
      (fun place => ∃ front, front <+: steps.reverse ∧ Location.along front = place) t
      (t.makeAlong steps).1 := changesOnly_makeAlong t fun front hfront => ⟨front, hfront, rfl⟩
  have hlater : u.KeepsFolders (u.makeAlong steps).1 :=
    (changesOnly_makeAlong (p := fun _ => True) u fun _ _ => trivial).keepsFolders
  rcases hchange place with hsame | ⟨hfile, -⟩ | ⟨⟨front, hfront, rfl⟩, -⟩
  · exact hlater place (hkeeps place (hsame ▸ hplace))
  · exact hfile.elim
  · obtain ⟨place, hwalk, hlook⟩ :=
      isFolder_iff.mp (isFolder_of_isPrefix hfront (isFolder_makeAlong h))
    rw [Location.along, foldl_of_walk hwalk]
    exact hlook

/-- An attempt that succeeds in one tree succeeds in a larger one, where no file stands on the way,
if this is so of what is above. -/
theorem attempt_of_keepsFolders {above : List String} (hkeeps : t.KeepsFolders u)
    (hclear : u.Clear parts)
    (habove : (t.makeAlong above).2 = .ok () → (u.makeAlong above).2 = .ok ())
    (h : (t.attempt parts above).2 = .ok ()) : (u.attempt parts above).2 = .ok () := by
  obtain ⟨place, hwalk, -⟩ := isFolder_iff.mp (isFolder_dropSlashes.mpr (isFolder_attempt h))
  have hclear' : u.Clear ([] ++ dropSlashes parts) :=
    hclear.of_isPrefix (dropSlashes_isPrefix parts)
  have hfollow : u.walk [] (dropSlashes parts) = .ok place ∨
      u.walk [] (dropSlashes parts) = .error .notFound := walk_of_clear hclear' hwalk
  rcases hfollow with hfound | hmissing
  · -- Everything above is there already.
    unfold attempt
    split
    next heq =>
      unfold makeFolder placeOf at heq
      rw [hfound] at heq
      dsimp only at heq
      split at heq <;> cases heq
    next => exact settle_of_walk hclear hfound
  · have hmake : u.makeFolder parts = .error .notFound := by
      unfold makeFolder placeOf
      rw [hmissing]
    rcases attempt_cases h with heq | ⟨hmade, heq⟩
    · rw [heq] at h
      obtain ⟨place', hwalk'⟩ := exists_walk_of_settle h
      have hfound := hkeeps.walk hwalk'
      rw [hmissing] at hfound
      cases hfound
    · rw [heq] at h
      have hmade' := habove hmade
      have hlater : (u.makeAlong above).1.Clear parts :=
        hclear.of_changesOnly (changesOnly_makeAlong (p := fun _ => True) u fun _ _ => trivial)
      have hsettle := settle_of_keepsFolders (hkeeps.makeAlong hmade') hlater h
      rw [attempt, hmake]
      dsimp only
      rcases hresult : u.makeAlong above with ⟨made, e | ⟨⟩⟩
      · rw [hresult] at hmade'
        cases hmade'
      · rw [hresult] at hsettle
        exact hsettle

theorem makeAlong_of_keepsFolders (hkeeps : t.KeepsFolders u) {steps : List String}
    (hclear : u.Clear steps.reverse) (h : (t.makeAlong steps).2 = .ok ()) :
    (u.makeAlong steps).2 = .ok () := by
  induction steps with
  | nil => rfl
  | cons step above ih =>
    rw [makeAlong_cons] at h ⊢
    refine attempt_of_keepsFolders hkeeps hclear (ih ?_) h
    rw [List.reverse_cons] at hclear
    exact hclear.of_isPrefix (List.prefix_append _ _)

/-- **Folders that can be made in one tree can be made in a larger one**, where no file stands on
the way. -/
theorem makeFolders_of_keepsFolders (hkeeps : t.KeepsFolders u)
    (hclear : ∀ place, Location.OnWay path place → ∀ content, u.look place ≠ some (.file content))
    (h : (t.makeFolders path).2 = .ok ()) : (u.makeFolders path).2 = .ok () := by
  by_cases hne : path = ""
  · subst hne
    rfl
  · have hrefusal := refusal?_of_makeFolders hne h
    rw [makeFolders_eq hne hrefusal] at h ⊢
    refine attempt_of_keepsFolders hkeeps ?_ (makeAlong_of_keepsFolders hkeeps ?_) h
    · exact fun front hfront => hclear _ (Location.onWay_of_isPrefix hfront)
    · intro front hfront
      rw [List.reverse_reverse] at hfront
      exact hclear _ ⟨front, hfront.trans (List.dropLast_prefix _), rfl⟩

end Tree
end Beamline
