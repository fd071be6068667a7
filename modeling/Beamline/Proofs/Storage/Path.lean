import Mathlib.Tactic
import Beamline.Storage.Location

/-!
# Paths — a name in a folder

Whatever a folder is called, the path of a file in it ends in the file's name (`endsIn_join`), and
following that last part leads to a place of that name. So two files of different names are at
different places, in whatever folders (`ne_of_name_ne`), and nothing about the folders has to be
known.
-/

set_option autoImplicit false

namespace Beamline
namespace Path

/-! ## Parts -/

/-- What can be the name of a file: not empty, neither of the two names with a meaning of their own,
and without a slash. -/
structure IsName (name : String) : Prop where
  ne_empty : name ≠ ""
  ne_dot : name ≠ "."
  ne_above : name ≠ ".."
  slash : '/' ∉ name.toList

theorem splitSlash_of_notMem {cs : List Char} (h : '/' ∉ cs) : splitSlash cs = [cs] := by
  induction cs with
  | nil => rfl
  | cons c cs ih =>
    have hc : c ≠ '/' := fun heq => h (heq ▸ List.mem_cons_self)
    have hcs : '/' ∉ cs := fun hmem => h (List.mem_cons_of_mem c hmem)
    rw [splitSlash, if_neg hc, ih hcs]

theorem splitSlash_ne_nil (cs : List Char) : splitSlash cs ≠ [] := by
  cases cs with
  | nil => simp [splitSlash]
  | cons c cs =>
    unfold splitSlash
    split
    · simp
    · split <;> simp

/-- What stands behind the last slash is a part of its own, and the parts before it are those of
what stands before. -/
theorem splitSlash_append (cs : List Char) {ds : List Char} (h : '/' ∉ ds) :
    splitSlash (cs ++ '/' :: ds) = splitSlash cs ++ [ds] := by
  induction cs with
  | nil => simp [splitSlash, splitSlash_of_notMem h]
  | cons c cs ih =>
    rw [List.cons_append, splitSlash, splitSlash, ih]
    split
    · rfl
    · obtain ⟨part, parts, hparts⟩ := List.exists_cons_of_ne_nil (splitSlash_ne_nil cs)
      rw [hparts]
      rfl

theorem eq_nil_of_splitSlash {cs : List Char} (h : splitSlash cs = [[]]) : cs = [] := by
  cases cs with
  | nil => rfl
  | cons c cs =>
    unfold splitSlash at h
    split at h
    · exact absurd (List.cons.inj h).2 (splitSlash_ne_nil cs)
    · split at h <;> simp at h

/-- What stands before a slash is cut the same way whatever name stands behind it, or none. The
parts of a folder's path are thereby found at the front of the path of each of its files. -/
theorem exists_front (cs : List Char) :
    ∃ front,
      (∀ ds, '/' ∉ ds → parts (String.ofList (cs ++ '/' :: ds)) = front ++ [String.ofList ds]) ∧
      (cs ≠ [] → parts (String.ofList cs) = front) := by
  obtain ⟨first, rest, hcut⟩ := List.exists_cons_of_ne_nil (splitSlash_ne_nil cs)
  -- An empty first part is the root's, unless nothing comes after it.
  by_cases hfirst : first = []
  · subst hfirst
    refine ⟨"/" :: rest.map String.ofList, ?_, ?_⟩
    · intro ds hds
      unfold parts
      rw [String.toList_ofList, splitSlash_append cs hds, hcut]
      cases rest <;> simp
    · intro hcs
      unfold parts
      rw [String.toList_ofList, hcut]
      cases rest with
      | nil => exact absurd (eq_nil_of_splitSlash hcut) hcs
      | cons second rest => simp
  · have hname : String.ofList first ≠ "" := fun heq => hfirst (String.ofList_eq_empty_iff.mp heq)
    refine ⟨String.ofList first :: rest.map String.ofList, ?_, ?_⟩
    · intro ds hds
      unfold parts
      rw [String.toList_ofList, splitSlash_append cs hds, hcut, List.cons_append, List.map_cons]
      split
      next heq => exact absurd (List.cons.inj heq).1 hname
      next => simp
    · intro _
      unfold parts
      rw [String.toList_ofList, hcut, List.map_cons]
      split
      next heq => exact absurd (List.cons.inj heq).1 hname
      next => rfl

/-- The three ways that a name is joined to a folder. A folder that is not named is left out, and a
slash that is already there is not written again. -/
theorem join_cases (folder name : String) :
    folder = "" ∧ join folder name = name ∨
    (∃ cs, folder.toList = cs ++ ['/'] ∧ (join folder name).toList = cs ++ '/' :: name.toList) ∨
      folder ≠ "" ∧ (join folder name).toList = folder.toList ++ '/' :: name.toList := by
  unfold join
  split
  next h =>
    rcases Bool.or_eq_true_iff.mp h with hempty | hslash
    · left
      rw [String.isEmpty_iff.mp hempty, String.empty_append]
      exact ⟨rfl, rfl⟩
    · right
      left
      unfold endsInSlash at hslash
      obtain ⟨cs, hcs⟩ := List.getLast?_eq_some_iff.mp (beq_iff_eq.mp hslash)
      exact ⟨cs, hcs, by rw [String.toList_append, hcs, List.append_assoc, List.singleton_append]⟩
  next h =>
    right
    right
    have hempty : ¬ folder.isEmpty = true := fun hempty => h (by simp [hempty])
    exact ⟨fun heq => hempty (String.isEmpty_iff.mpr heq), by simp⟩

/-- A path whose last part is the name of a file. This is what everything about writing asks for:
where such a path leads is a place of that name, or nowhere. -/
structure EndsIn (path name : String) : Prop where
  isName : IsName name
  parts_eq : ∃ front, parts path = front ++ [name]
  not_slash : endsInSlash path = false

/-- The parts of a file's path are those of its folder and the name. A folder may be written with a
slash at its end, which is an empty part of its own. -/
theorem exists_parts_join (folder : String) {name : String} (h : IsName name) :
    ∃ front, parts (join folder name) = front ++ [name] ∧
      (folder ≠ "" → parts folder = front ∨ parts folder = front ++ [""]) := by
  have hslash : ∀ cs, (join folder name).toList = cs ++ '/' :: name.toList →
      join folder name = String.ofList (cs ++ '/' :: name.toList) := by
    intro cs hcs
    rw [← hcs, String.ofList_toList]
  rcases join_cases folder name with ⟨hempty, hjoin⟩ | ⟨cs, hfolder, hjoin⟩ | ⟨hfolder, hjoin⟩
  · refine ⟨[], ?_, fun hne => absurd hempty hne⟩
    rw [hjoin]
    unfold parts
    rw [splitSlash_of_notMem h.slash, List.map_singleton, String.ofList_toList]
    split
    next heq => cases heq
    next => rfl
  · obtain ⟨front, hbehind, -⟩ := exists_front cs
    refine ⟨front, ?_, fun _ => Or.inr ?_⟩
    · rw [hslash cs hjoin, hbehind name.toList h.slash, String.ofList_toList]
    · have hparts := hbehind [] (by simp)
      rw [← hfolder, String.ofList_toList] at hparts
      exact hparts
  · obtain ⟨front, hbehind, hbefore⟩ := exists_front folder.toList
    refine ⟨front, ?_, fun _ => Or.inl ?_⟩
    · rw [hslash folder.toList hjoin, hbehind name.toList h.slash, String.ofList_toList]
    · have hparts := hbefore fun hnil => hfolder (String.toList_eq_nil_iff.mp hnil)
      rw [String.ofList_toList] at hparts
      exact hparts

theorem endsInSlash_join (folder : String) {name : String} (h : IsName name) :
    endsInSlash (join folder name) = false := by
  have hne : name.toList ≠ [] := fun hnil => h.ne_empty (String.toList_eq_nil_iff.mp hnil)
  have hlast : (join folder name).toList.getLast? = name.toList.getLast? := by
    obtain ⟨c, hc⟩ := Option.isSome_iff_exists.mp (List.getLast?_isSome.mpr hne)
    rcases join_cases folder name with ⟨-, hjoin⟩ | ⟨cs, -, hjoin⟩ | ⟨-, hjoin⟩
    · rw [hjoin]
    · simp [hjoin, List.getLast?_cons, hc]
    · simp [hjoin, List.getLast?_cons, hc]
  unfold endsInSlash
  rw [hlast, beq_eq_false_iff_ne]
  exact fun hslash => h.slash (List.mem_of_getLast? hslash)

/-- **The path of a file ends in its name**, whatever its folder is called. -/
theorem endsIn_join (folder : String) {name : String} (h : IsName name) :
    EndsIn (join folder name) name :=
  ⟨h, (exists_parts_join folder h).imp fun _ hparts => hparts.1, endsInSlash_join folder h⟩

end Path

/-! ## Places -/

namespace Location

/-- A name leads from a place to the place of that name. -/
theorem follow_name (place : Location) {name : String} (h : Path.IsName name) :
    place.follow name = place ++ [name] := by
  have hroot : name ≠ "/" := by
    rintro rfl
    exact h.slash (by decide)
  have hstays : Path.stays name = false := by
    unfold Path.stays
    simp [h.ne_empty, h.ne_dot]
  unfold follow
  rw [if_neg hroot, hstays, if_neg (by decide), if_neg h.ne_above]

/-- Different names are different places, also in folders that are called differently and turn out
to be the same. -/
theorem ne_of_name_ne {a b : Location} {name other : String} (h : name ≠ other) :
    a ++ [name] ≠ b ++ [other] := by
  intro heq
  have hlast := congrArg List.getLast? heq
  rw [List.getLast?_concat, List.getLast?_concat] at hlast
  exact h (Option.some.inj hlast)

end Location
end Beamline
