import Mathlib.Tactic
import Beamline.Proofs.Toml.Document

/-!
# Tables — what headers make of a document

What headers have made of a place is told by its `Kind`, and each header changes the kinds in a way
that needs no tree to be said (`Kinds.after`): it opens its own table, passes through the ones
around it, and, if it is repeated, starts afresh below. Headers that find each table in a state that
allows them (`Opens`) can be put into one tree, whatever stands below them (`exists_insert_blocks`).
-/

set_option autoImplicit false

namespace Beamline
namespace Toml

/-! ## Kinds -/

/-- What headers have made of a place. Only this decides whether another header may come, so it is
all that has to be remembered of a table. -/
inductive Kind where
  /-- A table that headers lead through only. -/
  | passed
  | opened
  | repeated

/-- What headers have made of each place, if anything. -/
abbrev Kinds := List String → Option Kind

namespace Kinds

/-- What a header asks for: that nothing is there yet, or, under double brackets, an array to
extend, or else a table that is not opened yet. -/
def Allows (kinds : Kinds) (repeated : Bool) (names : List String) : Prop :=
  kinds names = none ∨ kinds names = some (if repeated then .repeated else .passed)

/-- The kinds after a header. Tables around it are there from now on, if they were not; below an
element of an array that has just begun there is nothing yet. -/
def after (kinds : Kinds) (repeated : Bool) (names : List String) : Kinds := fun place =>
  if place = names then some (if repeated then .repeated else .opened)
  else if place <+: names then some ((kinds place).getD .passed)
  else if repeated ∧ names <+: place then none
  else kinds place

end Kinds

/-- Headers that can follow one another. -/
def Opens : Kinds → List Block → Prop
  | _, [] => True
  | kinds, b :: bs => kinds.Allows b.repeated b.names ∧ Opens (kinds.after b.repeated b.names) bs

/-! ## Pairs that headers made -/

/-- Whether a pair of some key was made by a header. -/
def isHeaded (key : String) (pair : String × Value) : Bool := madeByHeader pair && pair.1 == key

/-- What headers made of a key. A pair of the same key that was given by its line is passed over, as
the reader passes it over. -/
def headed (tree : Pairs) (key : String) : Option Value := (tree.find? (isHeaded key)).map (·.2)

/-- Puts what a header made in the place of what was there. -/
def putHeaded (tree : Pairs) (key : String) (v : Value) : Pairs :=
  if headed tree key = none then tree ++ [(key, v)] else tree.replaceFirst (isHeaded key) v

/-- Whether a value is one that headers make. -/
def Value.IsHeaded (v : Value) : Prop := madeByHeader ("", v) = true

section

variable {tree pairs inner : Pairs} {key key' : String} {v w : Value}

theorem madeByHeader_eq (key key' : String) (v : Value) :
    madeByHeader (key, v) = madeByHeader (key', v) := by
  cases v with
  | table origin => cases origin <;> rfl
  | _ => rfl

theorem Value.IsHeaded.isHeaded (h : v.IsHeaded) (key key' : String) :
    isHeaded key (key', v) = (key' == key) := by
  rw [Toml.isHeaded, madeByHeader_eq key' "", h, Bool.true_and]

theorem headed_cons (pair : String × Value) (tree : Pairs) (key : String) :
    headed (pair :: tree) key = if isHeaded key pair then some pair.2 else headed tree key := by
  unfold headed
  rw [List.find?_cons]
  cases isHeaded key pair <;> simp

theorem headed_append (tree tree' : Pairs) (key : String) :
    headed (tree ++ tree') key = (headed tree key).or (headed tree' key) := by
  unfold headed
  rw [List.find?_append]
  cases tree.find? (isHeaded key) <;> rfl

theorem headed_eq_none (h : ∀ pair ∈ pairs, madeByHeader pair = false) (key : String) :
    headed pairs key = none := by
  unfold headed
  rw [Option.map_eq_none_iff, List.find?_eq_none]
  intro pair hpair
  simp [isHeaded, h pair hpair]

theorem isHeaded_of_headed (h : headed tree key = some v) : v.IsHeaded := by
  obtain ⟨⟨name, w⟩, hfind, rfl⟩ := Option.map_eq_some_iff.mp h
  have hmade := List.find?_some hfind
  rw [isHeaded, Bool.and_eq_true] at hmade
  exact (madeByHeader_eq "" name w).trans hmade.1

/-- Replacing what headers made of a key is seen under this key only. -/
theorem headed_replaceFirst (hv : v.IsHeaded) (h : headed tree key ≠ none) (key' : String) :
    headed (tree.replaceFirst (isHeaded key) v) key' =
      if key' = key then some v else headed tree key' := by
  induction tree with
  | nil => exact absurd rfl h
  | cons pair tree ih =>
    rw [Pairs.replaceFirst]
    by_cases hpair : isHeaded key pair = true
    · have hname : pair.1 = key := by
        rw [isHeaded, Bool.and_eq_true] at hpair
        exact eq_of_beq hpair.2
      rw [if_pos hpair, headed_cons, hv.isHeaded, headed_cons, hname]
      by_cases hkey : key' = key
      · simp [hkey]
      · have hother : isHeaded key' pair = false := by
          rw [isHeaded, hname, beq_false_of_ne (Ne.symm hkey), Bool.and_false]
        simp [hkey, Ne.symm hkey, hother]
    · rw [headed_cons, if_neg hpair] at h
      rw [if_neg hpair, headed_cons, headed_cons, ih h]
      by_cases hkey : key' = key
      · subst hkey
        simp [hpair]
      · simp [hkey]

/-- What was put is there, and nothing changes for other keys. From here on a tree is known by what
headers made of its keys, and how they are stored is of no account. -/
theorem headed_putHeaded (hv : v.IsHeaded) (tree : Pairs) (key key' : String) :
    headed (putHeaded tree key v) key' = if key' = key then some v else headed tree key' := by
  unfold putHeaded
  by_cases h : headed tree key = none
  · rw [if_pos h, headed_append, headed_cons, hv.isHeaded]
    by_cases hkey : key' = key
    · subst hkey
      simp [h]
    · simp [hkey, Ne.symm hkey, headed]
  · rw [if_neg h, headed_replaceFirst hv h]

theorem filter_putHeaded_of_ne (hne : key' ≠ key) (tree : Pairs) (v : Value) :
    (putHeaded tree key v).filter (·.1 == key') = tree.filter (·.1 == key') := by
  unfold putHeaded
  split
  · rw [List.filter_append, List.filter_singleton, beq_false_of_ne hne.symm]
    simp
  · apply filter_replaceFirst_of_ne hne
    intro pair hpair
    rw [isHeaded, Bool.and_eq_true] at hpair
    exact eq_of_beq hpair.2

end

/-! ## Headers in a tree -/

/-- Where a path leads through a value. -/
def inside : Value → Pairs
  | .tables elements => elements.getLastD []
  | .table _ pairs => pairs
  | _ => []

/-- The tree under a key, in the last element of an array. What has no tree has an empty one. -/
def below (tree : Pairs) (key : String) : Pairs := ((headed tree key).map inside).getD []

def kind? : Value → Option Kind
  | .tables _ => some .repeated
  | .table .passed _ => some .passed
  | .table _ _ => some .opened
  | _ => none

/-- What headers have made of a place, by the tree. It goes down the way the reader does. -/
def kindsOf : Pairs → Kinds
  | _, [] => none
  | tree, [key] => (headed tree key).bind kind?
  | tree, key :: next :: path => kindsOf (below tree key) (next :: path)

/-- What a header makes of a value at its own place. -/
def opened (repeated : Bool) (pairs : Pairs) : Option Value → Option Value
  | none => some (if repeated then .tables [pairs] else .table .header pairs)
  | some (.tables elements) => if repeated then some (.tables (elements ++ [pairs])) else none
  | some (.table .passed inner) => if repeated then none else some (.table .header (pairs ++ inner))
  | some _ => none

/-- A value that a path leads through, with another tree inside. -/
def through (inner : Pairs) : Option Value → Value
  | some (.tables elements) => .tables (elements.dropLast ++ [inner])
  | some (.table origin _) => .table origin inner
  | _ => .table .passed inner

section

variable {tree pairs inner : Pairs} {key key' : String} {path : List String} {v w : Value}
  {repeated : Bool} {old : Option Value}

theorem putHeaded_of_none (h : headed tree key = none) (v : Value) :
    putHeaded tree key v = tree ++ [(key, v)] := if_pos h

theorem putHeaded_of_some (h : headed tree key = some w) (v : Value) :
    putHeaded tree key v = tree.replaceFirst (isHeaded key) v := if_neg (by simp [h])

theorem find?_cases (tree : Pairs) (key : String) :
    (tree.find? (isHeaded key) = none ∧ headed tree key = none) ∨
      ∃ name v, tree.find? (isHeaded key) = some (name, v) ∧ headed tree key = some v := by
  cases h : tree.find? (isHeaded key) with
  | none => exact Or.inl ⟨rfl, by rw [headed, h]; rfl⟩
  | some pair => exact Or.inr ⟨pair.1, pair.2, rfl, by rw [headed, h]; rfl⟩

/-- At its own place, a header changes the value there. The reader's cases are those of `opened`. -/
theorem insertSection_nil : insertSection repeated pairs key [] tree =
    (opened repeated pairs (headed tree key)).map (putHeaded tree key) := by
  obtain ⟨hfind, hheaded⟩ | ⟨name, v, hfind, hheaded⟩ := find?_cases tree key
  · unfold isHeaded at hfind
    simp only [insertSection, hfind, hheaded, opened, Option.map_some, putHeaded_of_none hheaded]
  · have hput := putHeaded_of_some hheaded
    unfold isHeaded at hfind hput
    cases v with
    | tables elements =>
      cases repeated
      · simp [insertSection, hfind, hheaded, opened]
      · simp [insertSection, hfind, hheaded, opened, hput]
    | table origin inner =>
      cases origin with
      | passed =>
        cases repeated
        · simp [insertSection, hfind, hheaded, opened, hput]
        · simp [insertSection, hfind, hheaded, opened]
      | _ => simp [insertSection, hfind, hheaded, opened]
    | _ => simp [insertSection, hfind, hheaded, opened]

/-- On the way to its place, a header changes the tree inside the value there, so a header with a
longer name does what a shorter one does below. -/
theorem insertSection_cons {next : String} : insertSection repeated pairs key (next :: path) tree =
    (insertSection repeated pairs next path (below tree key)).map fun inner =>
      putHeaded tree key (through inner (headed tree key)) := by
  obtain ⟨hfind, hheaded⟩ | ⟨name, v, hfind, hheaded⟩ := find?_cases tree key
  · unfold isHeaded at hfind
    simp only [insertSection, hfind, hheaded, below, putHeaded_of_none hheaded]
    rfl
  · have hmade := isHeaded_of_headed hheaded
    have hput := putHeaded_of_some hheaded
    unfold isHeaded at hfind hput
    cases v with
    | tables elements => simp [insertSection, hfind, hheaded, below, inside, through, hput]
    | table origin inner => simp [insertSection, hfind, hheaded, below, inside, through, hput]
    | _ => cases hmade

theorem below_putHeaded (hv : v.IsHeaded) (tree : Pairs) (key key' : String) :
    below (putHeaded tree key v) key' = if key' = key then inside v else below tree key' := by
  rw [below, headed_putHeaded hv]
  split <;> rfl

/-- A value that a path leads through is of the kind it was, with just another tree inside. A
missing one becomes a table that is passed. -/
theorem through_eq (h : ∀ v, old = some v → v.IsHeaded) (inner : Pairs) :
    (through inner old).IsHeaded ∧ inside (through inner old) = inner ∧
      kind? (through inner old) = some ((old.bind kind?).getD .passed) := by
  cases old with
  | none => exact ⟨rfl, rfl, rfl⟩
  | some v =>
    have hv := h v rfl
    cases v with
    | table origin pairs =>
      have hmade : (through inner (some (.table origin pairs))).IsHeaded := by
        cases origin <;> first | rfl | cases hv
      exact ⟨hmade, rfl, by cases origin <;> rfl⟩
    | tables => exact ⟨rfl, by simp [through, inside], rfl⟩
    | _ => cases hv

theorem exists_kind? (h : v.IsHeaded) : ∃ kind, kind? v = some kind := by
  cases v with
  | table origin pairs => cases origin <;> exact ⟨_, rfl⟩
  | tables => exact ⟨_, rfl⟩
  | _ => cases h

/-- A header that is allowed opens what it asks for. What was in a table that headers had led
through stays behind the pairs that are new. -/
theorem exists_opened (hold : ∀ v, old = some v → v.IsHeaded)
    (h : old.bind kind? = none ∨ old.bind kind? = some (if repeated then .repeated else .passed))
    (pairs : Pairs) :
    ∃ v, opened repeated pairs old = some v ∧ v.IsHeaded ∧
      kind? v = some (if repeated then .repeated else .opened) ∧
      inside v = if repeated then pairs else pairs ++ (old.map inside).getD [] := by
  cases old with
  | none => cases repeated <;> exact ⟨_, rfl, rfl, rfl, by simp [inside]⟩
  | some w =>
    obtain ⟨kind, hkind⟩ := exists_kind? (hold w rfl)
    rw [Option.bind_some, hkind] at h
    cases w with
    | tables elements =>
      cases hkind
      cases repeated
      · simp at h
      · exact ⟨_, rfl, rfl, rfl, by simp [inside]⟩
    | table origin inner =>
      cases origin with
      | passed =>
        cases hkind
        cases repeated
        · exact ⟨_, rfl, rfl, rfl, rfl⟩
        · simp at h
      | _ =>
        cases hkind
        cases repeated <;> simp at h
    | _ => cases hkind

theorem kindsOf_singleton (tree : Pairs) (key : String) :
    kindsOf tree [key] = (headed tree key).bind kind? := rfl

theorem kindsOf_cons_cons {next : String} (tree : Pairs) (key : String) (path : List String) :
    kindsOf tree (key :: next :: path) = kindsOf (below tree key) (next :: path) := rfl

theorem kindsOf_nil (names : List String) : kindsOf [] names = none := by
  match names with
  | [] => rfl
  | [_] => rfl
  | key :: next :: path =>
    have hbelow : below [] key = [] := rfl
    rw [kindsOf_cons_cons, hbelow]
    exact kindsOf_nil (next :: path)

/-- What a section has of its own hides nothing that headers made. -/
theorem kindsOf_append (h : ∀ pair ∈ pairs, madeByHeader pair = false) (tree : Pairs)
    (names : List String) :
    kindsOf (pairs ++ tree) names = kindsOf tree names := by
  have hheaded : ∀ key, headed (pairs ++ tree) key = headed tree key := by
    intro key
    rw [headed_append, headed_eq_none h, Option.none_or]
  match names with
  | [] => rfl
  | [key] => rw [kindsOf_singleton, hheaded, kindsOf_singleton]
  | key :: next :: path => rw [kindsOf_cons_cons, kindsOf_cons_cons, below, hheaded, below]

/-- Where a pair was put, the kinds are those of its value. -/
theorem kindsOf_putHeaded_self (hv : v.IsHeaded) (tree : Pairs) (key : String)
    (path : List String) :
    kindsOf (putHeaded tree key v) (key :: path) =
      if path = [] then kind? v else kindsOf (inside v) path := by
  cases path with
  | nil =>
    rw [kindsOf_singleton, headed_putHeaded hv, if_pos rfl]
    rfl
  | cons next path =>
    rw [kindsOf_cons_cons, below_putHeaded hv, if_pos rfl]
    simp

theorem kindsOf_putHeaded_of_ne (hv : v.IsHeaded) (hne : key' ≠ key) (tree : Pairs)
    (path : List String) :
    kindsOf (putHeaded tree key v) (key' :: path) = kindsOf tree (key' :: path) := by
  cases path with
  | nil => rw [kindsOf_singleton, headed_putHeaded hv, if_neg hne, kindsOf_singleton]
  | cons next path => rw [kindsOf_cons_cons, below_putHeaded hv, if_neg hne, kindsOf_cons_cons]

section

variable (kinds : Kinds) (repeated : Bool)

theorem Kinds.after_of_ne (hne : key' ≠ key) (path path' : List String) :
    kinds.after repeated (key :: path) (key' :: path') = kinds (key' :: path') := by
  simp [Kinds.after, List.cons_prefix_cons, hne, hne.symm]

theorem Kinds.after_cons (key next next' : String) (path path' : List String) :
    kinds.after repeated (key :: next :: path) (key :: next' :: path') =
      Kinds.after (fun place => kinds (key :: place)) repeated (next :: path) (next' :: path') := by
  simp [Kinds.after, List.cons_prefix_cons]

theorem Kinds.after_self (names : List String) :
    kinds.after repeated names names = some (if repeated then .repeated else .opened) := if_pos rfl

theorem Kinds.after_around (key next : String) (path : List String) :
    kinds.after repeated (key :: next :: path) [key] = some ((kinds [key]).getD .passed) := by
  simp [Kinds.after, List.cons_prefix_cons]

theorem Kinds.after_inside (key next : String) (path : List String) :
    kinds.after repeated [key] (key :: next :: path) =
      if repeated then none else kinds (key :: next :: path) := by
  simp [Kinds.after, List.cons_prefix_cons]

end

/-- A place changes as a header says if the tree inside it does. -/
theorem Kinds.after_congr {kinds kinds' : Kinds}
    (h : ∀ key path, kinds (key :: path) = kinds' (key :: path))
    (repeated : Bool) (names : List String) (key : String) (path : List String) :
    kinds.after repeated names (key :: path) = kinds'.after repeated names (key :: path) := by
  simp only [Kinds.after, h]

/-- **A header that is allowed is put into the tree**, and changes the kinds as it says. -/
theorem exists_insertSection (hpairs : ∀ pair ∈ pairs, madeByHeader pair = false)
    (h : (kindsOf tree).Allows repeated (key :: path)) :
    ∃ tree', insertSection repeated pairs key path tree = some tree' ∧ ∀ key' path',
      kindsOf tree' (key' :: path') =
        (kindsOf tree).after repeated (key :: path) (key' :: path') := by
  have hold : ∀ key v, headed tree key = some v → v.IsHeaded := fun key v => isHeaded_of_headed
  induction path generalizing key tree with
  | nil =>
    obtain ⟨v, hv, hmade, hkind, hinside⟩ := exists_opened (hold key) h pairs
    refine ⟨putHeaded tree key v, by rw [insertSection_nil, hv]; rfl, fun key' path' => ?_⟩
    by_cases hkey : key' = key
    · subst hkey
      rw [kindsOf_putHeaded_self hmade]
      cases path' with
      | nil => rw [if_pos rfl, hkind, Kinds.after_self]
      | cons next path' =>
        rw [if_neg (by simp), hinside, Kinds.after_inside, kindsOf_cons_cons]
        cases repeated
        · exact kindsOf_append hpairs _ _
        · have hnil := kindsOf_append hpairs [] (next :: path')
          rw [List.append_nil] at hnil
          exact hnil.trans (kindsOf_nil _)
    · rw [Kinds.after_of_ne _ _ hkey, kindsOf_putHeaded_of_ne hmade hkey]
  | cons next path ih =>
    have hbelow : (kindsOf (below tree key)).Allows repeated (next :: path) := h
    obtain ⟨inner, hinner, hkinds⟩ := ih hbelow fun key v => isHeaded_of_headed
    obtain ⟨hmade, hinside, hkind⟩ := through_eq (hold key) inner
    refine ⟨putHeaded tree key (through inner (headed tree key)),
      by rw [insertSection_cons, hinner]; rfl, fun key' path' => ?_⟩
    by_cases hkey : key' = key
    · subst hkey
      rw [kindsOf_putHeaded_self hmade]
      cases path' with
      | nil => rw [if_pos rfl, hkind, Kinds.after_around, kindsOf_singleton]
      | cons next' path' =>
        rw [if_neg (by simp), hinside, hkinds, Kinds.after_cons]
        rfl
    · rw [Kinds.after_of_ne _ _ hkey, kindsOf_putHeaded_of_ne hmade hkey]

/-! ## All headers -/

/-- A block whose entries can be put into one table. -/
structure Block.Wellformed (b : Block) : Prop where
  apart : Apart b.entries
  written : ∀ e ∈ b.entries, e.value.IsWritten

theorem Block.Wellformed.not_madeByHeader {b : Block} (h : b.Wellformed) :
    ∀ pair ∈ tableOf b.entries, madeByHeader pair = false :=
  not_madeByHeader_tableOf h.apart h.written

/-- A block is put into the tree by its header. -/
theorem Section.insert_toSection (b : Block) (tree : Pairs) :
    Section.insert tree b.toSection =
      insertSection b.repeated (tableOf b.entries) b.key b.path tree := rfl

/-- **Headers that can follow one another make one tree.** -/
theorem exists_insert_blocks {bs : List Block} {kinds : Kinds} (hopens : Opens kinds bs)
    (hbs : ∀ b ∈ bs, b.Wellformed)
    (hkinds : ∀ key path, kindsOf tree (key :: path) = kinds (key :: path)) :
    ∃ tree', (bs.map Block.toSection).foldlM Section.insert tree = some tree' := by
  induction bs generalizing tree kinds with
  | nil => exact ⟨tree, rfl⟩
  | cons b bs ih =>
    obtain ⟨hallows, hopens⟩ := hopens
    obtain ⟨hfirst, hrest⟩ := List.forall_mem_cons.mp hbs
    have hallows' : (kindsOf tree).Allows b.repeated (b.key :: b.path) := by
      rw [Kinds.Allows, hkinds]
      exact hallows
    obtain ⟨between, hbetween, hafter⟩ := exists_insertSection hfirst.not_madeByHeader hallows'
    obtain ⟨tree', htree'⟩ := ih hopens hrest fun key path =>
      (hafter key path).trans (Kinds.after_congr hkinds _ _ key path)
    refine ⟨tree', ?_⟩
    rw [List.map_cons, List.foldlM_cons, Section.insert_toSection, hbetween]
    exact htree'

end

end Toml
end Beamline
