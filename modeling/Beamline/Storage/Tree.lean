import Beamline.Storage.Location

/-!
# Trees — what stands where

A tree lists its places in order, and the order is part of the type; so a tree has one form only,
and two trees with the same entry everywhere are equal (`Tree.ext_get`). That is what makes "the
file system is as it was" an equation.

The working folder and the other anchors are in no list. They are always there.
-/

set_option autoImplicit false

namespace Beamline

/-- What can stand at a place. -/
inductive Entry where
  | file (content : List UInt8)
  | folder
deriving DecidableEq, Repr

/-- Every place that something stands at, anchors aside. -/
structure Tree where
  entries : List (Location × Entry)
  sorted : entries.Pairwise fun a b => a.1 < b.1

namespace Tree

/-- An empty working folder, and nothing known around it. -/
def empty : Tree := ⟨[], .nil⟩

/-! ## Single places -/

/-- What stands at a place that is no anchor. -/
def get (t : Tree) (place : Location) : Option Entry := t.entries.lookup place

/-- What stands at a place, anchors included. -/
def look (t : Tree) (place : Location) : Option Entry :=
  if Location.isAnchor place then some .folder else t.get place

/-- Puts an entry into an ordered list, in the place of what stands there. -/
def put (place : Location) (e : Entry) : List (Location × Entry) → List (Location × Entry)
  | [] => [(place, e)]
  | pair :: rest =>
    if place = pair.1 then (place, e) :: rest
    else if place < pair.1 then (place, e) :: pair :: rest
    else pair :: put place e rest

theorem mem_put {place : Location} {e : Entry} {entries : List (Location × Entry)}
    {pair : Location × Entry} (h : pair ∈ put place e entries) :
    pair.1 = place ∨ pair ∈ entries := by
  induction entries with
  | nil => simp_all [put]
  | cons head rest ih =>
    simp only [put] at h
    split at h
    · rcases List.mem_cons.1 h with rfl | h
      · exact .inl rfl
      · exact .inr (List.mem_cons_of_mem _ h)
    · split at h
      · rcases List.mem_cons.1 h with rfl | h
        · exact .inl rfl
        · exact .inr h
      · rcases List.mem_cons.1 h with rfl | h
        · exact .inr (List.mem_cons_self ..)
        · exact (ih h).imp id (List.mem_cons_of_mem _)

theorem sorted_put {place : Location} {e : Entry} {entries : List (Location × Entry)}
    (h : entries.Pairwise fun a b => a.1 < b.1) :
    (put place e entries).Pairwise fun a b => a.1 < b.1 := by
  induction entries with
  | nil => exact List.pairwise_singleton ..
  | cons head rest ih =>
    obtain ⟨first, others⟩ := List.pairwise_cons.1 h
    simp only [put]
    split
    · next same => exact List.pairwise_cons.2 ⟨fun pair m => same ▸ first pair m, others⟩
    · next other =>
      split
      · next before =>
        refine List.pairwise_cons.2 ⟨fun pair m => ?_, h⟩
        rcases List.mem_cons.1 m with rfl | m
        · exact before
        · exact List.lt_trans before (first pair m)
      · next after =>
        refine List.pairwise_cons.2 ⟨fun pair m => ?_, ih others⟩
        rcases mem_put m with same | m
        · rw [same]
          apply Decidable.byContradiction
          intro notAfter
          exact other (List.le_antisymm notAfter after)
        · exact first pair m

def set (t : Tree) (place : Location) (e : Entry) : Tree :=
  ⟨put place e t.entries, sorted_put t.sorted⟩

/-- The tree without what stands at a place or below it. -/
def remove (t : Tree) (place : Location) : Tree :=
  ⟨t.entries.filter fun pair => ! place.isPrefixOf pair.1, t.sorted.filter _⟩

theorem lookup_cons_if (q : Location) (pair : Location × Entry) (rest : List (Location × Entry)) :
    (pair :: rest).lookup q = if q = pair.1 then some pair.2 else rest.lookup q := by
  by_cases h : q = pair.1
  · rw [List.lookup_cons, h, beq_self_eq_true, if_pos rfl]
  · rw [List.lookup_cons, beq_false_of_ne h, if_neg h]

theorem lookup_put (place q : Location) (e : Entry) (entries : List (Location × Entry)) :
    (put place e entries).lookup q = if q = place then some e else entries.lookup q := by
  induction entries with
  | nil => exact lookup_cons_if q (place, e) []
  | cons head rest ih =>
    unfold put
    split
    · next same => simp only [lookup_cons_if, ← same]; split <;> rfl
    · split
      · simp only [lookup_cons_if]
      · next other _ =>
        simp only [lookup_cons_if, ih]
        by_cases h : q = place
        · subst h
          simp [other]
        · simp [h]

/-- After an entry is put at a place, it stands there, and nothing else is different. -/
theorem get_set (t : Tree) (place q : Location) (e : Entry) :
    (t.set place e).get q = if q = place then some e else t.get q :=
  lookup_put place q e t.entries

/-! ## Equality -/

theorem lookup_head (pair : Location × Entry) (rest : List (Location × Entry)) :
    (pair :: rest).lookup pair.1 = some pair.2 := by
  rw [lookup_cons_if, if_pos rfl]

theorem lookup_eq_none {place : Location} {entries : List (Location × Entry)}
    (h : ∀ pair ∈ entries, place < pair.1) : entries.lookup place = none := by
  induction entries with
  | nil => rfl
  | cons head rest ih =>
    have different : place ≠ head.1 := fun same =>
      List.lt_irrefl _ (same ▸ h head (List.mem_cons_self ..))
    rw [lookup_cons_if, if_neg different]
    exact ih fun pair m => h pair (List.mem_cons_of_mem _ m)

theorem eq_of_lookup {as bs : List (Location × Entry)}
    (ha : as.Pairwise fun a b => a.1 < b.1) (hb : bs.Pairwise fun a b => a.1 < b.1)
    (h : ∀ place, as.lookup place = bs.lookup place) : as = bs := by
  induction as generalizing bs with
  | nil =>
    cases bs with
    | nil => rfl
    | cons b bs => exact absurd (h b.1) (by rw [lookup_head]; simp)
  | cons a as ih =>
    obtain ⟨firstA, restA⟩ := List.pairwise_cons.1 ha
    cases bs with
    | nil => exact absurd (h a.1) (by rw [lookup_head]; simp)
    | cons b bs =>
      obtain ⟨firstB, restB⟩ := List.pairwise_cons.1 hb
      have same : a.1 = b.1 := by
        apply List.le_antisymm
        · intro less
          have missing : (a :: as).lookup b.1 = none := lookup_eq_none fun pair m => by
            rcases List.mem_cons.1 m with rfl | m
            · exact less
            · exact List.lt_trans less (firstA pair m)
          exact absurd (h b.1) (by rw [missing, lookup_head]; simp)
        · intro less
          have missing : (b :: bs).lookup a.1 = none := lookup_eq_none fun pair m => by
            rcases List.mem_cons.1 m with rfl | m
            · exact less
            · exact List.lt_trans less (firstB pair m)
          exact absurd (h a.1) (by rw [missing, lookup_head]; simp)
      have heads : a = b := by
        have := h a.1
        rw [lookup_head, same, lookup_head] at this
        exact Prod.ext same (Option.some.inj this)
      have tails : as = bs := by
        refine ih restA restB fun place => ?_
        by_cases at_head : place = a.1
        · subst at_head
          rw [lookup_eq_none firstA, lookup_eq_none (same ▸ firstB)]
        · have := h place
          rw [lookup_cons_if, lookup_cons_if, ← heads, if_neg at_head, if_neg at_head] at this
          exact this
      rw [heads, tails]

/-- Trees with the same entry everywhere are equal. -/
theorem ext_get {s t : Tree} (h : ∀ place, s.get place = t.get place) : s = t := by
  cases s with
  | mk as ha =>
    cases t with
    | mk bs hb =>
      cases eq_of_lookup ha hb h
      rfl

end Tree
end Beamline
