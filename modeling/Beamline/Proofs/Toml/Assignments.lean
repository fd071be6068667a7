import Mathlib.Tactic
import Beamline.Proofs.Toml.Tables

/-!
# Assignments — values by whole names

A value in a document is given by a whole name: the name of its header, if there is one, and then
its own key (`Entry.assignment`). The table that entries make has for a key what is given by the
name of just that key (`gives_tableOf`), if no entry leads through it.
-/

set_option autoImplicit false

namespace Beamline
namespace Toml

/-- The whole name of an entry, after the names around it, and its value. -/
def Entry.assignment (around : List String) (e : Entry) : List String × Value :=
  (around ++ e.names, e.value)

def Block.assignments (b : Block) : List (List String × Value) :=
  b.entries.map (Entry.assignment b.names)

/-- What some entries give a key. -/
def valueOf (es : List Entry) (key : String) : Option Value :=
  (es.map (Entry.assignment [])).lookup [key]

section

variable {ps pairs : Pairs} {key : String} {keys around names : List String}
  {g g' : String → Option Value} {es : List Entry}

theorem lookup_assignment_cons (es : List Entry) (name : String) (around names : List String) :
    (es.map (Entry.assignment (name :: around))).lookup (name :: names) =
      (es.map (Entry.assignment around)).lookup names := by
  induction es with
  | nil => rfl
  | cons e es ih =>
    have hsame : (name :: names == name :: (around ++ e.names)) = (names == around ++ e.names) := by
      simp
    simp only [List.map_cons, Entry.assignment, List.cons_append, List.lookup_cons, hsame]
    cases names == around ++ e.names
    · exact ih
    · rfl

theorem lookup_assignment_eq_none (h : ∀ e ∈ es, around ++ e.names ≠ names) :
    (es.map (Entry.assignment around)).lookup names = none := by
  rw [List.lookup_eq_none_iff]
  intro pair hpair
  obtain ⟨e, he, rfl⟩ := List.mem_map.mp hpair
  exact bne_iff_ne.mpr (h e he).symm

/-- A block gives keys of its own section only. -/
theorem Block.lookup_assignments (b : Block) (sec key : String) :
    b.assignments.lookup [sec, key] = if b.names = [sec] then valueOf b.entries key else none := by
  unfold Block.assignments valueOf
  split
  next hnames => rw [hnames, lookup_assignment_cons]
  next hnames =>
    apply lookup_assignment_eq_none
    intro e he heq
    apply hnames
    rw [Block.names, Entry.names, List.cons_append] at heq
    obtain ⟨hkey, hrest⟩ := List.cons.inj heq
    rw [Block.names, hkey]
    cases hpath : b.path with
    | nil => rfl
    | cons next more => simp [hpath] at hrest

theorem lookup_flatMap_cons (b : Block) (bs : List Block) (names : List String) :
    ((b :: bs).flatMap Block.assignments).lookup names =
      (b.assignments.lookup names).or ((bs.flatMap Block.assignments).lookup names) := by
  rw [List.flatMap_cons, List.lookup_append]

/-- Under some keys, the values they are given, once each, and no others. -/
def Gives (ps : Pairs) (keys : List String) (g : String → Option Value) : Prop :=
  ∀ key ∈ keys, ps.filter (·.1 == key) = (g key).toList.map (Prod.mk key)

theorem gives_nil : Gives [] keys fun _ => none := fun _ _ => rfl

theorem Gives.append (h : Gives ps keys g) (h' : Gives pairs keys fun _ => none) :
    Gives (ps ++ pairs) keys g := by
  intro key hkey
  rw [List.filter_append, h key hkey, h' key hkey]
  simp

theorem Gives.congr (h : Gives ps keys g) (hg : ∀ key ∈ keys, g key = g' key) :
    Gives ps keys g' := by
  intro key hkey
  rw [h key hkey, hg key hkey]

/-- Of entries that are apart, one at most gives a key. -/
theorem map_pair_filter (hapart : Apart es) (hplain : ∀ e ∈ es, e.key = key → e.path = []) :
    (es.filter (·.key == key)).map Entry.pair = (valueOf es key).toList.map (Prod.mk key) := by
  induction es with
  | nil => rfl
  | cons e es ih =>
    obtain ⟨hfirst, hrest⟩ := List.pairwise_cons.mp hapart
    obtain ⟨hplain, hplains⟩ := List.forall_mem_cons.mp hplain
    by_cases hkey : e.key = key
    · have hnames : e.names = [key] := by rw [Entry.names, hkey, hplain hkey]
      have hothers : es.filter (·.key == key) = [] := by
        rw [List.filter_eq_nil_iff]
        intro e' he' heq
        have hkey' : e'.key = key := eq_of_beq heq
        apply (hfirst e' he').1
        rw [hnames, Entry.names, hkey', hplains e' he' hkey']
      simp [hkey, hothers, valueOf, Entry.assignment, hnames, Entry.pair]
    · have hnames : ([key] == e.names) = false := by
        apply beq_false_of_ne
        intro heq
        exact hkey (List.cons.inj heq).1.symm
      have hvalue : valueOf (e :: es) key = valueOf es key := by
        simp [valueOf, Entry.assignment, List.lookup_cons, hnames]
      rw [hvalue, ← ih hrest hplains, List.filter_cons_of_neg (by simpa using hkey)]

theorem gives_tableOf (hapart : Apart es) (hplain : ∀ e ∈ es, e.key ∈ keys → e.path = []) :
    Gives (tableOf es) keys (valueOf es) := by
  intro key hkey
  have hpath : ∀ e ∈ es, e.key = key → e.path = [] := by
    intro e he heq
    apply hplain e he
    rwa [heq]
  rw [filter_of_insertAll (insertAll_eq_tableOf hapart) hpath, map_pair_filter hapart hpath]
  rfl

end

end Toml
end Beamline
