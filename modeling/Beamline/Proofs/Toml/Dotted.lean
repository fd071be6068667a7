import Mathlib.Tactic
import Beamline.Proofs.Toml.Assignments

/-!
# Dotted keys — a section that is written before any header

A dotted key leads into a table, which is made if it is not there. The entries that lead into the
same table make it as if what is left of their keys were written in it (`Led.insertAll`), and what
it gives a name is given by the whole names before (`valueOf_under`).
-/

set_option autoImplicit false

namespace Beamline
namespace Toml

/-- What an entry gives inside the table of a name, if it leads there. A key of one part does not:
it gives the name itself. -/
def Entry.under (sec : String) (e : Entry) : Option Entry :=
  match e.path with
  | [] => none
  | next :: path => if e.key = sec then some ⟨next, path, e.value⟩ else none

/-- Where the entries before have led: nowhere, or to a table that they made. In both cases the
table of the name is known, which is what the next entry changes. -/
inductive Led (pairs : Pairs) (sec : String) : Pairs → Prop where
  | nowhere (h : pairs.filter (·.1 == sec) = []) : Led pairs sec []
  | table {inner : Pairs} (h : pairs.filter (·.1 == sec) = [(sec, .table .dotted inner)]) :
      Led pairs sec inner

section

variable {pairs inner after : Pairs} {sec key : String} {keys names : List String} {es : List Entry}
  {e : Entry} {v : Value}

/-- A look-up finds the first pair of a key. Entries are put in by looking up, and what they leave
is told by all pairs of a key, so one has to be had from the other. -/
theorem lookup_eq_head? (pairs : Pairs) (key : String) :
    pairs.lookup key = ((pairs.filter (·.1 == key)).head?).map (·.2) := by
  induction pairs with
  | nil => rfl
  | cons pair pairs ih =>
    obtain ⟨name, v⟩ := pair
    by_cases hname : name = key
    · simp [hname]
    · have hne : (key == name) = false := beq_false_of_ne (Ne.symm hname)
      rw [List.lookup_cons, hne, ih, List.filter_cons_of_neg (by simpa using hname)]

/-- Among the pairs of its key, extending a table replaces the first. -/
theorem filter_replaceFirst_key (pairs : Pairs) (key : String) (v : Value) :
    (pairs.replaceFirst (fun pair => pair.1 == key) v).filter (·.1 == key) =
      Pairs.replaceFirst (fun _ => true) v (pairs.filter (·.1 == key)) := by
  induction pairs with
  | nil => rfl
  | cons pair pairs ih =>
    by_cases hkey : pair.1 = key
    · simp [Pairs.replaceFirst, hkey]
    · simp [Pairs.replaceFirst, hkey, ih]

theorem Led.lookup (h : Led pairs sec inner) :
    pairs.lookup sec = none ∧ inner = [] ∧ pairs.filter (·.1 == sec) = [] ∨
      pairs.lookup sec = some (.table .dotted inner) ∧
        pairs.filter (·.1 == sec) = [(sec, .table .dotted inner)] := by
  cases h with
  | nowhere h => exact Or.inl ⟨by rw [lookup_eq_head?, h]; rfl, rfl, h⟩
  | table h => exact Or.inr ⟨by rw [lookup_eq_head?, h]; rfl, h⟩

/-- One entry more: if it leads to the name, what is left of it goes into the table there, and the
name still has that table and nothing else; if it does not, nothing changes for the name. Keys that
are the name itself are excluded, as they would put a second pair beside the table. -/
theorem Led.insertDotted (h : Led pairs sec inner) (hpath : e.key = sec → e.path ≠ [])
    (hinsert : insertDotted e.value e.key e.path pairs = some after) :
    ∃ inner', Toml.insertAll (e.under sec).toList inner = some inner' ∧ Led after sec inner' := by
  by_cases hkey : e.key = sec
  · obtain ⟨hnil, -⟩ | ⟨next, more, hmore, hcases⟩ := insertDotted_cases hinsert
    · exact absurd hnil (hpath hkey)
    · have hunder : e.under sec = some ⟨next, more, e.value⟩ := by
        rw [Entry.under, hmore]
        exact if_pos hkey
      have hone : ∀ before, Toml.insertAll (e.under sec).toList before =
          Toml.insertDotted e.value next more before := by
        intro before
        rw [hunder, Option.toList_some, insertAll_singleton]
      rw [hkey] at hcases
      obtain ⟨hnone, inner', hinner', rfl⟩ | ⟨old, inner', hold, hinner', rfl⟩ := hcases
      · rcases h.lookup with ⟨-, rfl, hfilter⟩ | ⟨hsome, -⟩
        · refine ⟨inner', (hone []).trans hinner', .table ?_⟩
          rw [List.filter_append, hfilter]
          simp
        · rw [hnone] at hsome
          cases hsome
      · rcases h.lookup with ⟨hnone, -⟩ | ⟨hsome, hfilter⟩
        · rw [hold] at hnone
          cases hnone
        · rw [hold] at hsome
          cases hsome
          refine ⟨inner', (hone _).trans hinner', .table ?_⟩
          rw [filter_replaceFirst_key, hfilter]
          rfl
  · have hunder : e.under sec = none := by
      unfold Entry.under
      split
      · rfl
      · exact if_neg hkey
    have hsame := filter_insertDotted hinsert fun heq => absurd heq hkey
    rw [if_neg hkey, List.append_nil] at hsame
    refine ⟨inner, by rw [hunder]; rfl, ?_⟩
    cases h with
    | nowhere h => exact .nowhere (hsame.trans h)
    | table h => exact .table (hsame.trans h)

/-- **Entries that lead into the table of a name make it** as if they were written in it. The
induction starts from wherever the entries before have led. -/
theorem Led.insertAll (h : Led pairs sec inner) (hpath : ∀ e ∈ es, e.key = sec → e.path ≠ [])
    (hinsert : insertAll es pairs = some after) :
    ∃ inner', Toml.insertAll (es.filterMap (Entry.under sec)) inner = some inner' ∧
      Led after sec inner' := by
  induction es generalizing pairs inner with
  | nil =>
    cases hinsert
    exact ⟨inner, rfl, h⟩
  | cons e es ih =>
    obtain ⟨hfirst, hrest⟩ := List.forall_mem_cons.mp hpath
    rw [insertAll_cons] at hinsert
    obtain ⟨between, hbetween, hinsert⟩ := Option.bind_eq_some_iff.mp hinsert
    obtain ⟨inner₁, hinner₁, hled⟩ := h.insertDotted hfirst hbetween
    obtain ⟨inner₂, hinner₂, hled⟩ := ih hled hrest hinsert
    refine ⟨inner₂, ?_, hled⟩
    have hsplit : (e :: es).filterMap (Entry.under sec) =
        (e.under sec).toList ++ es.filterMap (Entry.under sec) := by
      rw [List.filterMap_cons]
      cases e.under sec <;> rfl
    rw [hsplit, insertAll_append, hinner₁]
    exact hinner₂

/-- What an entry gives inside a table has the rest of its name, and its value. -/
theorem under_eq_some_iff {e' : Entry} :
    e.under sec = some e' ↔ e.names = sec :: e'.names ∧ e.value = e'.value := by
  obtain ⟨key, path, v⟩ := e
  obtain ⟨key', path', v'⟩ := e'
  cases path with
  | nil => simp [Entry.under, Entry.names]
  | cons next path =>
    by_cases hkey : key = sec
    · simp [Entry.under, Entry.names, hkey, and_assoc]
    · simp [Entry.under, Entry.names, hkey]

theorem separate_cons {name : String} {names names' : List String} :
    Separate (name :: names) (name :: names') ↔ Separate names names' := by
  simp [Separate, List.cons_prefix_cons]

/-- The entries inside a table are apart if those that lead there are, since names that begin alike
are separate in what is left of them. -/
theorem Apart.under (h : Apart es) (sec : String) : Apart (es.filterMap (Entry.under sec)) := by
  unfold Apart
  rw [List.pairwise_filterMap]
  apply h.imp
  intro e e' hseparate inside hinside inside' hinside'
  have hnames := (under_eq_some_iff.mp hinside).1
  have hnames' := (under_eq_some_iff.mp hinside').1
  rw [hnames, hnames'] at hseparate
  exact separate_cons.mp hseparate

/-- A name inside a table is given what the whole name is given. So what a section has does not
depend on whether it is written in braces or by dotted keys. -/
theorem valueOf_under (es : List Entry) (sec key : String) :
    valueOf (es.filterMap (Entry.under sec)) key =
      (es.map (Entry.assignment [])).lookup [sec, key] := by
  induction es with
  | nil => rfl
  | cons e es ih =>
    cases hunder : e.under sec with
    | none =>
      have hne : ([sec, key] == e.names) = false := by
        apply beq_false_of_ne
        intro heq
        have hsome : e.under sec = some ⟨key, [], e.value⟩ := under_eq_some_iff.mpr ⟨heq.symm, rfl⟩
        rw [hunder] at hsome
        cases hsome
      rw [List.filterMap_cons_none hunder, ih]
      simp [Entry.assignment, List.lookup_cons, hne]
    | some inside =>
      obtain ⟨hnames, hvalue⟩ := under_eq_some_iff.mp hunder
      have hsame : ([sec, key] == sec :: inside.names) = ([key] == inside.names) := by simp
      rw [valueOf] at ih
      rw [List.filterMap_cons_some hunder, valueOf]
      simp only [List.map_cons, Entry.assignment, List.nil_append, List.lookup_cons, hnames, hsame,
        hvalue, ih]

end

end Toml
end Beamline
