import Mathlib.Tactic
import Beamline.Proofs.Toml.Assignments

/-!
# Headers — a section that is written under headers

A section stands in a tree at most once, as a table: made by headers inside it, or by its own
header, which may come after those but only once (`Holds`). A block adds to the section what it
gives by a name in it, and blocks of other names leave it as it was (`Holds.insert`), so all the
blocks of a document together put there what they give it (`Holds.insert_blocks`).
-/

set_option autoImplicit false

namespace Beamline
namespace Toml

/-! ## One header -/

section

variable {tree tree' pairs ps inner : Pairs} {key key' sec : String} {path keys : List String}
  {v w : Value} {repeated : Bool} {es es' : List Entry}

/-- What a header does to a tree: it changes the value of one key, at its own place or around it.
Facts about one section are proved by these cases, with the key being the section or not. -/
theorem insertSection_cases (h : insertSection repeated pairs key path tree = some tree') :
    ∃ v, tree' = putHeaded tree key v ∧
      ((path = [] ∧ opened repeated pairs (headed tree key) = some v) ∨
        ∃ next more inner, path = next :: more ∧
          insertSection repeated pairs next more (below tree key) = some inner ∧
          v = through inner (headed tree key)) := by
  cases path with
  | nil =>
    rw [insertSection_nil] at h
    obtain ⟨v, hv, rfl⟩ := Option.map_eq_some_iff.mp h
    exact ⟨v, rfl, Or.inl ⟨rfl, hv⟩⟩
  | cons next more =>
    rw [insertSection_cons] at h
    obtain ⟨inner, hinner, rfl⟩ := Option.map_eq_some_iff.mp h
    exact ⟨_, rfl, Or.inr ⟨next, more, inner, rfl, hinner, rfl⟩⟩

/-- Other keys have what they had. -/
theorem filter_insertSection_of_ne (h : insertSection repeated pairs key path tree = some tree')
    (hne : key' ≠ key) : tree'.filter (·.1 == key') = tree.filter (·.1 == key') := by
  obtain ⟨v, rfl, -⟩ := insertSection_cases h
  exact filter_putHeaded_of_ne hne tree v

theorem headed_eq_find? (tree : Pairs) (key : String) :
    headed tree key = ((tree.filter (·.1 == key)).find? madeByHeader).map (·.2) := by
  rw [headed, List.find?_filter]
  congr 2
  funext pair
  by_cases hkey : pair.1 = key <;> simp [isHeaded, hkey]

theorem filter_replaceFirst (tree : Pairs) (key : String) (v : Value) :
    (tree.replaceFirst (isHeaded key) v).filter (·.1 == key) =
      Pairs.replaceFirst madeByHeader v (tree.filter (·.1 == key)) := by
  induction tree with
  | nil => rfl
  | cons pair tree ih =>
    by_cases hkey : pair.1 = key
    · by_cases hmade : madeByHeader pair = true
      · simp [Pairs.replaceFirst, isHeaded, hkey, hmade]
      · simp [Pairs.replaceFirst, isHeaded, hkey, hmade, ih]
    · simp [Pairs.replaceFirst, isHeaded, hkey, ih]

/-! A key that the tree has at most once has what was put there. -/

theorem filter_putHeaded_of_nil (h : tree.filter (·.1 == key) = []) :
    headed tree key = none ∧ ∀ v, (putHeaded tree key v).filter (·.1 == key) = [(key, v)] := by
  have hnone : headed tree key = none := by
    rw [headed_eq_find?, h]
    rfl
  refine ⟨hnone, fun v => ?_⟩
  rw [putHeaded_of_none hnone, List.filter_append, h]
  simp

theorem filter_putHeaded_of_singleton (h : tree.filter (·.1 == key) = [(key, w)])
    (hw : w.IsHeaded) :
    headed tree key = some w ∧ ∀ v, (putHeaded tree key v).filter (·.1 == key) = [(key, v)] := by
  have hmade : madeByHeader (key, w) = true := (madeByHeader_eq key "" w).trans hw
  have hsome : headed tree key = some w := by
    rw [headed_eq_find?, h]
    simp [hmade]
  refine ⟨hsome, fun v => ?_⟩
  rw [putHeaded_of_some hsome, filter_replaceFirst, h]
  simp [Pairs.replaceFirst, hmade]

end

/-! ## A section by headers -/

/-- What headers make of a section in a tree, and what its keys are given. A section that headers
lead through has no values of its own yet; once it is opened it is not opened again. -/
inductive Holds (tree : Pairs) (sec : String) (keys : List String) (g : String → Option Value) :
    Prop where
  | absent (h : tree.filter (·.1 == sec) = []) (hg : ∀ key ∈ keys, g key = none)
  | passed {ps : Pairs} (h : tree.filter (·.1 == sec) = [(sec, .table .passed ps)])
      (hgives : Gives ps keys fun _ => none) (hg : ∀ key ∈ keys, g key = none)
  | opened {ps : Pairs} (h : tree.filter (·.1 == sec) = [(sec, .table .header ps)])
      (hgives : Gives ps keys g)

/-- A block that writes a section in the usual way: under a header in single brackets, with a value
for each known key that it names, and whatever else around them. Blocks of other sections are usual
as well. -/
structure Block.Usual (b : Block) (sec : String) (keys : List String) : Prop where
  single : b.names = [sec] → b.repeated = false
  plain : b.names = [sec] → ∀ e ∈ b.entries, e.key ∈ keys → e.path = []
  other : ∀ key ∈ keys, ¬ [sec, key] <+: b.names

section

variable {tree tree' ps pairs inner : Pairs} {sec next : String} {keys more : List String}
  {g : String → Option Value} {b : Block} {bs : List Block} {es : List Entry} {repeated : Bool}
  {v : Value}

/-- A header inside a section leaves the values of the known keys as they were. -/
theorem Gives.insertSection (h : Gives ps keys g) (hnext : next ∉ keys)
    (hinsert : insertSection repeated pairs next more ps = some inner) : Gives inner keys g := by
  intro key hkey
  have hne : key ≠ next := fun heq => hnext (heq ▸ hkey)
  rw [filter_insertSection_of_ne hinsert hne, h key hkey]

/-- The header of a section puts there what is given under it, before what headers inside it have
made. -/
theorem Holds.insert_own (h : Holds tree sec keys g) (hapart : Apart es)
    (hplain : ∀ e ∈ es, e.key ∈ keys → e.path = [])
    (hopened : Toml.opened false (tableOf es) (headed tree sec) = some v) :
    Holds (putHeaded tree sec v) sec keys fun key => (g key).or (valueOf es key) := by
  have hgives := gives_tableOf hapart hplain
  cases h with
  | absent h hg =>
    obtain ⟨hnone, hput⟩ := filter_putHeaded_of_nil h
    rw [hnone] at hopened
    cases hopened
    exact .opened (hput _) (hgives.congr fun key hkey => by rw [hg key hkey, Option.none_or])
  | passed h hbefore hg =>
    obtain ⟨hsome, hput⟩ := filter_putHeaded_of_singleton h rfl
    rw [hsome] at hopened
    cases hopened
    exact .opened (hput _)
      ((hgives.append hbefore).congr fun key hkey => by rw [hg key hkey, Option.none_or])
  | opened h =>
    obtain ⟨hsome, -⟩ := filter_putHeaded_of_singleton h rfl
    rw [hsome] at hopened
    cases hopened

/-- A header inside a section changes nothing that the known keys are given. -/
theorem Holds.insert_inside (h : Holds tree sec keys g) (hnext : next ∉ keys)
    (hinner : insertSection repeated pairs next more (below tree sec) = some inner) :
    Holds (putHeaded tree sec (through inner (headed tree sec))) sec keys g := by
  cases h with
  | absent h hg =>
    obtain ⟨hnone, hput⟩ := filter_putHeaded_of_nil h
    rw [below, hnone] at hinner
    rw [hnone]
    exact .passed (hput _) (gives_nil.insertSection hnext hinner) hg
  | passed h hgives hg =>
    obtain ⟨hsome, hput⟩ := filter_putHeaded_of_singleton h rfl
    rw [below, hsome] at hinner
    rw [hsome]
    exact .passed (hput _) (hgives.insertSection hnext hinner) hg
  | opened h hgives =>
    obtain ⟨hsome, hput⟩ := filter_putHeaded_of_singleton h rfl
    rw [below, hsome] at hinner
    rw [hsome]
    exact .opened (hput _) (hgives.insertSection hnext hinner)

theorem Holds.of_same (h : Holds tree sec keys g)
    (hsame : tree'.filter (·.1 == sec) = tree.filter (·.1 == sec)) :
    Holds tree' sec keys g := by
  cases h with
  | absent h hg => exact .absent (hsame.trans h) hg
  | passed h hgives hg => exact .passed (hsame.trans h) hgives hg
  | opened h hgives => exact .opened (hsame.trans h) hgives

/-- **A block adds its values to its own section**, and leaves every other as it was. This is the
step of reading a document, with the section fixed. -/
theorem Holds.insert (h : Holds tree sec keys g) (hb : b.Wellformed) (husual : b.Usual sec keys)
    (hinsert : Section.insert tree b.toSection = some tree') :
    Holds tree' sec keys fun key => (g key).or (b.assignments.lookup [sec, key]) := by
  rw [Section.insert_toSection] at hinsert
  simp only [Block.lookup_assignments]
  by_cases hkey : b.key = sec
  · subst hkey
    obtain ⟨v, rfl, ⟨hpath, hopened⟩ | ⟨next, more, inner, hpath, hinner, rfl⟩⟩ :=
      insertSection_cases hinsert
    · have hnames : b.names = [b.key] := by rw [Block.names, hpath]
      rw [husual.single hnames] at hopened
      simp only [if_pos hnames]
      exact h.insert_own hb.apart (husual.plain hnames) hopened
    · have hnames : b.names ≠ [b.key] := by
        rw [Block.names, hpath]
        simp
      have hnext : next ∉ keys := by
        intro hmem
        apply husual.other next hmem
        rw [Block.names, hpath]
        exact ⟨more, rfl⟩
      simp only [if_neg hnames, Option.or_none]
      exact h.insert_inside hnext hinner
  · have hnames : b.names ≠ [sec] := fun heq => hkey (List.cons.inj heq).1
    simp only [if_neg hnames, Option.or_none]
    exact h.of_same (filter_insertSection_of_ne hinsert (Ne.symm hkey))

/-- Blocks one after another give a section what they give by its name: the run of these steps. -/
theorem Holds.insert_blocks (h : Holds tree sec keys g) (hbs : ∀ b ∈ bs, b.Wellformed)
    (husual : ∀ b ∈ bs, b.Usual sec keys)
    (hinsert : (bs.map Block.toSection).foldlM Section.insert tree = some tree') :
    Holds tree' sec keys fun key =>
      (g key).or ((bs.flatMap Block.assignments).lookup [sec, key]) := by
  induction bs generalizing tree g with
  | nil =>
    cases hinsert
    simpa using h
  | cons b bs ih =>
    obtain ⟨hfirst, hrest⟩ := List.forall_mem_cons.mp hbs
    obtain ⟨husual, husuals⟩ := List.forall_mem_cons.mp husual
    rw [List.map_cons, List.foldlM_cons] at hinsert
    obtain ⟨between, hbetween, hinsert⟩ := Option.bind_eq_some_iff.mp hinsert
    have hnext := ih (h.insert hfirst husual hbetween) hrest husuals hinsert
    simp only [lookup_flatMap_cons, ← Option.or_assoc]
    exact hnext

/-- Blocks of other names leave a section as it was. -/
theorem filter_insert_blocks_of_ne (hne : ∀ b ∈ bs, b.key ≠ sec)
    (hinsert : (bs.map Block.toSection).foldlM Section.insert tree = some tree') :
    tree'.filter (·.1 == sec) = tree.filter (·.1 == sec) := by
  induction bs generalizing tree with
  | nil =>
    cases hinsert
    rfl
  | cons b bs ih =>
    obtain ⟨hfirst, hrest⟩ := List.forall_mem_cons.mp hne
    rw [List.map_cons, List.foldlM_cons] at hinsert
    obtain ⟨between, hbetween, hinsert⟩ := Option.bind_eq_some_iff.mp hinsert
    rw [ih hrest hinsert, filter_insertSection_of_ne hbetween (Ne.symm hfirst)]

end

end Toml
end Beamline
