import Mathlib.Tactic
import Beamline.Proofs.Toml.Dotted
import Beamline.Proofs.Toml.Headers
import Beamline.Proofs.Toml.Token

/-!
# Sections — what a document gives by name

A document is what is written before any header and the blocks under headers. What it gives a key of
a section is decided by the whole names in it (`Document.given`). If the document is well formed it
has a tree, and for a section that is written in the usual way (`Document.Usual`) the tree has the
values that are given, each of them once, and nothing else, however the section is mixed with others
(`parse?_of_isText`).
-/

set_option autoImplicit false

namespace Beamline
namespace Toml

/-- Entries, and blocks of entries under headers. -/
structure Document where
  top : List Entry
  blocks : List Block

/-- What a value has under a key, if it is a table. -/
def insideOf (v : Option Value) (key : String) : Option Value :=
  match v with
  | some (.table _ pairs) => pairs.lookup key
  | _ => none

namespace Document

/-- What a document gives, by whole names. -/
def assignments (d : Document) : List (List String × Value) :=
  d.top.map (Entry.assignment []) ++ d.blocks.flatMap Block.assignments

/-- What a document gives a key of a section: by its whole name, or in a table that it gives the
section. -/
def given (d : Document) (sec key : String) : Option Value :=
  (d.assignments.lookup [sec, key]).or (insideOf (d.assignments.lookup [sec]) key)

/-- A text that a document is written as, in one of the ways that tokens and layout leave open. -/
def IsText (d : Document) (text : List Char) : Prop :=
  ∃ ts, Lines d.top d.blocks ts ∧ Written ts (joinLineEnds (dropMark text))

/-- Within each block no key leads through another, and each header finds what it asks for. -/
structure Wellformed (d : Document) : Prop where
  top : Apart d.top
  blocks : ∀ b ∈ d.blocks, Apart b.entries
  headers : Opens (fun _ => none) d.blocks

/-- A section that is written as a table, if at all: by a header in single brackets, or else by
dotted keys or in braces, with a value of its own for each known key that is named. Keys that are
not known may be used in any way. A section that is begun before the first header and taken up again
by one is excluded: both stand in the tree as pairs of one key. -/
structure Usual (d : Document) (sec : String) (keys : List String) : Prop where
  single : ∀ b ∈ d.blocks, b.names = [sec] → b.repeated = false
  headers : ∀ b ∈ d.blocks, ∀ key ∈ keys, ¬ [sec, key] <+: b.names
  braces : ∀ v, ([sec], v) ∈ d.assignments → ∃ pairs, v = .table .braces pairs
  whole : ∀ a ∈ d.assignments, ∀ key ∈ keys, [sec, key] <+: a.1 → a.1 = [sec, key]
  oneWay : (∀ e ∈ d.top, e.key ≠ sec) ∨ ∀ b ∈ d.blocks, b.key ≠ sec

end Document

/-- In a tree, a section has under some keys the values they are given, once each, and no others. -/
def Shows (tree : Pairs) (sec : String) (keys : List String) (g : String → Option Value) : Prop :=
  (tree.filter (·.1 == sec) = [] ∧ ∀ key ∈ keys, g key = none) ∨
    ∃ origin ps, tree.filter (·.1 == sec) = [(sec, .table origin ps)] ∧ Gives ps keys g

section

variable {d : Document} {text : List Char} {sec : String} {keys : List String} {tree : Pairs}
  {b : Block} {e : Entry} {g : String → Option Value}

theorem Holds.shows (h : Holds tree sec keys g) : Shows tree sec keys g := by
  cases h with
  | absent h hg => exact Or.inl ⟨h, hg⟩
  | passed h hgives hg => exact Or.inr ⟨_, _, h, hgives.congr fun key hkey => (hg key hkey).symm⟩
  | opened h hgives => exact Or.inr ⟨_, _, h, hgives⟩

theorem mem_of_lookup {α β : Type} [BEq α] [LawfulBEq α] {l : List (α × β)} {a : α} {b : β}
    (h : l.lookup a = some b) : (a, b) ∈ l := by
  obtain ⟨before, after, rfl, -⟩ := List.lookup_eq_some_iff.mp h
  simp

theorem Document.Usual.block (h : d.Usual sec keys) (hb : b ∈ d.blocks) : b.Usual sec keys := by
  refine ⟨h.single b hb, fun hnames e he hkey => ?_, h.headers b hb⟩
  have hmem : (b.names ++ e.names, e.value) ∈ d.assignments :=
    List.mem_append_right _ (List.mem_flatMap.mpr ⟨b, hb, List.mem_map.mpr ⟨e, he, rfl⟩⟩)
  have hwhole := h.whole _ hmem e.key hkey
  rw [hnames] at hwhole
  have hpath := hwhole ⟨e.path, rfl⟩
  simpa [Entry.names] using hpath

theorem Document.mem_assignments_top (he : e ∈ d.top) : (e.names, e.value) ∈ d.assignments :=
  List.mem_append_left _ (List.mem_map.mpr ⟨e, he, rfl⟩)

/-- At the top, a known key that is given inside a section is given by its whole name. -/
theorem Document.Usual.under {inside : Entry} (h : d.Usual sec keys) (he : e ∈ d.top)
    (hinside : e.under sec = some inside) (hknown : inside.key ∈ keys) : inside.path = [] := by
  have hnames := (under_eq_some_iff.mp hinside).1
  have hwhole := h.whole _ (Document.mem_assignments_top he) inside.key hknown
  rw [hnames] at hwhole
  have hpath := hwhole ⟨inside.path, rfl⟩
  simpa [Entry.names] using hpath

/-! The section at the top, before any header, has what is given there: in braces, or by dotted
keys. -/

/-- A section in braces. It is all in one value, and nothing can be added to it. -/
theorem shows_braces (htop : Apart d.top) (hwritten : ∀ e ∈ d.top, e.value.IsWritten)
    (h : d.Usual sec keys) (he : e ∈ d.top) (hnames : e.names = [sec]) :
    Shows (tableOf d.top) sec keys fun key =>
      (valueOf (d.top.filterMap (Entry.under sec)) key).or (insideOf (valueOf d.top sec) key) := by
  have hplain : ∀ e' ∈ d.top, e'.key = sec → e'.path = [] := by
    intro e' he' hkey
    by_cases hsame : e' = e
    · rw [hsame]
      exact (List.cons.inj hnames).2
    · have hsymm : Std.Symm fun e e' : Entry => Separate e.names e'.names :=
        ⟨fun e e' hseparate => ⟨hseparate.2, hseparate.1⟩⟩
      have hseparate := htop.forall he he' (Ne.symm hsame)
      rw [hnames] at hseparate
      exact absurd ⟨e'.path, by rw [Entry.names, hkey]; rfl⟩ hseparate.1
  -- What is there is the table in braces.
  have hsome : (valueOf d.top sec).isSome = true :=
    List.lookup_isSome_iff.mpr ⟨_, List.mem_map_of_mem he, by simp [Entry.assignment, hnames]⟩
  obtain ⟨v, hv⟩ := Option.isSome_iff_exists.mp hsome
  obtain ⟨e', he', hassigned⟩ := List.mem_map.mp (mem_of_lookup hv)
  have hvalue : e'.value = v := congrArg Prod.snd hassigned
  obtain ⟨pairs, hpairs⟩ : ∃ pairs, v = .table .braces pairs := by
    apply h.braces
    rw [← hassigned]
    exact Document.mem_assignments_top he'
  have hfilter := filter_of_insertAll (insertAll_eq_tableOf htop) hplain
  rw [map_pair_filter htop hplain, hv, hpairs] at hfilter
  -- And nothing else is given inside it.
  have hunder : ∀ key, valueOf (d.top.filterMap (Entry.under sec)) key = none := by
    intro key
    rw [valueOf_under]
    apply lookup_assignment_eq_none
    intro e' he' heq
    obtain ⟨hkey, hpath⟩ := List.cons.inj heq
    rw [hplain e' he' hkey] at hpath
    cases hpath
  have hkeys := (hwritten e' he').keysOnce .braces pairs (hvalue.trans hpairs)
  simp only [hunder, hv, hpairs, Option.none_or]
  exact Or.inr ⟨.braces, pairs, hfilter, fun key hkey => filter_of_nodup hkeys key⟩

/-- A section by dotted keys. Its table is made by them alone, as if they were written inside it. -/
theorem shows_dotted (htop : Apart d.top) (h : d.Usual sec keys)
    (hnone : ∀ e ∈ d.top, e.names ≠ [sec]) :
    Shows (tableOf d.top) sec keys fun key =>
      (valueOf (d.top.filterMap (Entry.under sec)) key).or (insideOf (valueOf d.top sec) key) := by
  have hwhole : valueOf d.top sec = none := lookup_assignment_eq_none hnone
  have hled : Led [] sec [] := .nowhere rfl
  obtain ⟨inner, hinner, hled⟩ := hled.insertAll
    (fun e he hkey hpath => hnone e he (by rw [Entry.names, hkey, hpath]))
    (insertAll_eq_tableOf htop)
  have hinner' : inner = tableOf (d.top.filterMap (Entry.under sec)) := by
    rw [insertAll_eq_tableOf (htop.under sec)] at hinner
    exact (Option.some.inj hinner).symm
  have hgives : Gives inner keys (valueOf (d.top.filterMap (Entry.under sec))) := by
    rw [hinner']
    apply gives_tableOf (htop.under sec)
    intro inside hinside hknown
    obtain ⟨e, he, hunder⟩ := List.mem_filterMap.mp hinside
    exact h.under he hunder hknown
  simp only [hwhole, insideOf, Option.or_none]
  cases hled with
  | nowhere hfilter =>
    refine Or.inl ⟨hfilter, fun key hkey => ?_⟩
    have hnothing := hgives key hkey
    cases hvalue : valueOf (d.top.filterMap (Entry.under sec)) key with
    | none => exact hvalue
    | some v => simp [hvalue] at hnothing
  | table hfilter => exact Or.inr ⟨_, _, hfilter, hgives⟩

/-! ## Reading a document -/

/-- What a document gives was written out. -/
theorem Lines.isWritten_of_mem {names : List String} {v : Value} {ts : List Token}
    (h : Lines d.top d.blocks ts) (hmem : (names, v) ∈ d.assignments) : v.IsWritten := by
  obtain ⟨htop, hblocks⟩ := h.isWritten
  rcases List.mem_append.mp hmem with hmem | hmem
  · obtain ⟨e, he, heq⟩ := List.mem_map.mp hmem
    have hvalue : e.value = v := congrArg Prod.snd heq
    exact hvalue ▸ htop e he
  · obtain ⟨b, hb, hmem⟩ := List.mem_flatMap.mp hmem
    obtain ⟨e, he, heq⟩ := List.mem_map.mp hmem
    have hvalue : e.value = v := congrArg Prod.snd heq
    exact hvalue ▸ hblocks b hb e he

/-- A whole number that a document gives has 64 bits. -/
theorem Document.inRange_of_given {key : String} {v : Value} (h : d.IsText text)
    (hv : d.given sec key = some v) : v.InRange := by
  obtain ⟨ts, hlines, -⟩ := h
  rcases Option.or_eq_some_iff.mp hv with hv | ⟨-, hv⟩
  · exact (hlines.isWritten_of_mem (mem_of_lookup hv)).inRange
  · unfold insideOf at hv
    split at hv
    next origin pairs hwhole =>
      exact (hlines.isWritten_of_mem (mem_of_lookup hwhole)).inside _ _ rfl _ (mem_of_lookup hv)
    next => cases hv

theorem lookup_blocks_eq_none {bs : List Block} (h : ∀ b ∈ bs, b.key ≠ sec) (names : List String) :
    (bs.flatMap Block.assignments).lookup (sec :: names) = none := by
  induction bs with
  | nil => rfl
  | cons b bs ih =>
    obtain ⟨hfirst, hrest⟩ := List.forall_mem_cons.mp h
    have hblock : b.assignments.lookup (sec :: names) = none :=
      lookup_assignment_eq_none fun e he heq => hfirst (List.cons.inj heq).1
    rw [lookup_flatMap_cons, hblock, ih hrest]
    rfl

/-- Below a header, nothing has a name of one part. -/
theorem lookup_blocks_singleton (bs : List Block) (sec : String) :
    (bs.flatMap Block.assignments).lookup [sec] = none := by
  induction bs with
  | nil => rfl
  | cons b bs ih =>
    have hblock : b.assignments.lookup [sec] = none := by
      apply lookup_assignment_eq_none
      intro e he heq
      have hlength := congrArg List.length heq
      simp [Block.names, Entry.names] at hlength
    rw [lookup_flatMap_cons, hblock, ih]
    rfl

/-- What a key is given, by where that stands: by dotted keys, under headers, or in braces. At most
one of the three gives anything in a section that is written in the usual way. -/
theorem Document.given_eq (d : Document) (sec key : String) :
    d.given sec key = ((valueOf (d.top.filterMap (Entry.under sec)) key).or
      ((d.blocks.flatMap Block.assignments).lookup [sec, key])).or
        (insideOf (valueOf d.top sec) key) := by
  rw [given, assignments, List.lookup_append, List.lookup_append, valueOf_under,
    lookup_blocks_singleton, Option.or_none]
  rfl

/-- **A document that is well formed has a tree**, and the tree shows each section that is written
in the usual way with the values that the document gives it. -/
theorem parse?_of_isText (h : d.IsText text) (hd : d.Wellformed) :
    ∃ tree, parse? text = some tree ∧ ∀ sec keys, d.Usual sec keys →
      Shows tree sec keys (d.given sec) := by
  obtain ⟨ts, hlines, hwritten⟩ := h
  obtain ⟨htop, hblocks⟩ := hlines.isWritten
  have hwellformed : ∀ b ∈ d.blocks, b.Wellformed := fun b hb => ⟨hd.blocks b hb, hblocks b hb⟩
  have hsections := sections?_of_lines (s := ⟨false, [], []⟩) hlines hd.blocks
    (insertAll_eq_tableOf hd.top) (Nat.lt_succ_self _)
  have hkinds : ∀ key path, kindsOf (tableOf d.top) (key :: path) = none := by
    intro key path
    have hnil := kindsOf_append (not_madeByHeader_tableOf hd.top htop) [] (key :: path)
    rw [List.append_nil] at hnil
    exact hnil.trans (kindsOf_nil _)
  obtain ⟨tree, htree⟩ := exists_insert_blocks hd.headers hwellformed hkinds
  refine ⟨tree, ?_, fun sec keys husual => ?_⟩
  · have hfirst : Section.insert [] ⟨false, [], tableOf d.top⟩ = some (tableOf d.top) := rfl
    rw [parse?, tokens?_of_written hwritten]
    simp only [Option.bind_eq_bind, Option.bind_some, hsections, List.foldlM_cons, hfirst]
    exact htree
  · rw [funext (d.given_eq sec)]
    rcases husual.oneWay with hnone | hnone
    · -- Headers only: nothing of the section is there before them.
      have hfilter := filter_of_insertAll (insertAll_eq_tableOf hd.top)
        fun e he heq => absurd heq (hnone e he)
      have hempty : d.top.filter (·.key == sec) = [] :=
        List.filter_eq_nil_iff.mpr fun e he => by simpa using hnone e he
      have hlookup : ∀ names, (d.top.map (Entry.assignment [])).lookup (sec :: names) = none :=
        fun names =>
        lookup_assignment_eq_none fun e he heq => hnone e he (List.cons.inj heq).1
      rw [hempty] at hfilter
      have habsent : Holds (tableOf d.top) sec keys
          fun key => valueOf (d.top.filterMap (Entry.under sec)) key :=
        .absent hfilter fun key hkey => (valueOf_under d.top sec key).trans (hlookup [key])
      have hwhole : valueOf d.top sec = none := hlookup []
      simp only [hwhole, insideOf, Option.or_none]
      exact (habsent.insert_blocks hwellformed (fun b hb => husual.block hb) htree).shows
    · -- No headers: the section stays what it was before them.
      have hfilter := filter_insert_blocks_of_ne hnone htree
      simp only [lookup_blocks_eq_none hnone, Option.or_none]
      unfold Shows
      rw [hfilter]
      by_cases hbraces : ∃ e ∈ d.top, e.names = [sec]
      · obtain ⟨e, he, hnames⟩ := hbraces
        exact shows_braces hd.top htop husual he hnames
      · exact shows_dotted hd.top husual fun e he hnames => hbraces ⟨e, he, hnames⟩

end

end Toml
end Beamline
