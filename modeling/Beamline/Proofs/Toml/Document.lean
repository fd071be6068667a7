import Mathlib.Tactic
import Beamline.Proofs.Toml.Value
import Beamline.Toml.Document

/-!
# Lines — how a document may be written

A document is entries, and then blocks of entries, each under a header. `Lines` is its grammar over
tokens: an entry or a header on a line of its own, with layout between the lines and a comment at
the end of any of them. The lines are gathered into the sections that the blocks make
(`sections?_of_lines`). The values in them are such as can be written out: no header made them, and
whole numbers have 64 bits (`Lines.isWritten`).
-/

set_option autoImplicit false

namespace Beamline
namespace Toml

/-! ## Blocks -/

/-- A header and the entries below it. -/
structure Block where
  /-- Whether the header has double brackets. -/
  repeated : Bool
  key : String
  path : List String
  entries : List Entry

namespace Block

/-- The parts of the header's key. -/
def names (b : Block) : List String := b.key :: b.path

/-- The section that a block makes. -/
def toSection (b : Block) : Section := ⟨b.repeated, b.names, tableOf b.entries⟩

end Block

/-! ## The grammar -/

/-- A header, in brackets that may be double. Blanks may stand inside the brackets and around
points, but not between two brackets. -/
inductive Header : Bool → String → List String → List Token → Prop where
  | single {name : String} {path : List String} {t : Token} {before ts after : List Token}
      (hbefore : Gap before) (ht : IsKey t name) (h : KeyRest path ts) (hafter : Gap after) :
      Header false name path (.mark '[' :: (before ++ t :: (ts ++ (after ++ [.mark ']']))))
  | double {name : String} {path : List String} {t : Token} {before ts after : List Token}
      (hbefore : Gap before) (ht : IsKey t name) (h : KeyRest path ts) (hafter : Gap after) :
      Header true name path
        (.mark '[' :: .mark '[' :: (before ++ t :: (ts ++ (after ++ [.mark ']', .mark ']']))))

/-- The end of a line, a comment before it or not. The last line of a text may go without a line
end, which is why it is said together with what follows. -/
inductive LineEnd : List Token → List Token → Prop where
  | plain {gap : List Token} (rest : List Token) (h : Gap gap) : LineEnd (gap ++ [.newline]) rest
  | comment {gap : List Token} (rest : List Token) (h : Gap gap) :
      LineEnd (gap ++ [.comment, .newline]) rest
  | last {gap : List Token} (h : Gap gap) : LineEnd gap []
  | lastComment {gap : List Token} (h : Gap gap) : LineEnd (gap ++ [.comment]) []

/-- Lines with some entries and then some blocks. Entries belong to the nearest header above them,
so a header takes over the entries of the lines below it. -/
inductive Lines : List Entry → List Block → List Token → Prop where
  | nil {layout : List Token} (h : IsLayout layout) : Lines [] [] layout
  | entry {e : Entry} {es : List Entry} {bs : List Block} {before ts close rest : List Token}
      (hbefore : IsLayout before) (he : Spells (.entry e) ts) (hclose : LineEnd close rest)
      (h : Lines es bs rest) : Lines (e :: es) bs (before ++ (ts ++ (close ++ rest)))
  | header {repeated : Bool} {key : String} {path : List String} {es : List Entry} {bs : List Block}
      {before ts close rest : List Token} (hbefore : IsLayout before)
      (hh : Header repeated key path ts) (hclose : LineEnd close rest) (h : Lines es bs rest) :
      Lines [] (⟨repeated, key, path, es⟩ :: bs) (before ++ (ts ++ (close ++ rest)))

/-! ## Reading -/

section

variable {ts close rest : List Token} {e : Entry} {es : List Entry} {bs : List Block}
  {repeated : Bool}
  {key : String} {path : List String} {pairs after : Pairs} {s : Section} {fuel : ℕ}

/-- A line end is found after the blanks and the comment before it. -/
theorem LineEnd.endLine? (h : LineEnd close rest) : endLine? (close ++ rest) = some rest := by
  cases h with
  | plain rest hgap =>
    have hskip : skipBlank (_ ++ .newline :: rest) = .newline :: rest :=
      hgap.skipBlank (by intro cs heq; cases heq)
    rw [List.append_assoc, List.singleton_append, Toml.endLine?, hskip]
  | comment rest hgap =>
    have hskip : skipBlank (_ ++ .comment :: .newline :: rest) = .comment :: .newline :: rest :=
      hgap.skipBlank (by intro cs heq; cases heq)
    rw [List.append_assoc, List.cons_append, List.singleton_append, Toml.endLine?, hskip]
  | last hgap =>
    have hskip : skipBlank (_ ++ []) = [] := hgap.skipBlank (by intro cs heq; cases heq)
    rw [Toml.endLine?, hskip]
  | lastComment hgap =>
    have hskip : skipBlank (_ ++ [.comment]) = [.comment] :=
      hgap.skipBlank (by intro cs heq; cases heq)
    rw [List.append_nil, Toml.endLine?, hskip]

/-- A line end ends the value before it, as no value goes on behind a comment or on the next
line. -/
theorem LineEnd.follows (h : LineEnd close rest) : Follows (close ++ rest) := by
  cases h with
  | plain rest hgap =>
    rw [List.append_assoc]
    exact Follows.of_layout hgap.isLayout (by intro t ht; cases ht; decide)
  | comment rest hgap =>
    rw [List.append_assoc]
    exact Follows.of_layout hgap.isLayout (by intro t ht; cases ht; decide)
  | last hgap => exact Follows.of_layout hgap.isLayout (by intro t ht; cases ht)
  | lastComment hgap =>
    rw [List.append_nil]
    exact Follows.of_layout hgap.isLayout (by intro t ht; cases ht; decide)

/-- A header's path is read, and the line after its brackets. Single and double brackets differ in
nothing else. -/
theorem headerPath?_eq {t : Token} {before gap brackets : List Token} (hbefore : Gap before)
    (ht : IsKey t key) (h : KeyRest path ts) (hgap : Gap gap)
    (hbrackets : (repeated, brackets) ∈ [(false, [.mark ']']), (true, [.mark ']', .mark ']'])])
    (hclose : LineEnd close rest) :
    headerPath? repeated (before ++ t :: (ts ++ (gap ++ (brackets ++ (close ++ rest))))) =
      some (key :: path, rest) := by
  have hskip : skipBlank (before ++ t :: (ts ++ (gap ++ (brackets ++ (close ++ rest))))) =
      t :: (ts ++ (gap ++ (brackets ++ (close ++ rest)))) :=
    hbefore.skipBlank fun cs heq => ht.ne_blank cs (Option.some.inj heq)
  have hends : KeyEnds (brackets ++ (close ++ rest)) := by
    intro t' ht'
    simp only [List.mem_cons, Prod.mk.injEq, List.not_mem_nil, or_false] at hbrackets
    rcases hbrackets with ⟨-, rfl⟩ | ⟨-, rfl⟩ <;> cases ht' <;> simp
  rw [headerPath?, hskip, path?_of_keyRest ht h hgap hends]
  simp only [List.mem_cons, Prod.mk.injEq, List.not_mem_nil, or_false] at hbrackets
  rcases hbrackets with ⟨rfl, rfl⟩ | ⟨rfl, rfl⟩
  · simp [hclose.endLine?]
  · simp [hclose.endLine?]

/-- A header is read up to the end of its line. -/
theorem Header.header? (h : Header repeated key path ts) (hclose : LineEnd close rest) :
    ∃ more, ts = .mark '[' :: more ∧
      header? (ts ++ (close ++ rest)) = some (⟨repeated, key :: path, []⟩, rest) := by
  cases h with
  | @single _ _ t before ts gap hbefore ht h hgap =>
    have hpath : headerPath? false
        (before ++ t :: (ts ++ (gap ++ ([.mark ']'] ++ (close ++ rest))))) =
          some (key :: path, rest) :=
      headerPath?_eq hbefore ht h hgap (by simp) hclose
    have hopen : ∀ more, before ++ t :: (ts ++ (gap ++ ([.mark ']'] ++ (close ++ rest)))) ≠
        .mark '[' :: more := by
      intro more heq
      cases hbefore with
      | none => exact ht.ne_mark _ (List.cons.inj heq).1
      | blank => cases heq
    have hshape : .mark '[' :: (before ++ t :: (ts ++ (gap ++ [.mark ']']))) ++ (close ++ rest) =
        .mark '[' :: (before ++ t :: (ts ++ (gap ++ ([.mark ']'] ++ (close ++ rest))))) := by simp
    refine ⟨_, rfl, ?_⟩
    rw [hshape]
    unfold Toml.header?
    split
    next heq => exact absurd (List.cons.inj heq).2 (hopen _)
    next heq =>
      rw [← (List.cons.inj heq).2, hpath]
      rfl
    next hother => exact absurd rfl (hother _)
  | @double _ _ t before ts gap hbefore ht h hgap =>
    have hpath : headerPath? true
        (before ++ t :: (ts ++ (gap ++ ([.mark ']', .mark ']'] ++ (close ++ rest))))) =
          some (key :: path, rest) :=
      headerPath?_eq hbefore ht h hgap (by simp) hclose
    have hshape :
        .mark '[' :: .mark '[' :: (before ++ t :: (ts ++ (gap ++ [.mark ']', .mark ']']))) ++
        (close ++ rest) = .mark '[' :: .mark '[' ::
          (before ++ t :: (ts ++ (gap ++ ([.mark ']', .mark ']'] ++ (close ++ rest))))) := by simp
    refine ⟨_, rfl, ?_⟩
    rw [hshape, Toml.header?, hpath]
    rfl

/-- A line with an entry is read, and the entry put into its section. That there is room for it is a
hypothesis here, as it depends on the lines before. -/
theorem pairLine?_of_entry (he : Spells (.entry e) ts) (hclose : LineEnd close rest)
    (hinsert : insertDotted e.value e.key e.path s.pairs = some pairs) :
    pairLine? s (ts ++ (close ++ rest)) = some ({ s with pairs := pairs }, rest) := by
  obtain ⟨equals, ts₁, hpath, hequals, -, hvalue⟩ := entry_eq he.reads hclose.follows
  have hfuel : 2 * ts₁.length ≤ 2 * (ts₁ ++ (close ++ rest)).length + 2 := by
    rw [List.length_append]
    omega
  rw [pairLine?, hpath]
  simp only [Option.bind_eq_bind, Option.bind_some, hequals, hvalue _ hfuel, hclose.endLine?,
    hinsert]
  rfl

/-- **Lines are gathered into sections.** The induction is on the lines, and the section that is
being read may have pairs already; a header ends it and starts the next one from nothing. -/
theorem sections?_of_lines (h : Lines es bs ts) (hapart : ∀ b ∈ bs, Apart b.entries)
    (hinsert : insertAll es s.pairs = some after) (hfuel : ts.length < fuel) :
    sections? fuel s ts = some ({ s with pairs := after } :: bs.map Block.toSection) := by
  induction h generalizing fuel s after with
  | nil hlayout =>
    obtain ⟨fuel, rfl, -⟩ := exists_fuel fuel _ hfuel
    obtain rfl : s.pairs = after := Option.some.inj hinsert
    have hskip : skipLayout (_ ++ []) = [] := skipLayout_append hlayout (by intro t ht; cases ht)
    rw [List.append_nil] at hskip
    rw [sections?, hskip]
    rfl
  | @entry e es bs before ts close rest hbefore he hclose _ ih =>
    obtain ⟨fuel, rfl, hless⟩ := exists_fuel fuel _ hfuel
    obtain ⟨t, more, rfl, ht⟩ := he.entry_head
    rw [insertAll_cons] at hinsert
    obtain ⟨between, hbetween, hinsert⟩ := Option.bind_eq_some_iff.mp hinsert
    have hskip : skipLayout (before ++ (t :: more ++ (close ++ rest))) =
        t :: more ++ (close ++ rest) :=
      skipLayout_append hbefore (by intro t' ht'; cases ht'; exact ht.not_isLayout)
    have hnext : sections? fuel { s with pairs := between } rest = _ :=
      ih hapart hinsert (by simp at hless; omega)
    rw [sections?, hskip]
    split
    next heq => cases heq
    next heq => exact absurd (List.cons.inj heq).1 (ht.ne_mark _)
    next =>
      rw [pairLine?_of_entry he hclose hbetween]
      exact hnext
  | @header repeated key path es bs before ts close rest hbefore hh hclose _ ih =>
    obtain ⟨fuel, rfl, hless⟩ := exists_fuel fuel _ hfuel
    obtain rfl : s.pairs = after := Option.some.inj hinsert
    obtain ⟨hfirst, hrest⟩ := List.forall_mem_cons.mp hapart
    obtain ⟨more, rfl, hheader⟩ := hh.header? hclose
    have hskip : skipLayout (before ++ (.mark '[' :: more ++ (close ++ rest))) =
        .mark '[' :: more ++ (close ++ rest) :=
      skipLayout_append hbefore (by intro t ht; cases ht; rfl)
    have hnext : sections? fuel ⟨repeated, key :: path, []⟩ rest = _ :=
      ih hrest (insertAll_eq_tableOf hfirst) (by simp at hless; omega)
    rw [sections?, hskip]
    simp only [List.cons_append] at hheader ⊢
    rw [hheader]
    simp only [hnext]
    rfl

end

/-! ## What is written -/

section

variable {v : Value}

def Value.InRange (v : Value) : Prop := ∀ i, v = .integer i → -2 ^ 63 ≤ i ∧ i < 2 ^ 63

/-- What holds of a value that is written out: no header made it, whole numbers have 64 bits, and a
table has each key once. The reader of settings counts on the last two, and the tree on the
first. -/
structure Value.IsWritten (v : Value) : Prop where
  notHeaded : ∀ key, madeByHeader (key, v) = false
  inRange : v.InRange
  keysOnce : ∀ origin pairs, v = .table origin pairs → (pairs.map Prod.fst).Nodup
  inside : ∀ origin pairs, v = .table origin pairs → ∀ pair ∈ pairs, pair.2.InRange

def Phrase.IsWritten : Phrase → Prop
  | .value v => v.IsWritten
  | .items _ => True
  | .entry e => e.value.IsWritten
  | .entries es => ∀ e ∈ es, e.value.IsWritten

theorem isWritten_of_not_table (hheaded : ∀ key, madeByHeader (key, v) = false) (hrange : v.InRange)
    (htable : ∀ origin pairs, v ≠ .table origin pairs) : v.IsWritten where
  notHeaded := hheaded
  inRange := hrange
  keysOnce origin pairs heq := absurd heq (htable origin pairs)
  inside origin pairs heq := absurd heq (htable origin pairs)

theorem Numeral.isWritten {sign : Sign} {cs : List Char} {more : List Token}
    (h : Numeral sign v cs more) :
    v.IsWritten := by
  apply isWritten_of_not_table
  · intro key
    cases h <;> rfl
  · intro i hi
    subst hi
    cases h with
    | integer _ _ _ hrange => exact hrange
    | based _ _ _ hrange => constructor <;> omega
  · intro origin pairs heq
    subst heq
    cases h

theorem isWritten_tableOf {es : List Entry} (hapart : Apart es) (h : ∀ e ∈ es, e.value.IsWritten) :
    (Value.table .braces (tableOf es)).IsWritten where
  notHeaded _ := rfl
  inRange _ heq := nomatch heq
  keysOnce _ _ heq := by
    cases heq
    exact nodup_tableOf hapart
  inside _ _ heq := by
    cases heq
    intro pair hpair i hi
    rcases mem_tableOf hapart hpair with ⟨e, he, rfl⟩ | ⟨inner, hinner⟩
    · exact (h e he).inRange i hi
    · rw [hinner] at hi
      cases hi

theorem Spells.isWritten {p : Phrase} {ts : List Token} (h : Spells p ts) : p.IsWritten := by
  have hother : ∀ v : Value, (∀ key, madeByHeader (key, v) = false) → (∀ i, v ≠ .integer i) →
      (∀ origin pairs, v ≠ .table origin pairs) → v.IsWritten := fun v hheaded hinteger htable =>
    isWritten_of_not_table hheaded (fun i hi => absurd hi (hinteger i)) htable
  induction h with
  | text => exact hother _ (fun _ => rfl) (by simp) (by simp)
  | yes => exact hother _ (fun _ => rfl) (by simp) (by simp)
  | no => exact hother _ (fun _ => rfl) (by simp) (by simp)
  | date => exact hother _ (fun _ => rfl) (by simp) (by simp)
  | array => exact hother _ (fun _ => rfl) (by simp) (by simp)
  | number h => exact h.isWritten
  | positive h => exact h.isWritten
  | noItems => trivial
  | lastItem => trivial
  | item => trivial
  | emptyTable =>
    have hempty : (Value.table .braces (tableOf [])).IsWritten :=
      isWritten_tableOf List.Pairwise.nil (by intro e he; cases he)
    exact hempty
  | table _ _ hapart ih => exact isWritten_tableOf hapart ih
  | entry _ _ _ _ _ ih => exact ih
  | lastEntry _ _ ih => exact List.forall_mem_singleton.mpr ih
  | entries _ _ _ _ ih ih' => exact List.forall_mem_cons.mpr ⟨ih, ih'⟩

theorem Lines.isWritten {es : List Entry} {bs : List Block} {ts : List Token} (h : Lines es bs ts) :
    (∀ e ∈ es, e.value.IsWritten) ∧ ∀ b ∈ bs, ∀ e ∈ b.entries, e.value.IsWritten := by
  induction h with
  | nil => exact ⟨by simp, by simp⟩
  | entry _ he _ _ ih => exact ⟨List.forall_mem_cons.mpr ⟨he.isWritten, ih.1⟩, ih.2⟩
  | header _ _ _ _ ih => exact ⟨by simp, List.forall_mem_cons.mpr ⟨ih.1, ih.2⟩⟩

theorem not_madeByHeader_tableOf {es : List Entry} (hapart : Apart es)
    (h : ∀ e ∈ es, e.value.IsWritten) :
    ∀ pair ∈ tableOf es, madeByHeader pair = false := by
  intro pair hpair
  rcases mem_tableOf hapart hpair with ⟨e, he, rfl⟩ | ⟨inner, hinner⟩
  · exact (h e he).notHeaded e.key
  · obtain ⟨name, v⟩ := pair
    subst hinner
    rfl

end

end Toml
end Beamline
