import Mathlib.Tactic
import Beamline.Proofs.Toml.Date
import Beamline.Proofs.Toml.Entries

/-!
# Values — how they may be written

`Spells` is the grammar of values over tokens: strings, truth values, numbers and dates, arrays with
layout and a comma after the last item if one likes, and tables in braces with dotted keys. Whatever
is written by it is read as the value it was written for (`Spells.reads`), as long as nothing
follows that a number or a date would go on with (`Follows`).

The reader takes fuel, and a value of some tokens needs less than two for each of them.
-/

set_option autoImplicit false

namespace Beamline
namespace Toml

/-! ## Keys -/

/-- Blanks that may stand there or not. The scanner makes one token of them, however many there
are. -/
inductive Gap : List Token → Prop where
  | none : Gap []
  | blank (cs : List Char) : Gap [.blank cs]

/-- A token that is a key, or a part of one: a word, or a quoted text that stays on its line. What
the quotes hold need not look like a word. -/
inductive IsKey : Token → String → Prop where
  | word (cs : List Char) : IsKey (.word cs) (String.ofList cs)
  | text (cs : List Char) : IsKey (.text cs false) (String.ofList cs)

/-- Further parts of a dotted key. -/
inductive KeyRest : List String → List Token → Prop where
  | nil : KeyRest [] []
  | cons {name : String} {path : List String} {t : Token} {before after ts : List Token}
      (hbefore : Gap before) (hafter : Gap after) (ht : IsKey t name) (h : KeyRest path ts) :
      KeyRest (name :: path) (before ++ .mark '.' :: (after ++ t :: ts))

section

variable {ts rest gap : List Token} {t : Token} {name : String} {path : List String}

theorem Gap.skipBlank (hgap : Gap gap) (hrest : ∀ cs, rest.head? ≠ some (.blank cs)) :
    skipBlank (gap ++ rest) = rest := by
  cases hgap with
  | blank => rfl
  | none =>
    rw [List.nil_append]
    unfold Toml.skipBlank
    split
    · exact absurd rfl (hrest _)
    · rfl

theorem IsKey.key? (h : IsKey t name) : key? (t :: rest) = some (name, rest) := by
  cases h <;> rfl

theorem IsKey.ne_blank (h : IsKey t name) (cs : List Char) : t ≠ .blank cs := by
  cases h <;> simp

theorem IsKey.ne_mark (h : IsKey t name) (c : Char) : t ≠ .mark c := by
  cases h <;> simp

theorem Gap.keyRest (hgap : Gap gap) : keyRest (gap ++ rest) = keyRest rest := by
  cases hgap with
  | none => rfl
  | blank => rw [List.singleton_append, Toml.keyRest]

theorem Gap.keyPart (hgap : Gap gap) : keyPart (gap ++ rest) = keyPart rest := by
  cases hgap with
  | none => rfl
  | blank => rw [List.singleton_append, Toml.keyPart]

theorem IsKey.keyPart (h : IsKey t name) :
    keyPart (t :: rest) = (keyRest rest).map fun (parts, ts) => (name :: parts, ts) := by
  cases h <;> rw [Toml.keyPart]

/-- What a key ends before: neither a point, which would go on with it, nor a blank, which is taken
along. -/
def KeyEnds (rest : List Token) : Prop :=
  ∀ t, rest.head? = some t → t ≠ .mark '.' ∧ ∀ cs, t ≠ .blank cs

theorem keyRest_of_keyEnds (h : KeyEnds rest) : keyRest rest = some ([], rest) := by
  unfold Toml.keyRest
  split
  next cs ts => exact absurd rfl ((h _ rfl).2 cs)
  next ts => exact absurd rfl (h _ rfl).1
  next => rfl

/-- The parts of a key are read, and the blanks after it are skipped. The reader skips blanks before
it knows whether a point follows, so those in front of an equals sign or a bracket are gone with the
key. -/
theorem KeyRest.keyRest (h : KeyRest path ts) (hgap : Gap gap) (hrest : KeyEnds rest) :
    keyRest (ts ++ (gap ++ rest)) = some (path, rest) := by
  induction h with
  | nil => rw [List.nil_append, hgap.keyRest, keyRest_of_keyEnds hrest]
  | @cons name path t before after ts hbefore hafter ht _ ih =>
    have hpoint : Toml.keyRest (.mark '.' :: (after ++ t :: (ts ++ (gap ++ rest)))) =
        keyPart (after ++ t :: (ts ++ (gap ++ rest))) := by rw [Toml.keyRest]
    rw [List.append_assoc, List.cons_append, List.append_assoc, List.cons_append, hbefore.keyRest,
      hpoint, hafter.keyPart, ht.keyPart, ih]
    rfl

/-- A whole key. Entries and headers both read theirs with this. -/
theorem path?_of_keyRest (ht : IsKey t name) (h : KeyRest path ts) (hgap : Gap gap)
    (hrest : KeyEnds rest) :
    path? (t :: (ts ++ (gap ++ rest))) = some ((name, path), rest) := by
  unfold path?
  rw [ht.key?]
  simp [h.keyRest hgap hrest]

end

/-! ## The grammar -/

/-- What some tokens can be. Values, items and entries contain one another, so the grammar is one
relation with an index, and what is proved of it goes by one induction. -/
inductive Phrase where
  | value (v : Value)
  /-- The items of an array, without its brackets. -/
  | items (xs : List Value)
  | entry (e : Entry)
  /-- The entries of a table, without its braces. -/
  | entries (es : List Entry)

/-- Line ends, blanks and comments. -/
def IsLayout (ts : List Token) : Prop := ∀ t ∈ ts, isLayout t = true

inductive Spells : Phrase → List Token → Prop where
  | text (cs : List Char) (multiline : Bool) :
      Spells (.value (.string (String.ofList cs))) [.text cs multiline]
  | yes : Spells (.value (.boolean true)) [.word "true".toList]
  | no : Spells (.value (.boolean false)) [.word "false".toList]
  | number {sign : Sign} {v : Value} {cs : List Char} {more : List Token}
      (h : Numeral sign v cs more) :
      Spells (.value v) (.word (signed sign cs) :: more)
  | positive {v : Value} {cs : List Char} {more : List Token} (h : Numeral .plus v cs more) :
      Spells (.value v) (.mark '+' :: .word cs :: more)
  | date {cs : List Char} {more : List Token} (h : DateText cs more) :
      Spells (.value .date) (.word cs :: more)
  | array {xs : List Value} {ts : List Token} (h : Spells (.items xs) ts) :
      Spells (.value (.array xs)) (.mark '[' :: (ts ++ [.mark ']']))
  | noItems {layout : List Token} (h : IsLayout layout) : Spells (.items []) layout
  | lastItem {v : Value} {before ts after : List Token} (hbefore : IsLayout before)
      (h : Spells (.value v) ts) (hafter : IsLayout after) :
      Spells (.items [v]) (before ++ ts ++ after)
  | item {v : Value} {xs : List Value} {before ts after ts' : List Token}
      (hbefore : IsLayout before)
      (h : Spells (.value v) ts) (hafter : IsLayout after) (h' : Spells (.items xs) ts') :
      Spells (.items (v :: xs)) (before ++ ts ++ after ++ .mark ',' :: ts')
  | emptyTable {gap : List Token} (h : Gap gap) :
      Spells (.value (.table .braces [])) (.mark '\x7b' :: (gap ++ [.mark '\x7d']))
  | table {es : List Entry} {gap ts : List Token} (hgap : Gap gap) (h : Spells (.entries es) ts)
      (hapart : Apart es) :
      Spells (.value (.table .braces (tableOf es))) (.mark '\x7b' :: (gap ++ ts ++ [.mark '\x7d']))
  | entry {key : String} {path : List String} {v : Value} {t : Token}
      {ts before after ts' : List Token}
      (ht : IsKey t key) (hkey : KeyRest path ts) (hbefore : Gap before) (hafter : Gap after)
      (h : Spells (.value v) ts') :
      Spells (.entry ⟨key, path, v⟩) (t :: (ts ++ (before ++ .mark '=' :: (after ++ ts'))))
  | lastEntry {e : Entry} {ts gap : List Token} (h : Spells (.entry e) ts) (hgap : Gap gap) :
      Spells (.entries [e]) (ts ++ gap)
  | entries {e : Entry} {es : List Entry} {ts before after ts' : List Token}
      (h : Spells (.entry e) ts)
      (hbefore : Gap before) (hafter : Gap after) (h' : Spells (.entries es) ts') :
      Spells (.entries (e :: es)) (ts ++ before ++ .mark ',' :: (after ++ ts'))

/-! ## Reading -/

/-- What it means that tokens are read as a phrase. The clauses are what the reader does at each
place: a value goes as far as it can, items and entries end at their bracket, and entries are put
into the table that is there so far. An entry is kept in its parts, as the reader has no function of
its own for it. -/
def Reads : Phrase → List Token → Prop
  | .value v, ts =>
    ∀ fuel rest, 2 * ts.length ≤ fuel → Follows rest → value? fuel (ts ++ rest) = some (v, rest)
  | .items xs, ts =>
    ∀ fuel rest, 2 * ts.length + 1 ≤ fuel → items? fuel (ts ++ .mark ']' :: rest) = some (xs, rest)
  | .entry e, ts =>
    ∃ t key before after ts', IsKey t e.key ∧ KeyRest e.path key ∧ Gap before ∧ Gap after ∧
      ts = t :: (key ++ (before ++ .mark '=' :: (after ++ ts'))) ∧ Spells (.value e.value) ts' ∧
      ∀ fuel rest, 2 * ts'.length ≤ fuel → Follows rest →
        value? fuel (ts' ++ rest) = some (e.value, rest)
  | .entries es, ts =>
    ∀ fuel done pairs rest, 2 * ts.length + 1 ≤ fuel → insertAll es done = some pairs →
      pairs? fuel done (ts ++ .mark '\x7d' :: rest) = some (pairs, rest)

section

variable {ts ts' rest gap before after : List Token} {t : Token} {v : Value} {xs : List Value}
  {e : Entry} {es : List Entry} {fuel : ℕ}

/-- A value begins with a token that neither lays out nor closes anything. So the layout in front of
it is skipped up to it, and an array that has an item is not taken for an empty one. -/
theorem Spells.head (h : Spells (.value v) ts) :
    ∃ t more, ts = t :: more ∧ isLayout t = false ∧ t ≠ .mark ']' := by
  cases h with
  | array => exact ⟨_, _, rfl, rfl, by decide⟩
  | emptyTable => exact ⟨_, _, rfl, rfl, by decide⟩
  | table => exact ⟨_, _, rfl, rfl, by decide⟩
  | positive => exact ⟨_, _, rfl, rfl, by decide⟩
  | _ => exact ⟨_, _, rfl, rfl, by simp⟩

theorem Spells.entry_head (h : Spells (.entry e) ts) :
    ∃ t more, ts = t :: more ∧ IsKey t e.key := by
  cases h with
  | entry ht => exact ⟨_, _, rfl, ht⟩

/-- Entries begin with a key. This tells a table with entries from an empty one. -/
theorem Spells.entries_head (h : Spells (.entries es) ts) :
    ∃ t more name, ts = t :: more ∧ IsKey t name := by
  cases h with
  | lastEntry h =>
    obtain ⟨t, more, rfl, ht⟩ := h.entry_head
    exact ⟨t, _, _, rfl, ht⟩
  | entries h =>
    obtain ⟨t, more, rfl, ht⟩ := h.entry_head
    exact ⟨t, _, _, by simp only [List.cons_append]; rfl, ht⟩

/-- Layout is skipped as far as it goes. What is behind it must not be layout itself, or that would
be skipped too. -/
theorem skipLayout_append (h : IsLayout before)
    (hrest : ∀ t, rest.head? = some t → isLayout t = false) :
    skipLayout (before ++ rest) = rest := by
  unfold skipLayout
  rw [List.dropWhile_append_of_pos h]
  cases rest with
  | nil => rfl
  | cons t rest => simp [hrest t rfl]

theorem IsKey.not_isLayout {name : String} (h : IsKey t name) : isLayout t = false := by
  cases h <;> rfl

/-- Tokens that a value ends before, whatever the value is. -/
def closers : List Token := [.newline, .comment, .mark ',', .mark ']', .mark '\x7d']

theorem ne_mark_of_isLayout (h : isLayout t = true) (c : Char) : t ≠ .mark c := by
  intro heq
  subst heq
  cases h

/-- Layout and a closing token end whatever value stands before them. Values of every kind are read
in front of such tokens; a blank goes on with a value only where a date has its time behind it, and
that begins with a word. -/
theorem Follows.of_layout (h : IsLayout before) (hrest : ∀ t, rest.head? = some t → t ∈ closers) :
    Follows (before ++ rest) := by
  have hcloser : ∀ t ∈ closers, t ≠ .mark '.' ∧ t ≠ .mark ':' ∧ t ≠ .mark '+' := by decide
  constructor
  · intro t ht
    cases before with
    | nil => exact hcloser t (hrest t ht)
    | cons first before =>
      have hlayout : isLayout t = true := by
        rw [← Option.some.inj ht]
        exact h first List.mem_cons_self
      exact ⟨ne_mark_of_isLayout hlayout _, ne_mark_of_isLayout hlayout _,
        ne_mark_of_isLayout hlayout _⟩
  · intro blank word more heq
    match before, h, heq with
    | [], _, heq =>
      have hmem := hrest (.blank blank) (by rw [← List.nil_append rest, heq]; rfl)
      simp [closers] at hmem
    | [first], _, heq =>
      -- A blank that a word follows: the word would have to close something.
      have htail : rest = .word word :: more := (List.cons.inj heq).2
      have hmem := hrest (.word word) (by rw [htail]; rfl)
      simp [closers] at hmem
    | first :: second :: before, h, heq =>
      have hsecond : second = .word word := (List.cons.inj (List.cons.inj heq).2).1
      have hlayout := h second (by simp)
      rw [hsecond] at hlayout
      cases hlayout

theorem Gap.isLayout (h : Gap gap) : IsLayout gap := by
  cases h with
  | none => intro t ht; cases ht
  | blank cs =>
    intro t ht
    rw [List.mem_singleton.mp ht]
    rfl

/-! Each way to write a phrase is read, given that its parts are. -/

/-- A level of the reader's fuel, and enough left for what is inside. -/
theorem exists_fuel (fuel n : ℕ) (h : n + 1 ≤ fuel) : ∃ less, fuel = less + 1 ∧ n ≤ less :=
  ⟨fuel - 1, by omega, by omega⟩

theorem reads_text (cs : List Char) (multiline : Bool) :
    Reads (.value (.string (String.ofList cs))) [.text cs multiline] := by
  intro fuel rest hfuel hrest
  obtain ⟨fuel, rfl, -⟩ := exists_fuel fuel 0 (by simp at hfuel; omega)
  rw [List.singleton_append, value?]

/-- A truth value is a word of its own. The two differ in the word only. -/
theorem reads_truth {cs : List Char} {b : Bool}
    (h : ∀ rest, wordValue? cs rest = some (.boolean b, rest)) :
    Reads (.value (.boolean b)) [.word cs] := by
  intro fuel rest hfuel hrest
  obtain ⟨fuel, rfl, -⟩ := exists_fuel fuel 0 (by simp at hfuel; omega)
  rw [List.singleton_append, value?, h]

theorem reads_number {sign : Sign} {cs : List Char} (h : Numeral sign v cs ts) :
    Reads (.value v) (.word (signed sign cs) :: ts) := by
  intro fuel rest hfuel hrest
  obtain ⟨fuel, rfl, -⟩ := exists_fuel fuel 0 (by simp at hfuel; omega)
  rw [List.cons_append, value?]
  exact wordValue?_of_numeral h hrest

/-- A plus sign is a token of its own, and only a number may stand behind it. -/
theorem reads_positive {cs : List Char} (h : Numeral .plus v cs ts) :
    Reads (.value v) (.mark '+' :: .word cs :: ts) := by
  intro fuel rest hfuel hrest
  obtain ⟨fuel, rfl, -⟩ := exists_fuel fuel 0 (by simp at hfuel; omega)
  rw [List.cons_append, List.cons_append, value?]
  exact number?_of_numeral h hrest

theorem reads_date {cs : List Char} (h : DateText cs ts) :
    Reads (.value .date) (.word cs :: ts) := by
  intro fuel rest hfuel hrest
  obtain ⟨fuel, rfl, -⟩ := exists_fuel fuel 0 (by simp at hfuel; omega)
  rw [List.cons_append, value?]
  exact wordValue?_of_dateText h hrest

theorem reads_array (h : Reads (.items xs) ts) :
    Reads (.value (.array xs)) (.mark '[' :: (ts ++ [.mark ']'])) := by
  intro fuel rest hfuel hrest
  simp only [List.length_cons, List.length_append, List.length_nil] at hfuel
  obtain ⟨fuel, rfl, hless⟩ := exists_fuel fuel (2 * ts.length + 1) (by omega)
  have hitems := h fuel rest hless
  rw [List.cons_append, List.append_assoc, List.singleton_append, value?, hitems]
  rfl

theorem reads_noItems (h : IsLayout ts) : Reads (.items []) ts := by
  intro fuel rest hfuel
  obtain ⟨fuel, rfl, -⟩ := exists_fuel fuel _ hfuel
  have hskip : skipLayout (ts ++ .mark ']' :: rest) = .mark ']' :: rest :=
    skipLayout_append h (by intro t ht; cases ht; rfl)
  rw [items?, hskip]
  rfl

/-- One step of reading an array: before an item layout is skipped, and what stands behind it
decides whether more are to come. The last item and the others are both read through this. -/
theorem items?_append (hbefore : IsLayout before) (hvalue : Spells (.value v) ts) :
    items? (fuel + 1) (before ++ (ts ++ rest)) =
      match value? fuel (ts ++ rest) with
      | none => none
      | some (x, ts) =>
        match skipLayout ts with
        | .mark ']' :: ts => some ([x], ts)
        | .mark ',' :: ts => (items? fuel ts).map fun (xs, ts) => (x :: xs, ts)
        | _ => none := by
  -- The reader looks for the closing bracket first; no value begins with it.
  obtain ⟨t, more, rfl, hlayout, hclose⟩ := hvalue.head
  have hskip : skipLayout (before ++ (t :: more ++ rest)) = t :: more ++ rest :=
    skipLayout_append hbefore (by intro t ht; cases ht; exact hlayout)
  rw [items?, hskip]
  split
  next heq => exact absurd (List.cons.inj heq).1 hclose
  next => rfl

theorem reads_lastItem (hbefore : IsLayout before) (hvalue : Spells (.value v) ts)
    (hafter : IsLayout after) (h : Reads (.value v) ts) :
    Reads (.items [v]) (before ++ ts ++ after) := by
  intro fuel rest hfuel
  simp only [List.length_append] at hfuel
  obtain ⟨fuel, rfl, hless⟩ := exists_fuel fuel (2 * ts.length) (by omega)
  have hfollows : Follows (after ++ .mark ']' :: rest) :=
    Follows.of_layout hafter (by intro t ht; cases ht; decide)
  have hskip : skipLayout (after ++ .mark ']' :: rest) = .mark ']' :: rest :=
    skipLayout_append hafter (by intro t ht; cases ht; rfl)
  rw [List.append_assoc, List.append_assoc, items?_append hbefore hvalue, h fuel _ hless hfollows]
  simp only [hskip]

/-- Another item may follow, or nothing, so a comma after the last item needs no rule of its own: it
is one before no items. -/
theorem reads_item (hbefore : IsLayout before) (hvalue : Spells (.value v) ts)
    (hafter : IsLayout after) (h : Reads (.value v) ts) (h' : Reads (.items xs) ts') :
    Reads (.items (v :: xs)) (before ++ ts ++ after ++ .mark ',' :: ts') := by
  intro fuel rest hfuel
  simp only [List.length_append, List.length_cons] at hfuel
  obtain ⟨fuel, rfl, hless⟩ := exists_fuel fuel (2 * (ts.length + ts'.length + 1)) (by omega)
  let next := ts' ++ .mark ']' :: rest
  have hfollows : Follows (after ++ .mark ',' :: next) :=
    Follows.of_layout hafter (by intro t ht; cases ht; decide)
  have hskip : skipLayout (after ++ .mark ',' :: next) = .mark ',' :: next :=
    skipLayout_append hafter (by intro t ht; cases ht; rfl)
  have hnext : items? fuel next = some (xs, rest) := h' fuel rest (by omega)
  have hshape : before ++ ts ++ after ++ .mark ',' :: ts' ++ .mark ']' :: rest =
      before ++ (ts ++ (after ++ .mark ',' :: next)) := by simp [next]
  rw [hshape, items?_append hbefore hvalue, h fuel _ (by omega) hfollows]
  simp only [hskip, hnext]
  rfl

theorem reads_emptyTable (h : Gap gap) :
    Reads (.value (.table .braces [])) (.mark '\x7b' :: (gap ++ [.mark '\x7d'])) := by
  intro fuel rest hfuel hrest
  simp only [List.length_append, List.length_cons] at hfuel
  obtain ⟨fuel, rfl, -⟩ := exists_fuel fuel 0 (by omega)
  have hskip : skipBlank (gap ++ .mark '\x7d' :: rest) = .mark '\x7d' :: rest :=
    h.skipBlank (by intro cs heq; cases heq)
  rw [List.cons_append, List.append_assoc, List.singleton_append, value?, hskip]
  rfl

/-- A table in braces is the table that its entries make. They have to be apart, or one of them
would be refused. -/
theorem reads_table (hgap : Gap gap) (hentries : Spells (.entries es) ts) (hapart : Apart es)
    (h : Reads (.entries es) ts) :
    Reads (.value (.table .braces (tableOf es)))
      (.mark '\x7b' :: (gap ++ ts ++ [.mark '\x7d'])) := by
  intro fuel rest hfuel hrest
  simp only [List.length_append, List.length_cons] at hfuel
  obtain ⟨fuel, rfl, hless⟩ := exists_fuel fuel (2 * ts.length + 1) (by omega)
  obtain ⟨t, more, name, rfl, ht⟩ := hentries.entries_head
  have hskip : skipBlank (gap ++ (t :: more ++ .mark '\x7d' :: rest)) =
      t :: more ++ .mark '\x7d' :: rest :=
    hgap.skipBlank fun cs heq => ht.ne_blank cs (Option.some.inj heq)
  have hshape : .mark '\x7b' :: (gap ++ (t :: more) ++ [.mark '\x7d']) ++ rest =
      .mark '\x7b' :: (gap ++ (t :: more ++ .mark '\x7d' :: rest)) := by simp
  have hpairs := h fuel [] (tableOf es) rest hless (insertAll_eq_tableOf hapart)
  rw [hshape, value?, hskip]
  split
  next heq => exact absurd (List.cons.inj heq).1 (ht.ne_mark _)
  next =>
    rw [hpairs]
    rfl

theorem reads_entry {key : String} {path : List String} (ht : IsKey t key) (hkey : KeyRest path ts)
    (hbefore : Gap before) (hafter : Gap after) (hvalue : Spells (.value v) ts')
    (h : Reads (.value v) ts') :
    Reads (.entry ⟨key, path, v⟩) (t :: (ts ++ (before ++ .mark '=' :: (after ++ ts')))) :=
  ⟨t, ts, before, after, ts', ht, hkey, hbefore, hafter, rfl, hvalue, h⟩

/-- **An entry is read** up to its end: the key, the equals sign, and the value. Entries in braces
and lines of a document are both read in these three steps, with the value last, so that it is up to
whoever reads on how much fuel is left for it. -/
theorem entry_eq (h : Reads (.entry e) ts) (hrest : Follows rest) :
    ∃ equals ts', path? (ts ++ rest) = some ((e.key, e.path), equals) ∧
      equals? equals = some (ts' ++ rest) ∧ ts'.length + 2 ≤ ts.length ∧
      ∀ fuel, 2 * ts'.length ≤ fuel → value? fuel (ts' ++ rest) = some (e.value, rest) := by
  obtain ⟨t, key, before, after, ts', ht, hkey, hbefore, hafter, rfl, hvalue, hread⟩ := h
  obtain ⟨first, more, rfl, hlayout, -⟩ := hvalue.head
  let equals := .mark '=' :: (after ++ (first :: more ++ rest))
  have hpath : path? (t :: (key ++ (before ++ equals))) = some ((e.key, e.path), equals) :=
    path?_of_keyRest ht hkey hbefore (by intro t ht; cases ht; simp)
  have hequals : equals? equals = some (first :: more ++ rest) := by
    have hskip : skipBlank (after ++ (first :: more ++ rest)) = first :: more ++ rest := by
      apply hafter.skipBlank
      intro cs heq
      cases heq
      cases hlayout
    rw [equals?, hskip]
  refine ⟨equals, first :: more, ?_, hequals, ?_, fun fuel hfuel => hread fuel rest hfuel hrest⟩
  · rw [← hpath]
    simp [equals]
  · simp only [List.length_cons, List.length_append]
    omega

theorem reads_lastEntry (h : Reads (.entry e) ts) (hgap : Gap gap) :
    Reads (.entries [e]) (ts ++ gap) := by
  intro fuel done pairs rest hfuel hinsert
  rw [List.length_append] at hfuel
  obtain ⟨fuel, rfl, hless⟩ := exists_fuel fuel (2 * ts.length) (by omega)
  have hfollows : Follows (gap ++ .mark '\x7d' :: rest) :=
    Follows.of_layout hgap.isLayout (by intro t ht; cases ht; decide)
  have hskip : skipBlank (gap ++ .mark '\x7d' :: rest) = .mark '\x7d' :: rest :=
    hgap.skipBlank (by intro cs heq; cases heq)
  obtain ⟨equals, ts₁, hpath, hequals, hlength, hvalue⟩ := entry_eq h hfollows
  rw [insertAll_singleton] at hinsert
  rw [List.append_assoc, pairs?, hpath]
  simp only [hequals, Option.bind_some, hvalue fuel (by omega), hinsert, hskip]

/-- A comma, and the entries behind it go into the table that the first one has left. -/
theorem reads_entries (h : Reads (.entry e) ts) (hbefore : Gap before) (hafter : Gap after)
    (hentries : Spells (.entries es) ts') (h' : Reads (.entries es) ts') :
    Reads (.entries (e :: es)) (ts ++ before ++ .mark ',' :: (after ++ ts')) := by
  intro fuel done pairs rest hfuel hinsert
  simp only [List.length_append, List.length_cons] at hfuel
  obtain ⟨fuel, rfl, hless⟩ := exists_fuel fuel (2 * (ts.length + ts'.length + 1)) (by omega)
  let next := ts' ++ .mark '\x7d' :: rest
  have hfollows : Follows (before ++ .mark ',' :: (after ++ next)) :=
    Follows.of_layout hbefore.isLayout (by intro t ht; cases ht; decide)
  have hskip : skipBlank (before ++ .mark ',' :: (after ++ next)) = .mark ',' :: (after ++ next) :=
    hbefore.skipBlank (by intro cs heq; cases heq)
  have hskip' : skipBlank (after ++ next) = next := by
    obtain ⟨t, more, name, rfl, ht⟩ := hentries.entries_head
    exact hafter.skipBlank fun cs heq => ht.ne_blank cs (Option.some.inj heq)
  have hshape : ts ++ before ++ .mark ',' :: (after ++ ts') ++ .mark '\x7d' :: rest =
      ts ++ (before ++ .mark ',' :: (after ++ next)) := by simp [next]
  obtain ⟨equals, ts₁, hpath, hequals, hlength, hvalue⟩ := entry_eq h hfollows
  rw [insertAll_cons] at hinsert
  obtain ⟨between, hbetween, hinsert⟩ := Option.bind_eq_some_iff.mp hinsert
  have hnext : pairs? fuel between next = some (pairs, rest) :=
    h' fuel between pairs rest (by omega) hinsert
  rw [hshape, pairs?, hpath]
  simp only [hequals, Option.bind_some, hvalue fuel (by omega), hbetween, hskip, hskip', hnext]

/-- **What is written by the grammar is read as what it was written for.** The induction is on the
grammar, and each rule is one of the lemmas above. -/
theorem Spells.reads {p : Phrase} (h : Spells p ts) : Reads p ts := by
  induction h with
  | text cs multiline => exact reads_text cs multiline
  | yes => exact reads_truth fun _ => rfl
  | no => exact reads_truth fun _ => rfl
  | number h => exact reads_number h
  | positive h => exact reads_positive h
  | date h => exact reads_date h
  | array _ ih => exact reads_array ih
  | noItems h => exact reads_noItems h
  | lastItem hbefore h hafter ih => exact reads_lastItem hbefore h hafter ih
  | item hbefore h hafter _ ih ih' => exact reads_item hbefore h hafter ih ih'
  | emptyTable h => exact reads_emptyTable h
  | table hgap h hapart ih => exact reads_table hgap h hapart ih
  | entry ht hkey hbefore hafter h ih => exact reads_entry ht hkey hbefore hafter h ih
  | lastEntry _ hgap ih => exact reads_lastEntry ih hgap
  | entries _ hbefore hafter h ih ih' => exact reads_entries ih hbefore hafter h ih'

end

end Toml
end Beamline
