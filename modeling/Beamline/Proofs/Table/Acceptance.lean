import Beamline.Proofs.Csv.Scan
import Beamline.Proofs.Table.Records

/-!
# Acceptance — which tables are distributions, and what the others are blamed for

`WellFormed` says what a record must be, as a reader of the format would say it: text, as long as
the header row, under a header that names both needed columns once, with a number in each. The
reader never asks that question. It goes through fields one by one, keeps a draft and stops at the
first thing that is wrong with it; that the two come to the same is `wellFormed_iff`.

From there a table is accepted when all its records are well-formed, and otherwise the first that is
not is reported by its number, whatever stands after it.
-/

set_option autoImplicit false

namespace Beamline
namespace Table

/-- The names in the header row of a table: its fields as text, trimmed. A table without any row has
no names, and lacks both columns; one whose header row is no text has no `HeaderNames`, and is
refused before any of what follows. -/
inductive HeaderNames (bytes : List UInt8) : List (List Char) → Prop
  | absent (h : Csv.records bytes = []) : HeaderNames bytes []
  | row {header : Csv.Record} {rest : List Csv.Record} {names : List (List Char)}
      (h : Csv.records bytes = header :: rest) (hnames : List.Forall₂ Holds header.fields names) :
      HeaderNames bytes names

/-- The records under the header row. -/
def body (bytes : List UInt8) : List Csv.Record := (Csv.records bytes).tail

/-- What a record must be, under a header row with these names. -/
structure WellFormed (names : List (List Char)) (r : Csv.Record) : Prop where
  text : ∀ field ∈ r.fields, ∃ cs, Utf8.decode field = .ok cs
  length : r.fields.length = names.length
  once : ∀ c : Column, names.count c.name.toList = 1
  number : ∀ (c : Column) (i : Nat), names[i]? = some c.name.toList →
    ∃ field cell x, r.fields[i]? = some field ∧ Holds field cell ∧ Binary64.parse? cell = some x

/-! ## Layouts and names -/

def layoutOf (names : List (List Char)) : Layout := names.map Column.ofCell?

/-- A column is needed if it has one of the two names, exactly. Which column a name is for is
settled here, and names are compared as texts from then on. -/
theorem ofCell?_eq_some_iff {cell : List Char} {c : Column} :
    Column.ofCell? cell = some c ↔ cell = c.name.toList := by
  have hdistinct : Column.dt.name.toList ≠ Column.p.name.toList := by decide
  unfold Column.ofCell? Column.all
  constructor
  · intro h
    have hfound := List.find?_some h
    exact (of_decide_eq_true hfound).symm
  · rintro rfl
    cases c with
    | dt => simp
    | p => simp [hdistinct]

/-- The layout is the columns that the names stand for, in the order of the names. -/
theorem layout_eq {bytes : List UInt8} {names : List (List Char)} (h : HeaderNames bytes names) :
    layout (Csv.records bytes).head? = .ok (layoutOf names) := by
  cases h with
  | absent h =>
    rw [h]
    rfl
  | row h hnames =>
    obtain ⟨raw, hraw, rfl⟩ := forall₂_exists_iff.mp hnames
    rw [h]
    refine bind_eq_ok_iff.mpr ⟨raw, decodeFields_eq_ok_iff.mpr hraw, ?_⟩
    rw [layoutOf, List.map_map]
    rfl

theorem contains_layoutOf {names : List (List Char)} {c : Column} :
    (layoutOf names).contains (some c) = true ↔ c.name.toList ∈ names := by
  rw [List.contains_iff_mem, layoutOf, List.mem_map]
  simp [ofCell?_eq_some_iff]

theorem contains_layoutOf_eq_false {names : List (List Char)} {c : Column}
    (h : c.name.toList ∉ names) : (layoutOf names).contains (some c) = false :=
  Bool.eq_false_iff.mpr (contains_layoutOf.not.mpr h)

/-- The first of the two columns is looked for first, whether or not the other is there. -/
theorem absent?_of_no_dt {names : List (List Char)} (h : Column.dt.name.toList ∉ names) :
    absent? (layoutOf names) = some .dt := by
  unfold absent? Column.all
  rw [List.find?_cons_of_pos]
  rw [contains_layoutOf_eq_false h]
  rfl

theorem absent?_of_no_p {names : List (List Char)} (h : Column.dt.name.toList ∈ names)
    (h' : Column.p.name.toList ∉ names) : absent? (layoutOf names) = some .p := by
  unfold absent? Column.all
  rw [List.find?_cons_of_neg, List.find?_cons_of_pos]
  · rw [contains_layoutOf_eq_false h']
    rfl
  · rw [contains_layoutOf.mpr h]
    decide

theorem absent?_of_both {names : List (List Char)} (h : ∀ c : Column, c.name.toList ∈ names) :
    absent? (layoutOf names) = none := by
  unfold absent?
  rw [List.find?_eq_none]
  intro c _
  rw [contains_layoutOf.mpr (h c)]
  decide

/-! ## Columns and names -/

/-- A column has no cell exactly when it is not named. Counting names is how the format says it, and
going through the cells is how the reader finds out. -/
theorem inColumn_eq_nil_iff {c : Column} {names texts : List (List Char)}
    (hlen : texts.length = names.length) :
    inColumn c (layoutOf names) texts = [] ↔ names.count c.name.toList = 0 := by
  induction names generalizing texts with
  | nil =>
    obtain rfl := List.eq_nil_of_length_eq_zero hlen
    exact ⟨fun _ => rfl, fun _ => rfl⟩
  | cons n names ih =>
    obtain ⟨cell, texts, rfl⟩ := List.exists_cons_of_length_eq_add_one hlen
    by_cases h : n = c.name.toList
    · rw [layoutOf, List.map_cons, ofCell?_eq_some_iff.mpr h, inColumn_cons_self]
      simp [h]
    · rw [layoutOf, List.map_cons, inColumn_cons_ne (mt ofCell?_eq_some_iff.mp h),
        List.count_cons_of_ne h]
      exact ih (Nat.succ.inj hlen)

theorem mem_inColumn {c : Column} {names texts : List (List Char)} {cell : List Char} {i : Nat}
    (hname : names[i]? = some c.name.toList) (hcell : texts[i]? = some cell) :
    cell ∈ inColumn c (layoutOf names) texts := by
  have hlayout : (layoutOf names)[i]? = some (some c) := by
    rw [layoutOf, List.getElem?_map, hname, Option.map_some, ofCell?_eq_some_iff.mpr rfl]
  have hpair : (some c, cell) ∈ (layoutOf names).zip texts :=
    List.mem_of_getElem? (List.getElem?_zip_eq_some.mpr ⟨hlayout, hcell⟩)
  exact List.mem_map.mpr ⟨_, List.mem_filter.mpr ⟨hpair, beq_self_eq_true _⟩, rfl⟩

/-- A column has one cell exactly when it is named once, and the cell is the one under the name. The
induction is on the names; a second column of the name is excluded by the count on one side, and by
there being no further cell on the other. -/
theorem inColumn_eq_singleton_iff {c : Column} {names texts : List (List Char)} {cell : List Char}
    (hlen : texts.length = names.length) :
    inColumn c (layoutOf names) texts = [cell] ↔
      names.count c.name.toList = 1 ∧ ∃ i : Nat, names[i]? = some c.name.toList ∧
        texts[i]? = some cell := by
  induction names generalizing texts with
  | nil =>
    obtain rfl := List.eq_nil_of_length_eq_zero hlen
    constructor
    · rintro ⟨⟩
    · rintro ⟨⟨⟩, -⟩
  | cons n names ih =>
    obtain ⟨cell₀, texts, rfl⟩ := List.exists_cons_of_length_eq_add_one hlen
    have hlen' : texts.length = names.length := Nat.succ.inj hlen
    by_cases h : n = c.name.toList
    · have hnil := inColumn_eq_nil_iff (c := c) hlen'
      rw [layoutOf, List.map_cons, ofCell?_eq_some_iff.mpr h, inColumn_cons_self, List.cons.injEq,
        ← layoutOf, hnil]
      subst h
      rw [List.count_cons_self, Nat.add_eq_right]
      constructor
      · rintro ⟨rfl, hcount⟩
        exact ⟨hcount, 0, rfl, rfl⟩
      · rintro ⟨hcount, i, hname, hcell⟩
        cases i with
        | zero => exact ⟨Option.some.inj hcell, hcount⟩
        | succ i =>
          -- Another column of the name would have counted.
          rw [List.getElem?_cons_succ] at hname
          have hmem := List.mem_of_getElem? hname
          exact absurd hmem (List.count_eq_zero.mp hcount)
    · rw [layoutOf, List.map_cons, inColumn_cons_ne (mt ofCell?_eq_some_iff.mp h),
        List.count_cons_of_ne h]
      rw [← layoutOf, ih hlen']
      refine and_congr_right fun _ => ⟨?_, ?_⟩
      · rintro ⟨i, hi⟩
        exact ⟨i + 1, hi⟩
      · rintro ⟨i, hname, hcell⟩
        cases i with
        | zero => exact absurd (Option.some.inj hname) h
        | succ i => exact ⟨i, hname, hcell⟩

/-! ## Records -/

/-- A field holds one cell only, so a cell can be spoken of by the field it is in. -/
theorem Holds.unique {field : List UInt8} {cell cell' : List Char} (h : Holds field cell)
    (h' : Holds field cell') : cell = cell' := by
  obtain ⟨cs, hcs, rfl⟩ := h
  obtain ⟨ds, hds, rfl⟩ := h'
  rw [hcs] at hds
  rw [Except.ok.inj hds]

theorem exists_holds {fields : List (List UInt8)}
    (h : ∀ field ∈ fields, ∃ cs, Utf8.decode field = .ok cs) :
    ∃ texts, List.Forall₂ Holds fields texts := by
  induction fields with
  | nil => exact ⟨[], .nil⟩
  | cons field fields ih =>
    obtain ⟨cs, hcs⟩ := h field List.mem_cons_self
    obtain ⟨texts, htexts⟩ := ih fun f hf => h f (List.mem_cons_of_mem field hf)
    exact ⟨Text.trim cs :: texts, .cons ⟨cs, hcs, rfl⟩ htexts⟩

theorem exists_particles {name : String} {l : Layout} {rs : List Csv.Record}
    (h : ∀ r ∈ rs, ∃ q, particle name l r = .ok q) :
    ∃ qs, List.Forall₂ (fun r q => particle name l r = .ok q) rs qs := by
  induction rs with
  | nil => exact ⟨[], .nil⟩
  | cons r rs ih =>
    obtain ⟨q, hq⟩ := h r List.mem_cons_self
    obtain ⟨qs, hqs⟩ := ih fun r' hr' => h r' (List.mem_cons_of_mem r hr')
    exact ⟨q :: qs, .cons hq hqs⟩

theorem exists_getElem?_of_forall₂ {α β : Type} {R : α → β → Prop} {as : List α} {bs : List β}
    (h : List.Forall₂ R as bs) {i : Nat} {b : β} (hb : bs[i]? = some b) :
    ∃ a, as[i]? = some a ∧ R a b := by
  induction h generalizing i with
  | nil => cases hb
  | cons hone _ ih =>
    cases i with
    | zero =>
      cases hb
      exact ⟨_, rfl, hone⟩
    | succ i => exact ih hb

/-- **The reader finds a particle exactly in the records that are well-formed.** -/
theorem wellFormed_iff {name : String} {names : List (List Char)} {r : Csv.Record} :
    WellFormed names r ↔ ∃ q, particle name (layoutOf names) r = .ok q := by
  have hlayout : (layoutOf names).length = names.length := List.length_map _
  simp only [particle_eq_ok_iff, hlayout]
  constructor
  · rintro ⟨htext, hlen, honce, hnumber⟩
    obtain ⟨texts, htexts⟩ := exists_holds htext
    have hlen' : texts.length = names.length := htexts.length_eq.symm.trans hlen
    -- A name stands somewhere, and the number under it is the only cell of its column.
    have hcolumn : ∀ c, ∃ cell x, inColumn c (layoutOf names) texts = [cell] ∧
        Binary64.parse? cell = some x := by
      intro c
      have hmem : c.name.toList ∈ names := by
        refine List.count_pos_iff.mp ?_
        rw [honce c]
        exact Nat.one_pos
      obtain ⟨i, hi⟩ := List.mem_iff_getElem?.mp hmem
      obtain ⟨field, cell, x, hfield, hcell, hx⟩ := hnumber c i hi
      obtain ⟨cell', hcell', hholds⟩ := exists_getElem?_of_forall₂ htexts.flip hfield
      rw [Holds.unique hholds hcell] at hcell'
      exact ⟨cell, x, (inColumn_eq_singleton_iff hlen').mpr ⟨honce c, i, hi, hcell'⟩, hx⟩
    obtain ⟨dtCell, dt, hdt, hdt'⟩ := hcolumn .dt
    obtain ⟨pCell, p, hp, hp'⟩ := hcolumn .p
    refine ⟨⟨dt, p⟩, hlen, texts, htexts, fun c => ?_⟩
    cases c with
    | dt => exact ⟨dtCell, hdt, hdt'⟩
    | p => exact ⟨pCell, hp, hp'⟩
  · rintro ⟨q, hlen, texts, htexts, hcolumns⟩
    have hlen' : texts.length = names.length := htexts.length_eq.symm.trans hlen
    refine ⟨fun field hfield => ?_, hlen, fun c => ?_, fun c i hi => ?_⟩
    · obtain ⟨i, hi⟩ := List.mem_iff_getElem?.mp hfield
      obtain ⟨cell, -, cs, hcs, -⟩ := exists_getElem?_of_forall₂ htexts.flip hi
      exact ⟨cs, hcs⟩
    · obtain ⟨cell, hcell, -⟩ := hcolumns c
      exact ((inColumn_eq_singleton_iff hlen').mp hcell).1
    · obtain ⟨cell, hcell, hx⟩ := hcolumns c
      have hi' : i < texts.length := hlen' ▸ (List.getElem?_eq_some_iff.mp hi).1
      have hsome : texts[i]? = some texts[i] := List.getElem?_eq_getElem hi'
      have hmem := mem_inColumn hi hsome
      rw [hcell, List.mem_singleton] at hmem
      rw [hmem] at hsome
      obtain ⟨field, hfield, hholds⟩ := exists_getElem?_of_forall₂ htexts hsome
      exact ⟨field, cell, valueOf q c, hfield, hholds, hx⟩

/-! ## Tables -/

section

variable {name : String} {bytes : List UInt8} {names : List (List Char)}

/-- What is left once the header row names both columns: the records in turn. -/
theorem ofTable_eq (h : HeaderNames bytes names) (hboth : ∀ c : Column, c.name.toList ∈ names) :
    Distribution.ofTable name bytes =
      (particles name (layoutOf names) 1 (body bytes)).map fun qs => ⟨name, qs⟩ := by
  have hlayout : Outcome.during .readHeaderRow (layout (Csv.records bytes).head?) =
      .ok (layoutOf names) := by
    rw [layout_eq h]
    rfl
  unfold Distribution.ofTable
  dsimp only
  rw [hlayout, ok_bind, absent?_of_both hboth]
  dsimp only
  rw [← body]
  cases particles name (layoutOf names) 1 (body bytes) <;> rfl

theorem missingColumn_message (name column : String) :
    (Failure.of (.missingColumn name column)).message =
      "Distribution " ++ name ++ (" has no " ++ column ++ " column") := by
  unfold Failure.message Failure.parts Failure.words?
  simp [Failure.of, Cause.text?, String.append_assoc]
  rfl

/-- The first needed column that the header row lacks is what the table fails for. No record is
looked at, so this holds whatever they are. -/
theorem ofTable_of_absent (h : HeaderNames bytes names) {c : Column}
    (hc : absent? (layoutOf names) = some c) :
    Distribution.ofTable name bytes = .error (Failure.of (.missingColumn name c.name)) := by
  have hlayout : Outcome.during .readHeaderRow (layout (Csv.records bytes).head?) =
      .ok (layoutOf names) := by
    rw [layout_eq h]
    rfl
  unfold Distribution.ofTable
  dsimp only
  rw [hlayout, ok_bind, hc]
  rfl

/-- The distribution of an accepted table has the particles of its records, in their order, one for
each. -/
theorem ofTable_eq_ok_iff (h : HeaderNames bytes names)
    (hboth : ∀ c : Column, c.name.toList ∈ names) {d : Distribution Binary64} :
    Distribution.ofTable name bytes = .ok d ↔ d.name = name ∧
      List.Forall₂ (fun r q => particle name (layoutOf names) r = .ok q)
        (body bytes) d.particles := by
  rw [ofTable_eq h hboth, map_eq_ok_iff, ← particles_eq_ok_iff]
  constructor
  · rintro ⟨qs, hqs, rfl⟩
    exact ⟨rfl, hqs⟩
  · rintro ⟨rfl, hqs⟩
    exact ⟨d.particles, hqs, rfl⟩

/-- Another table with the same first records has the same header row. The count is of records, so
the header row is among them. -/
theorem HeaderNames.congr {bytes' : List UInt8} {n : Nat} (h : HeaderNames bytes names)
    (hsame : (Csv.records bytes').take (n + 1) = (Csv.records bytes).take (n + 1)) :
    HeaderNames bytes' names := by
  cases h with
  | absent h =>
    rw [h, List.take_nil, List.take_eq_nil_iff] at hsame
    exact .absent (hsame.resolve_left (Nat.succ_ne_zero n))
  | @row header rest _ h hnames =>
    rw [h, List.take_succ_cons] at hsame
    cases hrecords : Csv.records bytes' with
    | nil =>
      rw [hrecords] at hsame
      cases hsame
    | cons header' rest' =>
      rw [hrecords, List.take_succ_cons, List.cons.injEq] at hsame
      exact .row hrecords (hsame.1 ▸ hnames)

theorem body_take {n : Nat} {bytes' : List UInt8}
    (hsame : (Csv.records bytes').take (n + 1) = (Csv.records bytes).take (n + 1)) :
    (body bytes').take n = (body bytes).take n := by
  have htail : ∀ rows : List Csv.Record, rows.tail.take n = (rows.take (n + 1)).tail := by
    intro rows
    cases rows with
    | nil => exact List.take_nil
    | cons r rows => rfl
  rw [body, body, htail, htail, hsame]

/-- The first record that is not well-formed is the one the table fails for, with a failure that is
the same for all tables that agree up to there. Saying it of all of them at once is what makes the
failure depend on no later record. -/
theorem exists_ofTable_eq_error (h : HeaderNames bytes names)
    (hboth : ∀ c : Column, c.name.toList ∈ names) {k : Nat} {r : Csv.Record}
    (hr : (body bytes)[k]? = some r) (hbad : ¬ WellFormed names r)
    (hprior : ∀ r' ∈ (body bytes).take k, WellFormed names r') :
    ∃ f : Failure, f.headline = s!"Malformed record at row {k + 1}" ∧
      ∀ bytes', (Csv.records bytes').take (k + 2) = (Csv.records bytes).take (k + 2) →
        Distribution.ofTable name bytes' = .error f := by
  cases hparticle : particle name (layoutOf names) r with
  | ok q => exact absurd (wellFormed_iff.mpr ⟨q, hparticle⟩) hbad
  | error f =>
    refine ⟨f.during (.readRecord (1 + k)), ?_, fun bytes' hsame => ?_⟩
    · rw [Nat.add_comm k 1]
      rfl
    have hbody := body_take hsame
    have hr' : (body bytes')[k]? = some r := by
      rw [← List.getElem?_take_of_lt (Nat.lt_succ_self k), hbody,
        List.getElem?_take_of_lt (Nat.lt_succ_self k), hr]
    -- The records before the bad one are those of the first table, so they are good here too.
    have hprior' : ∀ r' ∈ (body bytes').take k, ∃ q, particle name (layoutOf names) r' = .ok q := by
      intro r' hmem
      have htake := congrArg (List.take k) hbody
      rw [List.take_take, List.take_take, Nat.min_eq_left (Nat.le_succ k)] at htake
      rw [htake] at hmem
      exact wellFormed_iff.mp (hprior r' hmem)
    rw [ofTable_eq (h.congr hsame) hboth, particles_eq_error hr' hparticle hprior']
    rfl

/-- **A table is a distribution exactly when it is well-formed, and the first record that is not is
blamed.** A missing column comes before everything else, whatever the records are; where both are
there, the records decide. The number of the bad record does not depend on what follows it, be that
other records or, once it has ended, any bytes at all. -/
theorem ofTable_accepts (h : HeaderNames bytes names) :
    ("dt".toList ∉ names → ∃ f, Distribution.ofTable name bytes = .error f ∧
      f.message = "Distribution " ++ name ++ " has no dt column") ∧
    ("dt".toList ∈ names → "p".toList ∉ names → ∃ f, Distribution.ofTable name bytes = .error f ∧
      f.message = "Distribution " ++ name ++ " has no p column") ∧
    ("dt".toList ∈ names → "p".toList ∈ names →
      ((∃ d, Distribution.ofTable name bytes = .ok d) ↔ ∀ r ∈ body bytes, WellFormed names r) ∧
      (∀ k r, (body bytes)[k]? = some r → ¬ WellFormed names r →
        (∀ r' ∈ (body bytes).take k, WellFormed names r') →
        ∃ f : Failure, f.headline = s!"Malformed record at row {k + 1}" ∧
          Distribution.ofTable name bytes = .error f ∧
          (∀ bytes', (Csv.records bytes').take (k + 2) = (Csv.records bytes).take (k + 2) →
            Distribution.ofTable name bytes' = .error f) ∧
          ∀ front back, bytes = front ++ back → k + 2 ≤ (Csv.ended front).length →
            ∀ back', Distribution.ofTable name (front ++ back') = .error f) ∧
      ∀ d, Distribution.ofTable name bytes = .ok d →
        d.dt.length = (body bytes).length ∧ d.p.length = (body bytes).length) := by
  refine ⟨fun hdt => ?_, fun hdt hp => ?_, fun hdt hp => ⟨?_, ?_, ?_⟩⟩
  · exact ⟨_, ofTable_of_absent h (absent?_of_no_dt hdt), missingColumn_message name _⟩
  · exact ⟨_, ofTable_of_absent h (absent?_of_no_p hdt hp), missingColumn_message name _⟩
  all_goals
    have hboth : ∀ c : Column, c.name.toList ∈ names := by
      intro c
      cases c with
      | dt => exact hdt
      | p => exact hp
  · constructor
    · rintro ⟨d, hd⟩ r hr
      obtain ⟨-, hparticles⟩ := (ofTable_eq_ok_iff h hboth).mp hd
      obtain ⟨i, hi⟩ := List.mem_iff_getElem?.mp hr
      obtain ⟨q, -, hq⟩ := exists_getElem?_of_forall₂ hparticles.flip hi
      exact wellFormed_iff.mpr ⟨q, hq⟩
    · intro hall
      obtain ⟨qs, hqs⟩ := exists_particles fun r hr => wellFormed_iff.mp (hall r hr)
      exact ⟨⟨name, qs⟩, (ofTable_eq_ok_iff h hboth).mpr ⟨rfl, hqs⟩⟩
  · intro k r hr hbad hprior
    obtain ⟨f, hheadline, hsame⟩ := exists_ofTable_eq_error h hboth hr hbad hprior
    refine ⟨f, hheadline, hsame bytes rfl, hsame, ?_⟩
    rintro front back rfl hended back'
    refine hsame _ ?_
    rw [Csv.take_records_append (Nat.succ_pos _) hended,
      Csv.take_records_append (Nat.succ_pos _) hended]
  · intro d hd
    obtain ⟨-, hparticles⟩ := (ofTable_eq_ok_iff h hboth).mp hd
    have hlen := hparticles.length_eq
    constructor
    · rw [hlen]
      exact List.length_map _
    · rw [hlen]
      exact List.length_map _

end

/-- Two records with an empty line between them, of which the second is bad: its momentum is no
number. -/
theorem ofTable_accepts_second_bad :
    let bytes : List UInt8 := [0x64, 0x74, 0x2C, 0x20, 0x70, 0x0D, 0x0A,
      0x6E, 0x61, 0x6E, 0x2C, 0x69, 0x6E, 0x66, 0x0D, 0x0A,
      0x0D, 0x0A, 0x31, 0x2C, 0x78, 0x0D, 0x0A]
    ∃ f : Failure, f.headline = "Malformed record at row 2" ∧
      Distribution.ofTable "x" bytes = .error f := by
  intro bytes
  have hrecords : Csv.records bytes =
      [⟨⟨0, 1, 0⟩, [[0x64, 0x74], [0x20, 0x70]]⟩,
        ⟨⟨1, 1, 6⟩, [[0x6E, 0x61, 0x6E], [0x69, 0x6E, 0x66]]⟩,
        ⟨⟨2, 2, 15⟩, [[0x31], [0x78]]⟩] := by
    rfl
  have hnames : HeaderNames bytes [['d', 't'], ['p']] :=
    .row hrecords (.cons ⟨_, rfl, rfl⟩ (.cons ⟨_, rfl, rfl⟩ .nil))
  have hgood : particle "x" (layoutOf [['d', 't'], ['p']])
      ⟨⟨1, 1, 6⟩, [[0x6E, 0x61, 0x6E], [0x69, 0x6E, 0x66]]⟩ = .ok ⟨.nan, .infinite .plus⟩ := rfl
  have hbad : ¬ WellFormed [['d', 't'], ['p']] ⟨⟨2, 2, 15⟩, [[0x31], [0x78]]⟩ := by
    intro h
    obtain ⟨field, cell, x, hfield, hcell, hx⟩ := h.number .p 1 rfl
    cases hfield
    obtain rfl := Holds.unique hcell ⟨_, rfl, rfl⟩
    cases hx
  have hprior : ∀ r ∈ (body bytes).take 1, WellFormed [['d', 't'], ['p']] r := by
    rw [body, hrecords]
    intro r hr
    obtain rfl := List.mem_singleton.mp hr
    exact wellFormed_iff.mpr ⟨_, hgood⟩
  obtain ⟨-, -, hbody⟩ := ofTable_accepts hnames
  obtain ⟨-, hblamed, -⟩ := hbody (by decide) (by decide)
  obtain ⟨f, hheadline, hf, -⟩ := hblamed 1 _ (by rw [body, hrecords]; rfl) hbad hprior
  exact ⟨f, hheadline, hf⟩

end Table
end Beamline
