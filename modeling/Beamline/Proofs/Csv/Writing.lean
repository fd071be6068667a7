import Beamline.Proofs.Csv.Scan

/-!
# Writing — every way of writing a table

`Rows` is the grammar of comma separated text, as a relation between the contents of cells and the
bytes they are written as. A cell is bare, with blanks around it, or quoted; rows end in line feeds
or carriage returns or both, the last one perhaps in nothing; empty lines stand anywhere.
`records_of_rows` says that whatever is written so is read back: as many records, as many fields in
each, and every field the content of its cell, with the blanks around it where it was bare.
-/

set_option autoImplicit false

namespace Beamline
namespace Csv

open Scan

/-! ## The grammar -/

/-- Blanks that may stand around a bare cell. -/
def Padding (bytes : List UInt8) : Prop := ∀ b ∈ bytes, b = 0x20 ∨ b = 0x09

instance (bytes : List UInt8) : Decidable (Padding bytes) :=
  List.decidableBAll (fun b => b = 0x20 ∨ b = 0x09) bytes

/-- Bytes of no meaning where they stand. -/
def BareText (bytes : List UInt8) : Prop := ∀ b ∈ bytes, Bare b

instance (bytes : List UInt8) : Decidable (BareText bytes) :=
  List.decidableBAll Bare bytes

/-- A content between quotes: a quote in it is doubled. -/
def doubled (content : List UInt8) : List UInt8 :=
  content.flatMap fun b => if b = quote then [quote, quote] else [b]

/-- A cell. It needs quotes if a comma or a line end is in it, or if a quote would come first. -/
inductive Cell (content : List UInt8) : List UInt8 → Prop
  | bare {front back : List UInt8} (hfront : Padding front) (hback : Padding back)
      (plain : BareText content) (start : (front ++ content ++ back).head? ≠ some quote) :
      Cell content (front ++ content ++ back)
  | quoted : Cell content (quote :: doubled content ++ [quote])

/-- A row: its cells, with commas between them. -/
inductive Row : List (List UInt8) → List UInt8 → Prop
  | last {content text : List UInt8} (h : Cell content text) : Row [content] text
  | cons {content text more : List UInt8} {contents : List (List UInt8)} (h : Cell content text)
      (rest : Row contents more) : Row (content :: contents) (text ++ comma :: more)

/-- Rows, one after another. A single empty cell needs quotes, since a row that is written as
nothing would be an empty line. -/
inductive Rows : List (List (List UInt8)) → List UInt8 → Prop
  | done : Rows [] []
  /-- An empty line, or the second byte of a line end that has two. -/
  | blank {b : UInt8} {rows : List (List (List UInt8))} {text : List UInt8}
      (hb : isLineEnd b = true) (rest : Rows rows text) : Rows rows (b :: text)
  /-- The last row needs no line end. -/
  | last {contents : List (List UInt8)} {text : List UInt8} (h : Row contents text)
      (hne : text ≠ []) : Rows [contents] text
  | cons {contents : List (List UInt8)} {text more : List UInt8} {b : UInt8}
      {rows : List (List (List UInt8))} (h : Row contents text) (hne : text ≠ [])
      (hb : isLineEnd b = true) (rest : Rows rows more) :
      Rows (contents :: rows) (text ++ b :: more)

/-- A field as it is read: a content with blanks around it, or none. -/
def Padded (content field : List UInt8) : Prop :=
  ∃ front back, Padding front ∧ Padding back ∧ field = front ++ content ++ back

theorem padded_self (content : List UInt8) : Padded content content :=
  ⟨[], [], by rintro b ⟨⟩, by rintro b ⟨⟩, by simp⟩

theorem Padding.bare {bytes : List UInt8} (h : Padding bytes) : BareText bytes := by
  intro b hb
  rcases h b hb with rfl | rfl
  · exact ⟨by decide, by decide⟩
  · exact ⟨by decide, by decide⟩

/-! ## Reading a cell -/

section

variable {s : Scan} {mode : Mode} {field : List UInt8} {fields : List (List UInt8)}
  {records : List (List (List UInt8))}

/-- Once a bare field has begun, what belongs to it is read to its end. -/
theorem at_foldl_bare {bytes : List UInt8} (h : s.At .unquoted field fields records)
    (hbytes : BareText bytes) :
    (bytes.foldl step s).At .unquoted (bytes.reverse ++ field) fields records := by
  induction bytes generalizing s field with
  | nil => exact h
  | cons b bytes ih =>
    have hstep := at_step_bare h (by decide) (hbytes b List.mem_cons_self) fun _ => rfl
    have hrest := ih hstep fun c hc => hbytes c (List.mem_cons_of_mem b hc)
    rw [List.foldl_cons, List.reverse_cons, List.append_assoc]
    exact hrest

theorem at_foldl_doubled (content : List UInt8) (h : s.At .quoted field fields records) :
    ((doubled content).foldl step s).At .quoted (content.reverse ++ field) fields records := by
  induction content generalizing s field with
  | nil => exact h
  | cons b content ih =>
    rw [List.reverse_cons, List.append_assoc]
    unfold doubled
    rw [List.flatMap_cons, List.foldl_append]
    by_cases hb : b = quote
    · rw [if_pos hb, hb]
      exact ih (at_step_doubled (at_step_close h))
    · rw [if_neg hb]
      exact ih (at_step_quoted h hb)

/-- A cell is read where a field may start. Afterwards the scan is at the end of a field: not inside
quotes, and inside a record unless nothing was there to read. -/
theorem exists_at_cell {content text : List UInt8} (hcell : Cell content text)
    (h : s.At mode [] fields records) (hmode : mode = .between ∨ mode = .fieldStart) :
    ∃ field mode', (text.foldl step s).At mode' field.reverse fields records ∧
      Padded content field ∧ mode' ≠ .quoted ∧
      (text ≠ [] ∨ mode = .fieldStart → mode' ≠ .between) := by
  cases hcell with
  | @bare front back hfront hback plain start =>
    have hpadded : Padded content (front ++ content ++ back) := ⟨front, back, hfront, hback, rfl⟩
    have hbare : BareText (front ++ content ++ back) := by
      intro b hb
      rcases List.mem_append.mp hb with hb | hb
      · rcases List.mem_append.mp hb with hb | hb
        · exact hfront.bare b hb
        · exact plain b hb
      · exact hback.bare b hb
    -- A cell that is written as nothing does not move the scan, not even into a record.
    cases htext : front ++ content ++ back with
    | nil =>
      rw [htext] at hpadded
      refine ⟨[], mode, h, hpadded, ?_, ?_⟩
      · rcases hmode with rfl | rfl <;> decide
      · rintro (hne | rfl)
        · exact absurd rfl hne
        · decide
    | cons b bytes =>
      rw [htext] at hpadded hbare start
      have hne : b ≠ quote := fun hq => start (congrArg some hq)
      have hnot : mode ≠ .quoted := by rcases hmode with rfl | rfl <;> decide
      have hfirst := at_step_bare h hnot (hbare b List.mem_cons_self) fun hq => absurd hq hne
      have hrest := at_foldl_bare hfirst fun c hc => hbare c (List.mem_cons_of_mem b hc)
      refine ⟨b :: bytes, .unquoted, ?_, hpadded, by decide, fun _ => by decide⟩
      rw [List.foldl_cons, List.reverse_cons]
      exact hrest
  | quoted =>
    have hinside := at_foldl_doubled content (at_step_open h hmode)
    rw [List.append_nil] at hinside
    refine ⟨content, .quoteSeen, ?_, padded_self content, by decide, fun _ => by decide⟩
    rw [List.cons_append, List.foldl_cons, List.foldl_append]
    exact at_step_close hinside

/-! ## Reading rows -/

/-- A row is read where a record may start. Afterwards the scan is at the end of its last field. -/
theorem exists_at_row {contents : List (List UInt8)} {text : List UInt8} (hrow : Row contents text)
    (h : s.At mode [] fields records) (hmode : mode = .between ∨ mode = .fieldStart) :
    ∃ read field' fields' mode', (text.foldl step s).At mode' field' fields' records ∧
      List.Forall₂ Padded contents read ∧
      (field'.reverse :: fields').reverse = fields.reverse ++ read ∧ mode' ≠ .quoted ∧
      (text ≠ [] ∨ mode = .fieldStart → mode' ≠ .between) := by
  induction hrow generalizing s mode fields with
  | last hcell =>
    obtain ⟨field, mode', hat, hpadded, hquoted, hbetween⟩ := exists_at_cell hcell h hmode
    exact ⟨[field], field.reverse, fields, mode', hat, .cons hpadded .nil, by simp, hquoted,
      hbetween⟩
  | cons hcell _ ih =>
    obtain ⟨field, mode', hat, hpadded, hquoted, -⟩ := exists_at_cell hcell h hmode
    -- The comma makes the next cell start inside the record, even if it is empty.
    have hcomma := at_step_comma hat hquoted
    obtain ⟨read, field', fields', mode'', hat', hread, hfields, hquoted', hbetween'⟩ :=
      ih hcomma (Or.inr rfl)
    refine ⟨field :: read, field', fields', mode'', ?_, .cons hpadded hread, ?_, hquoted',
      fun _ => hbetween' (Or.inr rfl)⟩
    · rw [List.foldl_append, List.foldl_cons]
      exact hat'
    · rw [hfields]
      simp

/-- Rows are read one by one, each as a record. -/
theorem exists_finish_rows {rows : List (List (List UInt8))} {text : List UInt8}
    (hrows : Rows rows text) (h : s.At .between [] [] records) :
    ∃ read, (text.foldl step s).finish.map Record.fields = records.reverse ++ read ∧
      List.Forall₂ (List.Forall₂ Padded) rows read := by
  induction hrows generalizing s records with
  | done =>
    refine ⟨[], ?_, .nil⟩
    rw [List.foldl_nil, finish_of_at h, if_pos rfl, List.append_nil]
  | blank hb _ ih => exact ih (at_step_blank h hb)
  | last hrow hne =>
    obtain ⟨read, field, fields, mode, hat, hread, hfields, -, hbetween⟩ :=
      exists_at_row hrow h (Or.inl rfl)
    refine ⟨[read], ?_, .cons hread .nil⟩
    rw [finish_of_at hat, if_neg (hbetween (Or.inl hne)), hfields]
    simp
  | cons hrow hne hb _ ih =>
    obtain ⟨read, field, fields, mode, hat, hread, hfields, hquoted, hbetween⟩ :=
      exists_at_row hrow h (Or.inl rfl)
    have hend := at_step_lineEnd hat hquoted (hbetween (Or.inl hne)) hb
    obtain ⟨more, hmore, hrest⟩ := ih hend
    refine ⟨read :: more, ?_, .cons hread hrest⟩
    rw [List.foldl_append, List.foldl_cons, hmore, hfields]
    simp

end

/-- **Rows are read as they were written**: as many records, as many fields in each, and every field
the content of its cell with the blanks around it. -/
theorem records_of_rows {rows : List (List (List UInt8))} {bytes : List UInt8}
    (h : Rows rows bytes) (hmark : ¬ byteOrderMark <+: bytes) :
    List.Forall₂ (fun contents r => List.Forall₂ Padded contents r.fields) rows
      (records bytes) := by
  obtain ⟨read, hread, hrows⟩ := exists_finish_rows h (at_initial 0)
  rw [List.reverse_nil, List.nil_append] at hread
  have hrecords : records bytes = (bytes.foldl step (initial 0)).finish := by
    unfold records
    rw [if_neg (by rwa [List.isPrefixOf_iff_prefix])]
  rw [← hread, ← hrecords, List.forall₂_map_right_iff] at hrows
  exact hrows

end Csv
end Beamline
