import Mathlib.Tactic
import Beamline.Csv.Record

/-!
# Scanning — what one byte does, and what no later byte undoes

A scan keeps two kinds of things: what it has read, and where that stood. The places never decide
anything, so a scan is described by the rest alone (`Scan.At`), and the eight ways a byte can go are
eight step lemmas about that description. Reading a written table is a chain of them.

A record that has ended is never touched again. So the records that are over in the front part of a
table are the table's first records, whatever comes after (`take_records_append`).
-/

set_option autoImplicit false

namespace Beamline
namespace Csv

namespace Scan

/-- A scan's mode, the field that is open, the fields before it and the records before those, the
latest first; where they stood is left out. -/
structure At (s : Scan) (mode : Mode) (field : List UInt8) (fields : List (List UInt8))
    (records : List (List (List UInt8))) : Prop where
  mode : s.mode = mode
  field : s.field = field
  fields : s.fields = fields
  records : s.records.map Record.fields = records

/-- A byte that is no part of the format where it stands outside quotes. Quotes are not ruled out:
inside a field that has begun without one they are bytes like others. -/
def Bare (b : UInt8) : Prop := b ≠ comma ∧ isLineEnd b = false

instance (b : UInt8) : Decidable (Bare b) :=
  inferInstanceAs (Decidable (b ≠ comma ∧ isLineEnd b = false))

section

variable {s : Scan} {mode : Mode} {field : List UInt8} {fields : List (List UInt8)}
  {records : List (List (List UInt8))} {b : UInt8}

theorem at_initial (byte : Nat) : (initial byte).At .between [] [] [] := ⟨rfl, rfl, rfl, rfl⟩

theorem isLineEnd_comma : isLineEnd comma = false := by decide

theorem quote_ne_comma : quote ≠ comma := by decide

theorem isLineEnd_quote : isLineEnd quote = false := by decide

theorem ne_quote_of_isLineEnd (h : isLineEnd b = true) : b ≠ quote := by
  rintro rfl
  rw [isLineEnd_quote] at h
  cases h

theorem ne_comma_of_isLineEnd (h : isLineEnd b = true) : b ≠ comma := by
  rintro rfl
  rw [isLineEnd_comma] at h
  cases h

/-- Outside quotes a byte of no meaning belongs to the field; a quote does too, once the field has
begun. -/
theorem at_step_bare (h : s.At mode field fields records) (hmode : mode ≠ .quoted) (hb : Bare b)
    (hquote : b = quote → mode = .unquoted) :
    (s.step b).At .unquoted (b :: field) fields records := by
  obtain ⟨rfl, rfl, rfl, rfl⟩ := h
  obtain ⟨hcomma, hend⟩ := hb
  cases hm : s.mode with
  | quoted => exact absurd hm hmode
  | unquoted => constructor <;> simp [step, advance, hm, plain, hcomma, hend, push]
  | between | fieldStart | quoteSeen =>
    have hne : b ≠ quote := by
      intro hq
      have := hquote hq
      rw [hm] at this
      cases this
    constructor <;> simp [step, advance, hm, plain, hcomma, hend, hne, push]

/-- Outside quotes a comma ends the field. -/
theorem at_step_comma (h : s.At mode field fields records) (hmode : mode ≠ .quoted) :
    (s.step comma).At .fieldStart [] (field.reverse :: fields) records := by
  obtain ⟨rfl, rfl, rfl, rfl⟩ := h
  cases hm : s.mode with
  | quoted => exact absurd hm hmode
  | between | fieldStart | unquoted | quoteSeen =>
    constructor <;>
      simp [step, advance, hm, plain, isLineEnd_comma, quote_ne_comma.symm, endField]

/-- Outside quotes, but inside a record, a line end ends the record. -/
theorem at_step_lineEnd (h : s.At mode field fields records) (hmode : mode ≠ .quoted)
    (hopen : mode ≠ .between) (hb : isLineEnd b = true) :
    (s.step b).At .between [] [] ((field.reverse :: fields).reverse :: records) := by
  have hcomma := ne_comma_of_isLineEnd hb
  have hquote := ne_quote_of_isLineEnd hb
  obtain ⟨rfl, rfl, rfl, rfl⟩ := h
  cases hm : s.mode with
  | quoted => exact absurd hm hmode
  | between => exact absurd hm hopen
  | fieldStart | unquoted | quoteSeen =>
    constructor <;>
      simp [step, advance, hm, plain, hb, hcomma, hquote, endRecord, endField]

/-- Between records a line end is passed over. So blank lines are of no consequence, and a line feed
after a carriage return is one. -/
theorem at_step_blank (h : s.At .between field fields records) (hb : isLineEnd b = true) :
    (s.step b).At .between field fields records := by
  obtain ⟨hm, rfl, rfl, rfl⟩ := h
  constructor <;> simp [step, advance, hm, hb]

/-- At the start of a field a quote opens it. -/
theorem at_step_open (h : s.At mode field fields records)
    (hmode : mode = .between ∨ mode = .fieldStart) :
    (s.step quote).At .quoted field fields records := by
  obtain ⟨rfl, rfl, rfl, rfl⟩ := h
  rcases hmode with hm | hm
  · constructor <;> simp [step, advance, hm, isLineEnd_quote]
  · constructor <;> simp [step, advance, hm]

/-- Inside quotes every byte but a quote belongs to the field. -/
theorem at_step_quoted (h : s.At .quoted field fields records) (hb : b ≠ quote) :
    (s.step b).At .quoted (b :: field) fields records := by
  obtain ⟨hm, rfl, rfl, rfl⟩ := h
  constructor <;> simp [step, advance, hm, hb, push]

/-- Inside quotes a quote closes the field … -/
theorem at_step_close (h : s.At .quoted field fields records) :
    (s.step quote).At .quoteSeen field fields records := by
  obtain ⟨hm, rfl, rfl, rfl⟩ := h
  constructor <;> simp [step, advance, hm]

/-- … unless another follows, which belongs to it. -/
theorem at_step_doubled (h : s.At .quoteSeen field fields records) :
    (s.step quote).At .quoted (quote :: field) fields records := by
  obtain ⟨hm, rfl, rfl, rfl⟩ := h
  constructor <;> simp [step, advance, hm, push]

/-- At the end of a table the record that is open is closed, if there is one. A table need not end
in a line end. -/
theorem finish_of_at (h : s.At mode field fields records) :
    s.finish.map Record.fields =
      if mode = .between then records.reverse
      else ((field.reverse :: fields).reverse :: records).reverse := by
  obtain ⟨rfl, rfl, rfl, rfl⟩ := h
  cases hm : s.mode with
  | between => simp [finish, hm]
  | fieldStart | unquoted | quoted | quoteSeen => simp [finish, hm, endRecord, endField]

end

/-! ## Records that have ended -/

theorem exists_records_plain (s : Scan) (b : UInt8) :
    ∃ new, (s.plain b).records = new ++ s.records := by
  unfold plain
  split
  · exact ⟨[], rfl⟩
  · split
    · exact ⟨[_], rfl⟩
    · exact ⟨[], rfl⟩

/-- One byte adds a record or none. The records are kept latest first, so what was there before
stays behind. -/
theorem exists_records_step (s : Scan) (b : UInt8) :
    ∃ new, (s.step b).records = new ++ s.records := by
  have hplain : ∃ new, ((s.advance b).plain b).records = new ++ s.records :=
    exists_records_plain (s.advance b) b
  unfold step
  dsimp only
  split
  · split
    · exact ⟨[], rfl⟩
    · split
      · exact ⟨[], rfl⟩
      · exact hplain
  · split
    · exact ⟨[], rfl⟩
    · exact hplain
  · exact hplain
  · split <;> exact ⟨[], rfl⟩
  · split
    · exact ⟨[], rfl⟩
    · exact hplain

/-- Reading on adds records and changes none, by induction on the bytes with the step above. -/
theorem exists_records_foldl (s : Scan) (bytes : List UInt8) :
    ∃ new, (bytes.foldl step s).records = new ++ s.records := by
  induction bytes generalizing s with
  | nil => exact ⟨[], rfl⟩
  | cons b bytes ih =>
    obtain ⟨new, hstep⟩ := exists_records_step s b
    obtain ⟨newer, hrest⟩ := ih (s.step b)
    refine ⟨newer ++ new, ?_⟩
    rw [List.foldl_cons, hrest, hstep, List.append_assoc]

theorem exists_finish (s : Scan) : ∃ more, s.finish = s.records.reverse ++ more := by
  unfold finish
  split
  · exact ⟨[], (List.append_nil _).symm⟩
  · exact ⟨[⟨s.start, (s.field.reverse :: s.fields).reverse⟩], by simp [endRecord, endField]⟩

end Scan

/-- The scan of some bytes, a byte-order mark at their start aside. -/
def scan (bytes : List UInt8) : Scan :=
  if byteOrderMark.isPrefixOf bytes then (bytes.drop 3).foldl Scan.step (Scan.initial 3)
  else bytes.foldl Scan.step (Scan.initial 0)

theorem records_eq (bytes : List UInt8) : records bytes = (scan bytes).finish := by
  unfold records scan
  split <;> rfl

/-- The records that are over within some bytes. -/
def ended (front : List UInt8) : List Record := (scan front).records.reverse

/-- A byte-order mark that more bytes would complete has ended no record yet. -/
theorem ended_eq_nil {front back : List UInt8} (h : byteOrderMark <+: front ++ back)
    (hfront : ¬ byteOrderMark <+: front) : ended front = [] := by
  have hlen : front.length < 3 := by
    by_contra hlong
    exact hfront (List.prefix_of_prefix_length_le h (List.prefix_append front back) (by
      simpa [byteOrderMark] using hlong))
  have hprefix : front <+: byteOrderMark :=
    List.prefix_of_prefix_length_le (List.prefix_append front back) h (by
      simpa [byteOrderMark] using hlen.le)
  have hfew : front = [] ∨ front = [0xEF] ∨ front = [0xEF, 0xBB] := by
    obtain ⟨more, hmore⟩ := hprefix
    -- Three bytes would be the whole mark.
    match front, hlen with
    | [], _ => exact Or.inl rfl
    | [a], _ =>
      cases hmore
      exact Or.inr (Or.inl rfl)
    | [a, b], _ =>
      cases hmore
      exact Or.inr (Or.inr rfl)
  rcases hfew with rfl | rfl | rfl <;> rfl

theorem scan_append {front : List UInt8} (h : ended front ≠ []) (back : List UInt8) :
    scan (front ++ back) = back.foldl Scan.step (scan front) := by
  unfold scan
  simp only [List.isPrefixOf_iff_prefix]
  by_cases hmark : byteOrderMark <+: front
  · have hlen : 3 ≤ front.length := hmark.length_le
    rw [if_pos (hmark.trans (List.prefix_append front back)), if_pos hmark,
      List.drop_append_of_le_length hlen, List.foldl_append]
  · have hmark' : ¬ byteOrderMark <+: front ++ back := fun hboth => h (ended_eq_nil hboth hmark)
    rw [if_neg hmark', if_neg hmark, List.foldl_append]

/-- **Records that are over are the table's first records, whatever comes after.** So a bad record
can be blamed without reading on, and what follows it makes no difference. -/
theorem take_records_append {front : List UInt8} {n : Nat} (hn : 0 < n)
    (h : n ≤ (ended front).length) (back : List UInt8) :
    (records (front ++ back)).take n = (ended front).take n := by
  have hne : ended front ≠ [] := List.ne_nil_of_length_pos (hn.trans_le h)
  obtain ⟨new, hnew⟩ := Scan.exists_records_foldl (scan front) back
  obtain ⟨more, hmore⟩ := Scan.exists_finish (back.foldl Scan.step (scan front))
  rw [records_eq, scan_append hne, hmore, hnew, List.reverse_append, List.append_assoc]
  exact List.take_append_of_le_length h

end Csv
end Beamline
