import Beamline.Proofs.Binary64.Literal
import Beamline.Proofs.Csv.Writing
import Beamline.Proofs.Table.Acceptance

/-!
# Writing — a distribution read back from any table of it

A list of particles can be tabulated in many ways: the two needed columns may stand anywhere, with
any others around and between them, and a value may be any of its literals. `Tabulates` says what a
table of cells must have for that; how the cells are written as bytes is the business of the
grammar. Read back are the particles, in order, and nothing else of all this.
-/

set_option autoImplicit false

namespace Beamline
namespace Table

/-- Cells in rows below a header row that tabulate particles: each needed column has its place, no
other column trims to its name, and each row has the particle's values in those places. -/
structure Tabulates (header : List (List Char)) (rows : List (List (List Char)))
    (particles : List (Particle Binary64)) (place : Column → Nat) : Prop where
  named : ∀ c, ∃ n, header[place c]? = some n ∧ Text.trim n = c.name.toList
  others : ∀ i n, header[i]? = some n → (∀ c, i ≠ place c) →
    ∀ c : Column, Text.trim n ≠ c.name.toList
  valued : List.Forall₂ (fun row q => row.length = header.length ∧
    ∀ c, ∃ cell, row[place c]? = some cell ∧ Binary64.parse? cell = some (valueOf q c)) rows
      particles

/-! ## Cells -/

/-- A cell is read as its text, whatever blanks are around it. -/
theorem holds_of_padded {cs : List Char} {field : List UInt8}
    (h : Csv.Padded (Utf8.encode cs) field) : Holds field (Text.trim cs) := by
  obtain ⟨front, back, hfront, hback, rfl⟩ := h
  have hblank : ∀ {bytes : List UInt8}, Csv.Padding bytes →
      ∀ b ∈ bytes, Text.isBlankByte b = true := by
    intro bytes hpadding b hb
    rcases hpadding b hb with rfl | rfl <;> decide
  have hfront' := hblank hfront
  have hback' := hblank hback
  refine ⟨(front.map fun b => Char.ofNat b.toNat) ++ cs ++ back.map fun b => Char.ofNat b.toNat,
    Utf8.decode_eq_ok_iff.mpr ?_, ?_⟩
  · rw [Utf8.encode_append, Utf8.encode_append, Text.encode_blanks hfront',
      Text.encode_blanks hback']
  · exact Text.trimWith_append (Text.isBlank_of_mem_map hfront') (Text.isBlank_of_mem_map hback')

theorem holds_of_row {row : List (List Char)} {fields : List (List UInt8)}
    (h : List.Forall₂ Csv.Padded (row.map Utf8.encode) fields) :
    List.Forall₂ Holds fields (row.map Text.trim) := by
  rw [List.forall₂_map_left_iff] at h
  rw [List.forall₂_map_right_iff]
  exact (h.imp fun cs field hpadded => holds_of_padded hpadded).flip

/-! ## Columns -/

theorem count_eq_one {α : Type} [BEq α] [LawfulBEq α] {xs : List α} {a : α} {i : Nat}
    (hi : xs[i]? = some a) (honly : ∀ j : Nat, xs[j]? = some a → j = i) : xs.count a = 1 := by
  induction xs generalizing i with
  | nil => cases hi
  | cons x xs ih =>
    by_cases hx : x = a
    · have hzero : 0 = i := honly 0 (congrArg some hx)
      have hrest : a ∉ xs := by
        intro hmem
        obtain ⟨j, hj⟩ := List.mem_iff_getElem?.mp hmem
        have hplace := honly (j + 1) hj
        omega
      rw [hx, List.count_cons_self, List.count_eq_zero.mpr hrest]
    · cases i with
      | zero => exact absurd (Option.some.inj hi) hx
      | succ i =>
        rw [List.count_cons_of_ne hx]
        exact ih hi fun j hj => Nat.succ.inj (honly (j + 1) hj)

theorem name_injective {c c' : Column} (h : c.name.toList = c'.name.toList) : c = c' := by
  have hdistinct : Column.dt.name.toList ≠ Column.p.name.toList := by decide
  cases c <;> cases c'
  · rfl
  · exact absurd h hdistinct
  · exact absurd h.symm hdistinct
  · rfl

section

variable {header : List (List Char)} {rows : List (List (List Char))}
  {particles : List (Particle Binary64)} {place : Column → Nat}

theorem Tabulates.getElem?_names (h : Tabulates header rows particles place) (c : Column) :
    (header.map Text.trim)[place c]? = some c.name.toList := by
  obtain ⟨n, hn, htrim⟩ := h.named c
  rw [List.getElem?_map, hn, Option.map_some, htrim]

theorem Tabulates.count_names (h : Tabulates header rows particles place) (c : Column) :
    (header.map Text.trim).count c.name.toList = 1 := by
  refine count_eq_one (h.getElem?_names c) fun j hj => ?_
  rw [List.getElem?_map, Option.map_eq_some_iff] at hj
  obtain ⟨n, hn, htrim⟩ := hj
  by_contra hne
  refine h.others j n hn (fun c' hplace => ?_) c htrim
  -- The column at this place has another name.
  obtain ⟨n', hn', htrim'⟩ := h.named c'
  rw [← hplace, hn] at hn'
  cases hn'
  rw [htrim] at htrim'
  rw [name_injective htrim'] at hne
  exact hne hplace

/-- A row of the table is a record of its particle. -/
theorem Tabulates.particle_eq (h : Tabulates header rows particles place) {name : String}
    {row : List (List Char)} {q : Particle Binary64} {r : Csv.Record}
    (hlen : row.length = header.length)
    (hvalues : ∀ c, ∃ cell, row[place c]? = some cell ∧
      Binary64.parse? cell = some (valueOf q c))
    (hr : List.Forall₂ Csv.Padded (row.map Utf8.encode) r.fields) :
    particle name (layoutOf (header.map Text.trim)) r = .ok q := by
  have hholds := holds_of_row hr
  have hlen' : (row.map Text.trim).length = (header.map Text.trim).length := by
    rw [List.length_map, List.length_map, hlen]
  refine particle_eq_ok_iff.mpr ⟨?_, row.map Text.trim, hholds, fun c => ?_⟩
  · rw [hholds.length_eq, hlen']
    exact (List.length_map _).symm
  obtain ⟨cell, hcell, hx⟩ := hvalues c
  have htrimmed : (row.map Text.trim)[place c]? = some cell := by
    rw [List.getElem?_map, hcell, Option.map_some, Binary64.trim_of_parse? hx]
  exact ⟨cell, (inColumn_eq_singleton_iff hlen').mpr
    ⟨h.count_names c, place c, h.getElem?_names c, htrimmed⟩, hx⟩

theorem forall₂_of_common {α β γ : Type} {R : α → β → Prop} {S : α → γ → Prop} {T : γ → β → Prop}
    {as : List α} {bs : List β} {cs : List γ} (h : List.Forall₂ R as bs) (h' : List.Forall₂ S as cs)
    (hone : ∀ a b c, R a b → S a c → T c b) : List.Forall₂ T cs bs := by
  induction h generalizing cs with
  | nil =>
    cases h'
    exact .nil
  | cons hab _ ih =>
    obtain ⟨c, cs, hac, hrest, rfl⟩ := List.forall₂_cons_left_iff.mp h'
    exact .cons (hone _ _ _ hab hac) (ih hrest)

/-- **A distribution is read back from every table of it**, however the table is laid out and
however it is written. -/
theorem ofTable_written (h : Tabulates header rows particles place) {name : String}
    {bytes : List UInt8}
    (hwritten : Csv.Rows ((header :: rows).map fun row => row.map Utf8.encode) bytes)
    (hmark : ¬ Csv.byteOrderMark <+: bytes) :
    ∃ d, Distribution.ofTable name bytes = .ok d ∧ d.name = name ∧
      d.dt = particles.map Particle.dt ∧ d.p = particles.map Particle.p := by
  have hrecords := Csv.records_of_rows hwritten hmark
  rw [List.map_cons, List.forall₂_cons_left_iff] at hrecords
  obtain ⟨first, rest, hfirst, hrest, hsplit⟩ := hrecords
  have hnames : HeaderNames bytes (header.map Text.trim) := .row hsplit (holds_of_row hfirst)
  have hboth : ∀ c : Column, c.name.toList ∈ header.map Text.trim :=
    fun c => List.mem_of_getElem? (h.getElem?_names c)
  have hbody : body bytes = rest := by rw [body, hsplit, List.tail_cons]
  rw [List.forall₂_map_left_iff] at hrest
  have hparticles : List.Forall₂
      (fun r q => particle name (layoutOf (header.map Text.trim)) r = .ok q) rest particles :=
    forall₂_of_common h.valued hrest fun row q r hrow hr => h.particle_eq hrow.1 hrow.2 hr
  exact ⟨⟨name, particles⟩, (ofTable_eq_ok_iff hnames hboth).mpr ⟨rfl, hbody ▸ hparticles⟩,
    rfl, rfl,
    rfl⟩

end

/-- One particle, under a padded and among a quoted column name, with an empty line and without a
last line end. -/
theorem ofTable_written_one :
    let bytes : List UInt8 := [0x69, 0x64, 0x2C, 0x70, 0x20, 0x2C, 0x22, 0x78, 0x2C, 0x79, 0x22,
      0x2C, 0x09, 0x64, 0x74, 0x0D, 0x0A, 0x0A,
      0x37, 0x2C, 0x6E, 0x61, 0x6E, 0x2C, 0x22, 0x61, 0x22, 0x22, 0x62, 0x22,
      0x2C, 0x20, 0x69, 0x6E, 0x66]
    ∃ d, Distribution.ofTable "x" bytes = .ok d ∧ d.dt = [.infinite .plus] ∧ d.p = [.nan] := by
  intro bytes
  have htable : Tabulates [['i', 'd'], ['p'], ['x', ',', 'y'], ['d', 't']]
      [[['7'], ['n', 'a', 'n'], ['a', '"', 'b'], ['i', 'n', 'f']]] [⟨.infinite .plus, .nan⟩]
      (fun c => if c = .dt then 3 else 1) := by
    refine ⟨fun c => ?_, fun i n hn hi => ?_, .cons ⟨rfl, fun c => ?_⟩ .nil⟩
    · cases c <;> exact ⟨_, rfl, rfl⟩
    · rcases i with _ | _ | _ | _ | i
      · cases hn
        rintro (_ | _) <;> decide
      · exact absurd rfl (hi .p)
      · cases hn
        rintro (_ | _) <;> decide
      · exact absurd rfl (hi .dt)
      · cases hn
    · cases c <;> exact ⟨_, rfl, rfl⟩
  have hheader := Csv.Row.cons
    (@Csv.Cell.bare [0x69, 0x64] [] [] (by decide) (by decide) (by decide) (by decide))
    (.cons (@Csv.Cell.bare [0x70] [] [0x20] (by decide) (by decide) (by decide) (by decide))
      (.cons (@Csv.Cell.quoted [0x78, 0x2C, 0x79])
        (.last (@Csv.Cell.bare [0x64, 0x74] [0x09] [] (by decide) (by decide) (by decide)
          (by decide)))))
  have hrow := Csv.Row.cons
    (@Csv.Cell.bare [0x37] [] [] (by decide) (by decide) (by decide) (by decide))
    (.cons (@Csv.Cell.bare [0x6E, 0x61, 0x6E] [] [] (by decide) (by decide) (by decide) (by decide))
      (.cons (@Csv.Cell.quoted [0x61, 0x22, 0x62])
        (.last (@Csv.Cell.bare [0x69, 0x6E, 0x66] [0x20] [] (by decide) (by decide) (by decide)
          (by decide)))))
  have hrows := Csv.Rows.cons hheader (by decide) (by decide : Csv.Scan.isLineEnd 0x0D = true)
    (.blank (by decide : Csv.Scan.isLineEnd 0x0A = true)
      (.blank (by decide : Csv.Scan.isLineEnd 0x0A = true) (.last hrow (by decide))))
  obtain ⟨d, hd, -, hdt, hp⟩ := ofTable_written htable hrows (by decide)
  exact ⟨d, hd, hdt, hp⟩

end Table
end Beamline
