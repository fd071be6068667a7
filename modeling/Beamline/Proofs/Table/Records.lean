import Mathlib.Tactic
import Beamline.Beam.Table
import Beamline.Proofs.Outcome
import Beamline.Proofs.Text.Blank

/-!
# Records — what a table asks of one of them

A particle is read from a record in four stages, any of which can fail: the count of fields, their
bytes, the needed fields left to right, and the two columns at the end. `particle_eq_ok_iff` says
what they come to: the record is text, as long as the layout, and in each needed column exactly one
cell, a number. Nothing of the order of the stages is left in it, because the order only decides
what a bad record is reported for.

A table's records are read in turn. Its particles are those of its records (`particles_eq_ok_iff`),
or it fails for the first one that has none (`particles_eq_error`).
-/

set_option autoImplicit false

namespace Beamline
namespace Table

/-! ## Text -/

/-- A field is the bytes of a text that trims to a cell. The text is not kept: blanks around a cell
are of no account anywhere in a table. -/
def Holds (field : List UInt8) (cell : List Char) : Prop :=
  ∃ cs, Utf8.decode field = .ok cs ∧ Text.trim cs = cell

/-- Fields are decoded in turn, and all must be text. The number of the first that is not is only in
the failure, so it is any here. -/
theorem decodeFields_eq_ok_iff {start : Csv.Position} {i : Nat} {fields : List (List UInt8)}
    {texts : List (List Char)} :
    decodeFields start i fields = .ok texts ↔
      List.Forall₂ (fun field cs => Utf8.decode field = .ok cs) fields texts := by
  induction fields generalizing i texts with
  | nil =>
    rw [List.forall₂_nil_left_iff]
    exact ⟨fun h => (Except.ok.inj h).symm, fun h => congrArg Except.ok h.symm⟩
  | cons field fields ih =>
    rw [List.forall₂_cons_left_iff]
    cases hfield : Utf8.decode field with
    | error fault =>
      constructor
      · intro h
        rw [decodeFields, hfield] at h
        cases h
      · rintro ⟨cs, -, h, -⟩
        cases h
    | ok cs =>
      rw [decodeFields, hfield]
      constructor
      · intro h
        obtain ⟨rest, hrest, h⟩ := bind_eq_ok_iff.mp h
        cases h
        exact ⟨cs, rest, rfl, ih.mp hrest, rfl⟩
      · rintro ⟨_, rest, ⟨⟩, hrest, rfl⟩
        exact bind_eq_ok_iff.mpr ⟨rest, ih.mpr hrest, rfl⟩

/-- Reading in two steps, item by item or list by list. -/
theorem forall₂_exists_iff {α β γ : Type} {R : α → β → Prop} {f : β → γ} {as : List α}
    {cs : List γ} :
    List.Forall₂ (fun a c => ∃ b, R a b ∧ f b = c) as cs ↔
      ∃ bs, List.Forall₂ R as bs ∧ bs.map f = cs := by
  constructor
  · intro h
    induction h with
    | nil => exact ⟨[], .nil, rfl⟩
    | cons hone _ ih =>
      obtain ⟨b, hb, rfl⟩ := hone
      obtain ⟨bs, hbs, rfl⟩ := ih
      exact ⟨b :: bs, .cons hb hbs, rfl⟩
  · rintro ⟨bs, hbs, rfl⟩
    rw [List.forall₂_map_right_iff]
    exact hbs.imp fun a b hab => ⟨b, hab, rfl⟩

/-- Trimming the bytes of a field first does not change what it holds. The reader trims twice, the
bytes of a field and then its text; this makes one trimming of the two. -/
theorem holds_iff_trimBytes {field : List UInt8} {cell : List Char} :
    Holds field cell ↔
      ∃ cs, Utf8.decode (Text.trimBytes field) = .ok cs ∧ Text.trim cs = cell := by
  constructor
  · rintro ⟨cs, hcs, rfl⟩
    exact Text.decode_trimBytes hcs
  · rintro ⟨ds, hds, rfl⟩
    obtain ⟨cs, hcs⟩ := Text.exists_decode_of_trimBytes hds
    obtain ⟨ds', hds', htrim⟩ := Text.decode_trimBytes hcs
    rw [hds] at hds'
    cases hds'
    exact ⟨cs, hcs, htrim.symm⟩

/-- The cells of a record are what its fields hold. -/
theorem cells_eq_ok_iff {r : Csv.Record} {texts : List (List Char)} :
    cells r = .ok texts ↔ List.Forall₂ Holds r.fields texts := by
  have hraw : cells r = .ok texts ↔ ∃ raw, List.Forall₂ (fun field cs =>
      Utf8.decode (Text.trimBytes field) = .ok cs) r.fields raw ∧ raw.map Text.trim = texts := by
    unfold cells
    rw [bind_eq_ok_iff]
    refine exists_congr fun raw => ?_
    rw [decodeFields_eq_ok_iff, List.forall₂_map_left_iff]
    exact and_congr_right fun _ => ⟨Except.ok.inj, congrArg Except.ok⟩
  rw [hraw, ← forall₂_exists_iff]
  constructor
  · exact fun h => h.imp fun _ _ => holds_iff_trimBytes.mpr
  · exact fun h => h.imp fun _ _ => holds_iff_trimBytes.mp

/-! ## Needed fields -/

/-- The cells that stand in a column, left to right. A header row may name a column twice, so there
may be several. -/
def inColumn (c : Column) (l : Layout) (texts : List (List Char)) : List (List Char) :=
  ((l.zip texts).filter fun pair => pair.1 == some c).map Prod.snd

/-- What a column of a draft becomes when the cells of that column are read into it. There is no
rule for two cells, or for a column that is full: both are refused. -/
inductive Fills : Option Binary64 → List (List Char) → Option Binary64 → Prop
  | kept (old : Option Binary64) : Fills old [] old
  | filled {cell : List Char} {x : Binary64} (h : Binary64.parse? cell = some x) :
      Fills none [cell] (some x)

theorem fills_nil_iff {old new : Option Binary64} : Fills old [] new ↔ old = new := by
  constructor
  · rintro ⟨⟩
    rfl
  · rintro rfl
    exact .kept old

theorem fills_cons_iff {old new : Option Binary64} {cell : List Char} {rest : List (List Char)} :
    Fills old (cell :: rest) new ↔
      old = none ∧ ∃ x, Binary64.parse? cell = some x ∧ Fills (some x) rest new := by
  constructor
  · rintro (_ | h)
    exact ⟨rfl, _, h, .kept _⟩
  · rintro ⟨rfl, x, hx, hrest⟩
    cases hrest with
    | kept => exact .filled hx

theorem inColumn_cons_self (c : Column) (l : Layout) (cell : List Char) (texts : List (List Char)) :
    inColumn c (some c :: l) (cell :: texts) = cell :: inColumn c l texts := by
  simp [inColumn]

theorem inColumn_cons_ne {c : Column} {use : Option Column} (h : use ≠ some c) (l : Layout)
    (cell : List Char) (texts : List (List Char)) :
    inColumn c (use :: l) (cell :: texts) = inColumn c l texts := by
  simp [inColumn, h]

theorem Draft.get_set (d : Draft) (x : Binary64) (c c' : Column) :
    (d.set x c).get c' = if c' = c then some x else d.get c' := by
  cases c <;> cases c' <;> rfl

theorem Draft.ext_get {d d' : Draft} (h : ∀ c, d.get c = d'.get c) : d = d' := by
  obtain ⟨dt, p⟩ := d
  obtain ⟨dt', p'⟩ := d'
  have hdt : dt = dt' := h .dt
  have hp : p = p' := h .p
  rw [hdt, hp]

/-- One cell of a needed column: the column must be empty and the cell a number. -/
theorem read_some_eq_ok_iff {start : Csv.Position} {i : Nat} {d d' : Draft} {c : Column}
    {cell : List Char} :
    d.read start i (some c) cell = .ok d' ↔
      d.get c = none ∧ ∃ x, Binary64.parse? cell = some x ∧ d.set x c = d' := by
  unfold Draft.read
  dsimp only
  cases hget : d.get c with
  | some y =>
    constructor
    · rintro ⟨⟩
    · rintro ⟨⟨⟩, -⟩
  | none =>
    cases hparse : Binary64.parse? cell with
    | none =>
      constructor
      · rintro ⟨⟩
      · rintro ⟨-, x, ⟨⟩, -⟩
    | some x =>
      constructor
      · intro h
        exact ⟨rfl, x, rfl, Except.ok.inj h⟩
      · rintro ⟨-, y, ⟨⟩, rfl⟩
        rfl

/-- **A row of cells fills a draft column by column**: at most one cell goes into each, and none
into one that is full. The reader goes through the cells from left to right, whichever column they
are in; here each column is looked at by itself. -/
theorem readFrom_eq_ok_iff {start : Csv.Position} {i : Nat} {l : Layout} {texts : List (List Char)}
    {d d' : Draft} (hlen : texts.length = l.length) :
    d.readFrom start i l texts = .ok d' ↔
      ∀ c, Fills (d.get c) (inColumn c l texts) (d'.get c) := by
  -- The draft is what the induction carries: what the first cell fills is full for the others.
  induction l generalizing i texts d with
  | nil =>
    obtain rfl := List.eq_nil_of_length_eq_zero hlen
    constructor
    · intro h c
      cases h
      exact .kept _
    · intro h
      exact congrArg Except.ok (Draft.ext_get fun c => fills_nil_iff.mp (h c))
  | cons use l ih =>
    obtain ⟨cell, texts, rfl⟩ := List.exists_cons_of_length_eq_add_one hlen
    have hlen' : texts.length = l.length := Nat.succ.inj hlen
    rw [Draft.readFrom, bind_eq_ok_iff]
    cases use with
    | none =>
      constructor
      · rintro ⟨_, ⟨⟩, h⟩ c
        rw [inColumn_cons_ne (by rintro ⟨⟩)]
        exact (ih hlen').mp h c
      · intro h
        refine ⟨d, rfl, (ih hlen').mpr fun c => ?_⟩
        have hc := h c
        rwa [inColumn_cons_ne (by rintro ⟨⟩)] at hc
    | some c₀ =>
      constructor
      · rintro ⟨d₁, hread, h⟩ c
        obtain ⟨hnone, x, hx, rfl⟩ := read_some_eq_ok_iff.mp hread
        have hc := (ih hlen').mp h c
        rw [Draft.get_set] at hc
        by_cases hsame : c = c₀
        · subst hsame
          rw [if_pos rfl] at hc
          rw [inColumn_cons_self, fills_cons_iff]
          exact ⟨hnone, x, hx, hc⟩
        · rw [if_neg hsame] at hc
          rwa [inColumn_cons_ne fun heq => hsame (Option.some.inj heq).symm]
      · intro h
        have hself := h c₀
        rw [inColumn_cons_self, fills_cons_iff] at hself
        obtain ⟨hnone, x, hx, hrest⟩ := hself
        refine ⟨d.set x c₀, read_some_eq_ok_iff.mpr ⟨hnone, x, hx, rfl⟩, (ih hlen').mpr fun c => ?_⟩
        rw [Draft.get_set]
        by_cases hsame : c = c₀
        · subst hsame
          rwa [if_pos rfl]
        · have hc := h c
          rw [inColumn_cons_ne fun heq => hsame (Option.some.inj heq).symm] at hc
          rwa [if_neg hsame]

/-! ## One record -/

def valueOf (q : Particle Binary64) : Column → Binary64
  | .dt => q.dt
  | .p => q.p

theorem fills_none_some_iff {cells : List (List Char)} {x : Binary64} :
    Fills none cells (some x) ↔ ∃ cell, cells = [cell] ∧ Binary64.parse? cell = some x := by
  constructor
  · rintro (_ | h)
    exact ⟨_, rfl, h⟩
  · rintro ⟨cell, rfl, h⟩
    exact .filled h

/-- A draft is complete when both columns are full, and its particle has what is in them. -/
theorem complete_eq_ok_iff {name : String} {d : Draft} {q : Particle Binary64} :
    d.complete name = .ok q ↔ ∀ c, d.get c = some (valueOf q c) := by
  obtain ⟨dt, p⟩ := d
  constructor
  · intro h c
    cases dt with
    | none => cases h
    | some dt =>
      cases p with
      | none => cases h
      | some p =>
        cases h
        cases c <;> rfl
  · intro h
    have hdt : dt = some q.dt := h .dt
    have hp : p = some q.p := h .p
    subst hdt hp
    rfl

section

variable {name : String} {l : Layout} {r : Csv.Record}

/-- **A record describes a particle exactly when** it is as long as the layout, is text, and has in
each needed column one cell, which is the particle's value there. Which stage a bad record fails in
is not told; tables are accepted or blamed by this alone. -/
theorem particle_eq_ok_iff {q : Particle Binary64} :
    particle name l r = .ok q ↔
      r.fields.length = l.length ∧ ∃ texts, List.Forall₂ Holds r.fields texts ∧
        ∀ c, ∃ cell, inColumn c l texts = [cell] ∧ Binary64.parse? cell = some (valueOf q c) := by
  -- A draft that starts empty and ends complete takes exactly one cell into each column.
  have hstages : r.fields.length = l.length → ∀ texts, List.Forall₂ Holds r.fields texts →
      ((∃ d, Draft.empty.readFrom r.start 0 l texts = .ok d ∧ d.complete name = .ok q) ↔
        ∀ c, ∃ cell, inColumn c l texts = [cell] ∧
          Binary64.parse? cell = some (valueOf q c)) := by
    intro hlen texts htexts
    have hlen' : texts.length = l.length := htexts.length_eq.symm.trans hlen
    have hempty : ∀ c, Draft.empty.get c = none := by
      rintro (_ | _) <;> rfl
    simp only [readFrom_eq_ok_iff hlen', complete_eq_ok_iff, ← fills_none_some_iff, hempty]
    constructor
    · rintro ⟨d, hfills, hd⟩ c
      have hc := hfills c
      rwa [hd c] at hc
    · intro h
      refine ⟨⟨some q.dt, some q.p⟩, fun c => ?_, fun c => ?_⟩
      · have hc := h c
        cases c <;> exact hc
      · cases c <;> rfl
  unfold particle
  by_cases hlen : r.fields.length = l.length
  · rw [if_neg (not_not_intro hlen)]
    show cells r >>= _ = _ ↔ _
    rw [bind_eq_ok_iff]
    simp only [cells_eq_ok_iff, bind_eq_ok_iff]
    constructor
    · rintro ⟨texts, htexts, hdraft⟩
      exact ⟨hlen, texts, htexts, (hstages hlen texts htexts).mp hdraft⟩
    · rintro ⟨-, texts, htexts, hcolumns⟩
      exact ⟨texts, htexts, (hstages hlen texts htexts).mpr hcolumns⟩
  · rw [if_pos hlen]
    constructor
    · rintro ⟨⟩
    · rintro ⟨h, -⟩
      exact absurd h hlen

end

/-! ## One record after another -/

section

variable {name : String} {l : Layout} {row : Nat} {rs : List Csv.Record}

/-- A table's particles are those of its records, in turn. The row is counted for the failures
only. -/
theorem particles_eq_ok_iff {qs : List (Particle Binary64)} :
    particles name l row rs = .ok qs ↔
      List.Forall₂ (fun r q => particle name l r = .ok q) rs qs := by
  induction rs generalizing row qs with
  | nil =>
    rw [List.forall₂_nil_left_iff]
    exact ⟨fun h => (Except.ok.inj h).symm, fun h => congrArg Except.ok h.symm⟩
  | cons r rs ih =>
    rw [particles, bind_eq_ok_iff, List.forall₂_cons_left_iff]
    constructor
    · rintro ⟨q, hq, h⟩
      obtain ⟨qs', hqs, h⟩ := bind_eq_ok_iff.mp h
      cases h
      exact ⟨q, qs', during_eq_ok_iff.mp hq, ih.mp hqs, rfl⟩
    · rintro ⟨q, qs', hq, hqs, rfl⟩
      exact ⟨q, during_eq_ok_iff.mpr hq, bind_eq_ok_iff.mpr ⟨qs', ih.mpr hqs, rfl⟩⟩

/-- The first record without a particle is the one that is reported, and nothing after it matters.
Its number is that of the first row and as many more as come before it. -/
theorem particles_eq_error {k : Nat} {r : Csv.Record} {f : Failure} (hr : rs[k]? = some r)
    (hf : particle name l r = .error f)
    (hprior : ∀ r' ∈ rs.take k, ∃ q, particle name l r' = .ok q) :
    particles name l row rs = .error (f.during (.readRecord (row + k))) := by
  induction k generalizing row rs with
  | zero =>
    cases rs with
    | nil => cases hr
    | cons r₀ rs =>
      cases hr
      rw [particles, hf]
      rfl
  | succ k ih =>
    cases rs with
    | nil => cases hr
    | cons r₀ rs =>
      obtain ⟨q, hq⟩ := hprior r₀ (by simp)
      have hrest : particles name l (row + 1) rs =
          .error (f.during (.readRecord (row + 1 + k))) :=
        ih hr fun r' hr' => hprior r' (by simp [hr'])
      rw [particles, hq]
      show particles name l (row + 1) rs >>= _ = _
      rw [hrest, Nat.add_right_comm row 1 k]
      rfl

end

end Table
end Beamline
