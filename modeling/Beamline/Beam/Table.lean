import Beamline.Text.Blank
import Beamline.Beam.Distribution

/-!
# Tables — distributions in comma separated form

A table has a header row, and only the two columns `dt` and `p` matter; the header is therefore
reduced to what each field of a record is *for* (`Layout`), and the names of other columns are
forgotten at once.

Needed columns are looked for before any record is read, so that a table without records must name
them too. A column that is named twice is a fault of the first record and not of the header: where
there is no record, nothing is ambiguous.
-/

set_option autoImplicit false

namespace Beamline

inductive Column where
  | dt
  | p
deriving DecidableEq, Repr

namespace Column

def all : List Column := [dt, p]

def name : Column → String
  | dt => "dt"
  | p => "p"

/-- The needed column that a header cell names, if it names one. -/
def ofCell? (cell : List Char) : Option Column := all.find? fun c => c.name.toList = cell

end Column

namespace Table

/-- What each field of a record is for. -/
abbrev Layout := List (Option Column)

/-! ## Cells -/

/-- The characters of each field, or the first field that has none. -/
def decodeFields (start : Csv.Position) : Nat → List (List UInt8) → Outcome (List (List Char))
  | _, [] => .ok []
  | i, field :: fields =>
    match Utf8.decode field with
    | .error fault => Outcome.fail (.csv (.notText start i fault.validUpTo))
    | .ok cs => do
      let rest ← decodeFields start (i + 1) fields
      return cs :: rest

/-- The layout that a header row gives; a table without any row gives none. -/
def layout : Option Csv.Record → Outcome Layout
  | none => .ok []
  | some header => do
    let cells ← decodeFields header.start 0 header.fields
    return cells.map fun cell => Column.ofCell? (Text.trim cell)

/-- The first needed column that a layout lacks. -/
def absent? (l : Layout) : Option Column := Column.all.find? fun c => ! l.contains (some c)

/-- The cells of a record. Blank bytes go before the cell is decoded, blank characters after. -/
def cells (r : Csv.Record) : Outcome (List (List Char)) := do
  let raw ← decodeFields r.start 0 (r.fields.map Text.trimBytes)
  return raw.map Text.trim

/-! ## Records -/

/-- A particle of which some columns have been read. -/
structure Draft where
  dt : Option Binary64
  p : Option Binary64

namespace Draft

def empty : Draft := ⟨none, none⟩

def get (d : Draft) : Column → Option Binary64
  | .dt => d.dt
  | .p => d.p

def set (d : Draft) (x : Binary64) : Column → Draft
  | .dt => { d with dt := some x }
  | .p => { d with p := some x }

def read (start : Csv.Position) (d : Draft) (i : Nat) (use : Option Column) (cell : List Char) :
    Outcome Draft :=
  match use with
  | none => .ok d
  | some c =>
    if (d.get c).isSome then Outcome.fail (.csv (.repeatedColumn start c.name))
    else
      match Binary64.parse? cell with
      | some x => .ok (d.set x c)
      | none => Outcome.fail (.csv (.notNumber start i cell.isEmpty))

def readFrom (start : Csv.Position) (d : Draft) (i : Nat) : Layout → List (List Char) →
    Outcome Draft
  | use :: layout, cell :: cells => do
    let d ← d.read start i use cell
    d.readFrom start (i + 1) layout cells
  | _, _ => .ok d

/-- The particle, once both columns are there. -/
def complete (name : String) (d : Draft) : Outcome (Particle Binary64) :=
  match d.dt, d.p with
  | some dt, some p => .ok ⟨dt, p⟩
  | none, _ => Outcome.fail (.missingColumn name Column.dt.name)
  | _, none => Outcome.fail (.missingColumn name Column.p.name)

end Draft

def particle (name : String) (l : Layout) (r : Csv.Record) : Outcome (Particle Binary64) := do
  if r.fields.length ≠ l.length then
    Outcome.fail (.csv (.unequalLengths r.start r.fields.length l.length))
  let texts ← cells r
  let draft ← Draft.empty.readFrom r.start 0 l texts
  draft.complete name

/-- The particles of records, the first of which is number `row`. -/
def particles (name : String) (l : Layout) : Nat → List Csv.Record →
    Outcome (List (Particle Binary64))
  | _, [] => .ok []
  | row, r :: rs => do
    let q ← Outcome.during (.readRecord row) (particle name l r)
    let qs ← particles name l (row + 1) rs
    return q :: qs

end Table

def Distribution.ofTable (name : String) (bytes : List UInt8) :
    Outcome (Distribution Binary64) := do
  let rows := Csv.records bytes
  let l ← Outcome.during .readHeaderRow (Table.layout rows.head?)
  match Table.absent? l with
  | some column => Outcome.fail (.missingColumn name column.name)
  | none => do
    let particles ← Table.particles name l 1 rows.tail
    return ⟨name, particles⟩

end Beamline
