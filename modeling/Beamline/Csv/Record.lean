import Beamline.Text.Utf8

/-!
# Records — splitting comma separated bytes

A table is bytes until its cells are looked at, so splitting works on bytes. Five modes suffice
because line ends need no lookahead: carriage return and line feed each end a record, and a record
starts only at a byte that is neither, so the second half of a CR LF pair and every blank line fall
between records and vanish there.

A record's `start` is the place right after the byte that ended the record before it, not the place
of its own first byte. Faults are reported at that place, so it is kept and not recomputed.
-/

set_option autoImplicit false

namespace Beamline
namespace Csv

/-- A place in a table: records before it, line from one, bytes before it. -/
structure Position where
  record : Nat
  line : Nat
  byte : Nat
deriving DecidableEq, Repr

/-- One record, unquoted but not yet trimmed. -/
structure Record where
  start : Position
  fields : List (List UInt8)
deriving DecidableEq, Repr

/-- Where in a record the next byte falls. -/
inductive Mode where
  /-- Before the first byte of a record. -/
  | between
  /-- Before the first byte of a field, where a quote opens a quoted field. -/
  | fieldStart
  | unquoted
  | quoted
  /-- Right after a quote inside a quoted field: the field's end or half of an escaped quote. -/
  | quoteSeen
deriving DecidableEq, Repr

/-- What has been read so far; lists hold their latest member first. -/
structure Scan where
  mode : Mode
  line : Nat
  byte : Nat
  start : Position
  field : List UInt8
  fields : List (List UInt8)
  records : List Record

namespace Scan

def quote : UInt8 := 0x22
def comma : UInt8 := 0x2C
def lineFeed : UInt8 := 0x0A
def carriageReturn : UInt8 := 0x0D

def isLineEnd (b : UInt8) : Bool := b == lineFeed || b == carriageReturn

/-- Before the first byte; a byte-order mark counts as bytes but not as content. -/
def initial (byte : Nat) : Scan :=
  ⟨.between, 1, byte, ⟨0, 1, 0⟩, [], [], []⟩

/-- Counts one byte, and a line at each line feed. -/
def advance (s : Scan) (b : UInt8) : Scan :=
  { s with byte := s.byte + 1, line := if b == lineFeed then s.line + 1 else s.line }

def push (s : Scan) (mode : Mode) (b : UInt8) : Scan :=
  { s with mode := mode, field := b :: s.field }

def endField (s : Scan) : Scan :=
  { s with mode := .fieldStart, field := [], fields := s.field.reverse :: s.fields }

/-- Ends the field and the record; the next record starts here. -/
def endRecord (s : Scan) : Scan :=
  let t := s.endField
  { t with
    mode := .between
    fields := []
    records := ⟨t.start, t.fields.reverse⟩ :: t.records
    start := ⟨t.records.length + 1, t.line, t.byte⟩ }

/-- A byte outside quotes: it ends a field, ends the record, or belongs to the field. -/
def plain (s : Scan) (b : UInt8) : Scan :=
  if b == comma then s.endField
  else if isLineEnd b then s.endRecord
  else s.push .unquoted b

def step (s : Scan) (b : UInt8) : Scan :=
  let s := s.advance b
  match s.mode with
  | .between =>
    if isLineEnd b then s
    else if b == quote then { s with mode := .quoted }
    else s.plain b
  | .fieldStart => if b == quote then { s with mode := .quoted } else s.plain b
  | .unquoted => s.plain b
  | .quoted => if b == quote then { s with mode := .quoteSeen } else s.push .quoted b
  | .quoteSeen => if b == quote then s.push .quoted b else s.plain b

/-- The end of the bytes ends an open record, even inside quotes. -/
def finish (s : Scan) : List Record :=
  match s.mode with
  | .between => s.records.reverse
  | _ => s.endRecord.records.reverse

end Scan

/-- The byte-order mark, dropped at the very start only. -/
def byteOrderMark : List UInt8 := [0xEF, 0xBB, 0xBF]

def records (bytes : List UInt8) : List Record :=
  if byteOrderMark.isPrefixOf bytes then
    ((bytes.drop 3).foldl Scan.step (Scan.initial 3)).finish
  else
    (bytes.foldl Scan.step (Scan.initial 0)).finish

/-! ## Faults -/

/-- Why a record cannot be used. -/
inductive Fault where
  /-- It has another number of fields than the header row. -/
  | unequalLengths (start : Position) (found expected : Nat)
  /-- A field is not text; the index counts bytes of the field. -/
  | notText (start : Position) (field index : Nat)
  /-- A needed column is named twice. -/
  | repeatedColumn (start : Position) (name : String)
  /-- A field of a needed column is not a number. -/
  | notNumber (start : Position) (field : Nat) (empty : Bool)
deriving DecidableEq, Repr

/-- A place as faults of whole records name it. -/
def Position.text (p : Position) : String :=
  s!"record {p.record} (line: {p.line}, byte: {p.byte})"

def Fault.text : Fault → String
  | .unequalLengths start found expected =>
    s!"CSV error: {start.text}: found record with {found} fields, but the previous record has " ++
      s!"{expected} fields"
  | .notText start field index =>
    s!"CSV parse error: record {start.record} (line {start.line}, field: {field}, " ++
      s!"byte: {start.byte}): invalid utf-8: invalid UTF-8 in field {field} near byte index {index}"
  | .repeatedColumn start name =>
    s!"CSV deserialize error: {start.text}: duplicate field \x60{name}\x60"
  | .notNumber start field empty =>
    let reason := if empty then "cannot parse float from empty string" else "invalid float literal"
    s!"CSV deserialize error: {start.text}: field {field}: {reason}"

end Csv
end Beamline
