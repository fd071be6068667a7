import Beamline.Csv.Record
import Beamline.Npy.Header

/-!
# Failures — what went wrong, and while doing what

A failure is a cause and the tasks that were under way, outermost first. Both are values of the
domain: nothing compares texts to tell two failures apart, and the wording of every message stands
in this file. A message is its tasks and, last, the cause's own words if it has any. Those of the
file system and of the settings language are not ours to give; what a renderer says when it refuses
is known, and follows the words of the cause.
-/

set_option autoImplicit false

namespace Beamline

/-- How the file system refuses. -/
inductive IoKind where
  | notFound
  | isADirectory
  | notADirectory
  | alreadyExists
  /-- The content of a file is not of its kind. -/
  | invalidData
  /-- A text cannot be a path. -/
  | invalidInput
  /-- A name or a path is too long. -/
  | invalidFilename
  | brokenPipe
deriving DecidableEq, Repr

inductive Cause where
  | columnLengths (name : String) (dt p : Nat)
  | missingColumn (name column : String)
  | noBins
  | tooFewChannels (found : Nat)
  | notNumeric (path : String)
  | csv (fault : Csv.Fault)
  | npy (fault : Npy.Fault)
  /-- The settings are not in their language, or not of the right kind. -/
  | settings
  | io (kind : IoKind)
  /-- The number of values does not fit the shape. -/
  | shape
  | drawing
deriving Inhabited

inductive Task where
  | openSettings (path : String)
  | parseSettings
  | openDistribution (path : String)
  | readDistribution (path : String)
  | readHeaderRow
  /-- Records are counted from one. -/
  | readRecord (row : Nat)
  | readSeries (path : String)
  | shapeSeries
  | echoSeries
  | createFigures
  | createOutput
  | saveArray (name : String)
  | saveFigure (path : String)
deriving DecidableEq, Repr

def Cause.text? : Cause → Option String
  | .columnLengths name dt p => some s!"Distribution {name} has {dt} dt values but {p} p values"
  | .missingColumn name column => some s!"Distribution {name} has no {column} column"
  | .noBins => some "Histogram needs at least one bin"
  | .tooFewChannels found => some s!"Step series needs at least 2 channels, found {found}"
  | .notNumeric path => some s!"Could not read step series from {path}: element type is not numeric"
  | .csv fault => some fault.text
  | .npy fault => fault.text?
  | .settings => none
  | .io _ => none
  | .shape => none
  | .drawing => some "Drawing failed"

def Task.text : Task → String
  | .openSettings path => s!"Could not open the config file {path}"
  | .parseSettings => "Could not parse Config file"
  | .openDistribution path => s!"Could not open distribution file {path}"
  | .readDistribution path => s!"Could not read distribution file {path}"
  | .readHeaderRow => "Could not read header row"
  | .readRecord row => s!"Malformed record at row {row}"
  | .readSeries path => s!"Could not read step series from {path}"
  | .shapeSeries => "Step series values do not match the requested shape"
  | .echoSeries => "Could not write particle trajectories"
  | .createFigures => "Unable to create figures directory"
  | .createOutput => "Unable to create output directory"
  | .saveArray name => s!"Could not save {name} data to file"
  | .saveFigure path => s!"Could not save figure {path}"

/-- A cause, and the tasks it interrupted, outermost first. -/
structure Failure where
  tasks : List Task
  cause : Cause
  /-- What has been said of the cause from outside, where that is known. -/
  remark : Option String
deriving Inhabited

namespace Failure

/-- A cause that interrupted no task yet. -/
def of (cause : Cause) : Failure := ⟨[], cause, none⟩

/-- A renderer refuses to draw. -/
def ofRefusal (words : String) : Failure := ⟨[], .drawing, some words⟩

/-- The same failure, seen from the task around it. -/
def during (f : Failure) (task : Task) : Failure := { f with tasks := task :: f.tasks }

/-- The words of the cause, with the remark behind them. -/
def words? (f : Failure) : Option String :=
  match f.cause.text?, f.remark with
  | some text, some remark => some (text ++ ": " ++ remark)
  | text, none => text
  | none, remark => remark

/-- The parts of a message, outermost first. -/
def parts (f : Failure) : List String := f.tasks.map Task.text ++ f.words?.toList

def message (f : Failure) : String := String.intercalate ": " f.parts

def headline (f : Failure) : String := f.parts.headD ""

end Failure

abbrev Outcome (α : Type) := Except Failure α

namespace Outcome

variable {α : Type}

def fail (cause : Cause) : Outcome α := .error (Failure.of cause)

/-- Names the task that a result belongs to. -/
def during (task : Task) : Outcome α → Outcome α
  | .ok a => .ok a
  | .error f => .error (f.during task)

end Outcome

end Beamline
