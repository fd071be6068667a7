import Beamline.Failure
import Beamline.Figure.Style
import Beamline.Toml.Document

/-!
# Settings — what the analysis can be told

Every setting has a value it takes when nothing is said about it, so a settings file is read as a
change to `Settings.standard`: a list of fields, each with the name it is given by and a function
that changes one setting. Sections are fields too, whose change is to read their own fields.

A field that is named twice is refused, a name that is no field is skipped. A section may also be
written as an array, which gives its fields by place.
-/

set_option autoImplicit false

namespace Beamline

structure Settings where
  initialPath : String
  finalPath : String
  figuresFolder : String
  outputFolder : String
  sizes : FigureSizes
  bins : Nat
  writeDerived : Bool

namespace Settings

/-- What holds where nothing is said. -/
def standard : Settings where
  initialPath := "./output/initial_dist.csv"
  finalPath := "./output/final_dist.csv"
  figuresFolder := "./figures"
  outputFolder := "./output/derived"
  sizes := .standard
  bins := 400
  writeDerived := false

/-! ## Fields -/

/-- A name and what a value given by it changes; a value of the wrong kind changes nothing and is
refused. -/
abbrev Field := String × (Toml.Value → Settings → Option Settings)

def text (name : String) (change : String → Settings → Settings) : Field :=
  (name, fun v s =>
    match v with
    | .string t => some (change t s)
    | _ => none)

/-- A field for a number; an integer stands for the value nearest to it. -/
def number (name : String) (change : Binary64 → FigureSizes → FigureSizes) : Field :=
  (name, fun v s =>
    match v with
    | .float x => some { s with sizes := change x s.sizes }
    | .integer i => some { s with sizes := change (Binary64.ofInt i) s.sizes }
    | _ => none)

def count (name : String) (change : Nat → Settings → Settings) : Field :=
  (name, fun v s =>
    match v with
    | .integer (.ofNat n) => some (change n s)
    | _ => none)

def flag (name : String) (change : Bool → Settings → Settings) : Field :=
  (name, fun v s =>
    match v with
    | .boolean b => some (change b s)
    | _ => none)

/-- Whether no field is named twice. -/
def namedOnce (fields : List Field) (pairs : Toml.Pairs) : Bool :=
  fields.all fun f => (pairs.filter fun pair => pair.1 == f.1).length ≤ 1

/-- Changes settings by one pair. -/
def readPair (fields : List Field) (s : Settings) (pair : String × Toml.Value) : Option Settings :=
  match fields.lookup pair.1 with
  | some change => change pair.2 s
  | none => some s

def readPairs (fields : List Field) (pairs : Toml.Pairs) (s : Settings) : Option Settings :=
  if namedOnce fields pairs then pairs.foldlM (readPair fields) s else none

/-- Changes settings by values given in the order of the fields; there may be fewer. -/
def readItems : List Field → List Toml.Value → Settings → Option Settings
  | _, [], s => some s
  | [], _ :: _, _ => none
  | (_, change) :: fields, v :: items, s => do readItems fields items (← change v s)

/-- A section with fields of its own. A date is a table without any pair that is known. -/
def group (name : String) (fields : List Field) : Field :=
  (name, fun v s =>
    match v with
    | .table _ pairs => readPairs fields pairs s
    | .array items => readItems fields items s
    | .tables elements => readItems fields (elements.map (.table .header)) s
    | .date => some s
    | _ => none)

/-! ## Sections -/

def pathFields : List Field :=
  [ text "initial_dist" fun t s => { s with initialPath := t },
    text "final_dist" fun t s => { s with finalPath := t },
    text "figures_dir" fun t s => { s with figuresFolder := t },
    text "output_dir" fun t s => { s with outputFolder := t } ]

def figureFields : List Field :=
  [ number "width_in" fun x f => { f with widthIn := x },
    number "height_in" fun x f => { f with heightIn := x },
    number "dpi" fun x f => { f with dpi := x },
    number "font_pt" fun x f => { f with fontPt := x },
    number "marker_pt" fun x f => { f with markerPt := x },
    number "margin_in" fun x f => { f with marginIn := x },
    number "steps_width_in" fun x f => { f with stepsWidthIn := x },
    number "steps_height_in" fun x f => { f with stepsHeightIn := x },
    number "steps_dpi" fun x f => { f with stepsDpi := x } ]

def analysisFields : List Field := [count "bins" fun n s => { s with bins := n }]

def outputFields : List Field := [flag "write_derived" fun b s => { s with writeDerived := b }]

def sections : List Field :=
  [ group "paths" pathFields,
    group "figure" figureFields,
    group "analysis" analysisFields,
    group "output" outputFields ]

/-! ## Files -/

/-- The settings that a text gives, if it is one and gives values of the right kind only. -/
def parse? (cs : List Char) : Option Settings := do
  readPairs sections (← Toml.parse? cs) standard

/-- The settings in a file; the path is for messages. -/
def ofFile (path : String) (bytes : List UInt8) : Outcome Settings :=
  match Utf8.decode bytes with
  | .error _ => Outcome.during (.openSettings path) (Outcome.fail (.io .invalidData))
  | .ok cs =>
    match parse? cs with
    | some s => .ok s
    | none => Outcome.during .parseSettings (Outcome.fail .settings)

end Settings

end Beamline
