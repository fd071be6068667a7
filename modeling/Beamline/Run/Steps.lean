import Beamline.Figure.Panel
import Beamline.Run.Action
import Beamline.Run.Load

/-!
# The step run — one series, echoed and drawn

The series is loaded, every particle's values are echoed, and the step figure is drawn. The echo
goes to a reader who may stop listening. It is handed over line by line, and each line in three
pieces; a reader may stop inside any of them, and then the run ends there, with what has been taken
so far, and before anything is written.
-/

set_option autoImplicit false

namespace Beamline

/-! ## Reading along -/

/-- Someone who takes what is handed over: so many bytes more, or any number. -/
structure Reader where
  room : Option Nat

namespace Reader

/-- Whether a piece is taken whole. -/
def takesAll (r : Reader) (piece : List UInt8) : Bool :=
  match r.room with
  | none => true
  | some k => piece.length ≤ k

/-- What is taken of a piece. -/
def taken (r : Reader) (piece : List UInt8) : List UInt8 :=
  match r.room with
  | none => piece
  | some k => piece.take k

/-- The reader once a piece has been taken whole. -/
def after (r : Reader) (piece : List UInt8) : Reader := ⟨r.room.map (· - piece.length)⟩

/-- Hands pieces over one after another, up to the first that is not taken whole: all that is taken,
and whether it was everything. -/
def handOver (r : Reader) : List (List UInt8) → List UInt8 × Except IoKind Unit
  | [] => ([], .ok ())
  | piece :: pieces =>
    if r.takesAll piece then
      let (bytes, ended) := (r.after piece).handOver pieces
      (piece ++ bytes, ended)
    else (r.taken piece, .error .brokenPipe)

end Reader

namespace StepSeries

/-- One particle's line in the pieces that it is handed over in. -/
def linePieces (values : List Binary64) : List String :=
  ["[", String.intercalate " " (values.map Binary64.text), "]\n"]

/-- The echo in the pieces that it is handed over in. -/
def echoPieces (s : StepSeries) : List (List UInt8) :=
  ((Channel.all.flatMap s.channel).flatMap linePieces).map fun piece => Utf8.encode piece.toList

end StepSeries

/-! ## Running -/

/-- What a step run leaves behind. -/
structure StepRun where
  journal : Journal
  /-- The bytes of the echo that were taken. -/
  echoed : List UInt8
  result : Outcome String

namespace StepRun

def figurePath (s : Settings) : String := Path.join s.figuresFolder "step_series.png"

/-- The figure of a series, in the size that the settings ask for and the colours of the
renderer. -/
def drawingOf (renderer : Renderer) (s : Settings) (series : StepSeries) : Drawing :=
  series.drawing renderer.palette (Style.steps s.sizes)

/-- What is left to do once the series has been echoed. -/
def actions (s : Settings) (drawing : Drawing) : List Action :=
  [ .createFigures s.figuresFolder,
    .saveFigure (figurePath s) drawing,
    .report (.savedFigure (figurePath s)) ]

/-- Runs over the array file at a path, echoing to a reader who may have a limit. -/
def run (s : Settings) (path : String) (limit : Option Nat) (t : Tree)
    (renderer : Renderer := .white) : StepRun :=
  match StepSeries.load path t with
  | .error f => ⟨⟨t, []⟩, [], .error f⟩
  | .ok series =>
    let loaded : Journal := ⟨t, [.loadedSteps series.steps series.particles path]⟩
    match (Reader.mk limit).handOver series.echoPieces with
    | (echoed, .error kind) =>
      ⟨loaded, echoed, Outcome.during .echoSeries (Outcome.fail (.io kind))⟩
    | (echoed, .ok ()) =>
      let (j, done) := Action.performAll renderer loaded (actions s (drawingOf renderer s series))
      ⟨j, echoed, done.map fun _ => figurePath s⟩

end StepRun

end Beamline
