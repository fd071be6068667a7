import Beamline.Beam.Histogram
import Beamline.Figure.Comparison
import Beamline.Figure.Style
import Beamline.Run.Action
import Beamline.Run.Load

/-!
# The comparison run — two distributions, derived, saved and drawn

Both distributions are loaded and everything is computed from them (`Comparison.report`) before the
first action. The arrays are only saved if the settings ask for it; the histograms are computed in
any case, and so the number of bins matters in any case.
-/

set_option autoImplicit false

namespace Beamline
namespace Comparison

/-- Everything that is computed from two distributions. -/
structure Report where
  initial : Derived Binary64
  final : Derived Binary64
  slip : List Binary64
  initialTime : Histogram Binary64
  initialEnergy : Histogram Binary64
  finalTime : Histogram Binary64
  finalEnergy : Histogram Binary64

def Report.ofDistributions (initial final : Distribution Binary64) (bins : Nat) :
    Outcome Report := do
  let i := initial.derive
  let f := final.derive
  return {
    initial := i
    final := f
    slip := deltaZUm final initial
    initialTime := ← Histogram.ofValues i.centeredTimeFs bins
    initialEnergy := ← Histogram.ofValues i.energyGeV bins
    finalTime := ← Histogram.ofValues f.centeredTimeFs bins
    finalEnergy := ← Histogram.ofValues f.energyGeV bins }

/-! ## What is saved -/

/-- The columns of a distribution, each with what stands behind the distribution's name in its
own. -/
def columnTable : List (String × (Derived Binary64 → List Binary64)) :=
  [ ("_t_centered_fs", Derived.centeredTimeFs),
    ("_t_fs", Derived.timeFs),
    ("_energy_gev", Derived.energyGeV),
    ("_z_centered_um", Derived.longitudinalOffsetUm),
    ("_z_um", Derived.rawLongitudinalOffsetUm),
    ("_delta_pct", Derived.fracMomentumDevPct) ]

/-- The two halves of a histogram, likewise. -/
def histogramTable : List (String × (Histogram Binary64 → List Binary64)) :=
  [("_hist_edges", Histogram.edges), ("_hist_density", Histogram.density)]

/-- The columns of a distribution, by the names they are saved under. -/
def columns (d : Derived Binary64) : List (String × List Binary64) :=
  columnTable.map fun (suffix, column) => (d.name ++ suffix, column d)

/-- The arrays of a histogram, by the names they are saved under. -/
def histogramArrays (name : String) (h : Histogram Binary64) : List (String × List Binary64) :=
  histogramTable.map fun (suffix, half) => (name ++ suffix, half h)

/-- All arrays of a report, in the order they are saved. -/
def arrays (r : Report) : List (String × List Binary64) :=
  columns r.initial ++ columns r.final ++ [("delz", r.slip)] ++
    histogramArrays "initial_t" r.initialTime ++ histogramArrays "initial_p" r.initialEnergy ++
    histogramArrays "final_t" r.finalTime ++ histogramArrays "final_p" r.finalEnergy

def columnNames (name : String) : List String := columnTable.map fun (suffix, _) => name ++ suffix

def histogramNames (name : String) : List String :=
  histogramTable.map fun (suffix, _) => name ++ suffix

/-- The names of all arrays, in the order they are saved: they are the same for every report. -/
def arrayNames : List String :=
  columnNames "initial" ++ columnNames "final" ++ ["delz"] ++
    histogramNames "initial_t" ++ histogramNames "initial_p" ++
    histogramNames "final_t" ++ histogramNames "final_p"

/-- Saves one array. Its folder is made first, every time. -/
def saveArray (folder : String) (array : String × List Binary64) : List Action :=
  [.createOutput folder, .saveArray folder array.1 array.2]

def arrayActions (s : Settings) (r : Report) : List Action :=
  if s.writeDerived then
    (arrays r).flatMap (saveArray s.outputFolder) ++ [.report (.savedDerived s.outputFolder)]
  else []

def figurePath (s : Settings) (name : String) : String :=
  Path.join s.figuresFolder (name ++ ".png")

/-- The paths of all figures, in the order they are saved. -/
def figurePaths (s : Settings) : List String := names.map (figurePath s)

/-- Draws one plot and saves the figure. -/
def savePlot (s : Settings) (p : Plot) : Action :=
  .saveFigure (figurePath s p.name) (p.drawing (Style.comparison s.sizes))

/-- Saves all plots one after another, and reports them once all are saved. -/
def figureActions (s : Settings) (r : Report) : List Action :=
  .createFigures s.figuresFolder :: (plots r.initial r.final r.slip).map (savePlot s) ++
    (figurePaths s).map fun path => .report (.savedFigure path)

/-- Everything that is left to do about a report. -/
def actions (s : Settings) (r : Report) : List Action := arrayActions s r ++ figureActions s r

/-! ## Running -/

/-- Loads and computes: what is reported on the way, and the report. -/
def report (s : Settings) (t : Tree) : List Event × Outcome Report :=
  match Distribution.load "initial" s.initialPath t with
  | .error f => ([], .error f)
  | .ok initial =>
    let loadedInitial := Event.loadedParticles initial.size s.initialPath
    match Distribution.load "final" s.finalPath t with
    | .error f => ([loadedInitial], .error f)
    | .ok final =>
      let log :=
        loadedInitial :: .loadedParticles final.size s.finalPath :: Event.ofPairing final initial
      (log, Report.ofDistributions initial final s.bins)

/-- What a comparison run leaves behind; its result is the paths of the figures. -/
structure Run where
  journal : Journal
  result : Outcome (List String)

/-- Runs over the distributions that the settings name. -/
def run (s : Settings) (t : Tree) (renderer : Renderer := .white) : Run :=
  match report s t with
  | (log, .error f) => ⟨⟨t, log⟩, .error f⟩
  | (log, .ok r) =>
    let (j, done) := Action.performAll renderer ⟨t, log⟩ (actions s r)
    ⟨j, done.map fun _ => figurePaths s⟩

end Comparison

end Beamline
