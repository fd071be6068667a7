import Beamline.Beam.StepSeries
import Beamline.Beam.Table
import Beamline.Settings
import Beamline.Storage.Files

/-!
# Loading — from places to values

Each kind of input names its own tasks when it cannot be had. A distribution alone tells opening
from reading, and a folder can be opened: it fails where its first row would be read.
-/

set_option autoImplicit false

namespace Beamline

def Distribution.load (name path : String) (t : Tree) : Outcome (Distribution Binary64) :=
  match t.find path with
  | .error kind => Outcome.during (.openDistribution path) (Outcome.fail (.io kind))
  | .ok .folder =>
    Outcome.during (.readDistribution path)
      (Outcome.during .readHeaderRow (Outcome.fail (.io .isADirectory)))
  | .ok (.file content) =>
    Outcome.during (.readDistribution path) (Distribution.ofTable name content)

def StepSeries.load (path : String) (t : Tree) : Outcome StepSeries :=
  match t.read path with
  | .error kind => Outcome.during (.readSeries path) (Outcome.fail (.io kind))
  | .ok content => StepSeries.ofFile path content

namespace Settings

def load (path : String) (t : Tree) : Outcome Settings :=
  match t.read path with
  | .error kind => Outcome.during (.openSettings path) (Outcome.fail (.io kind))
  | .ok content => Settings.ofFile path content

/-- Where settings are looked for. -/
def usualPath : String := "config.toml"

/-- The settings that hold in a working folder: those of its settings file, or the standard ones if
there is none. -/
def current (t : Tree) : Outcome Settings :=
  if t.stands usualPath then load usualPath t else .ok standard

end Settings

end Beamline
