import Beamline.Event
import Beamline.Failure
import Beamline.Figure.Drawing
import Beamline.Npy.Array
import Beamline.Storage.Files

/-!
# Actions — what a run does once it knows everything

A run has two halves. The first reads and computes and changes nothing; its result is a list of
actions. The second performs them in order and stops at the first that fails. So what a run may
touch can be read off its actions, and that nothing is written before all inputs are good is a
matter of the types.

Saving a figure takes a renderer. It can fail in two ways that are kept apart: the renderer may
refuse the drawing, and then no file has been opened and no task but drawing is named; or there is a
picture and it cannot be written.
-/

set_option autoImplicit false

namespace Beamline

/-- One change to the file system, or one report. -/
inductive Action where
  | createOutput (folder : String)
  | saveArray (folder name : String) (values : List Binary64)
  | createFigures (folder : String)
  | saveFigure (path : String) (drawing : Drawing)
  | report (event : Event)

/-- The file system, and what has been reported, first things first. -/
structure Journal where
  tree : Tree
  log : List Event

namespace Action

/-- Where an array of some name is saved. -/
def arrayPath (folder name : String) : String := Path.join folder (name ++ ".npy")

/-- Makes a folder for a task. -/
def create (j : Journal) (folder : String) (task : Task) : Journal × Outcome Unit :=
  match j.tree.makeFolders folder with
  | (t, .ok ()) => ({ j with tree := t }, .ok ())
  | (t, .error kind) => ({ j with tree := t }, Outcome.during task (Outcome.fail (.io kind)))

def perform (renderer : Renderer) (j : Journal) : Action → Journal × Outcome Unit
  | createOutput folder => create j folder .createOutput
  | createFigures folder => create j folder .createFigures
  | saveArray folder name values =>
    match j.tree.write (arrayPath folder name) (Npy.writeVector values) with
    | .ok t => ({ j with tree := t }, .ok ())
    | .error kind => (j, Outcome.during (.saveArray name) (Outcome.fail (.io kind)))
  | saveFigure path drawing =>
    match renderer.draw drawing with
    | .error words => (j, .error (Failure.ofRefusal words))
    | .ok picture =>
      match j.tree.write path picture with
      | .ok t => ({ j with tree := t }, .ok ())
      | .error _ => (j, Outcome.during (.saveFigure path) (Outcome.fail .drawing))
  | report event => ({ j with log := j.log ++ [event] }, .ok ())

/-- Performs actions in order, up to the first that fails. -/
def performAll (renderer : Renderer) (j : Journal) : List Action → Journal × Outcome Unit
  | [] => (j, .ok ())
  | a :: as =>
    match a.perform renderer j with
    | (j, .ok ()) => performAll renderer j as
    | failed => failed

end Action

end Beamline
