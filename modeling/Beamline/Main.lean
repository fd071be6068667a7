import Beamline.CommandLine

/-!
# Main — the programs in a real folder

The programs are functions of a tree, so running one takes three steps: look at the places it may
depend on, apply the function, and carry the differences back. Which places those are is known from
the settings and the arguments, and looking at more of them than needed does no harm.
-/

set_option autoImplicit false

namespace Beamline
namespace Main

/-! ## Looking -/

def nameOf (place : Location) : String := String.intercalate "/" place

/-- Adds what really stands at a place. -/
def lookAt (t : Tree) (place : Location) : IO Tree := do
  if place.isAnchor then return t
  let real := (← IO.currentDir) / nameOf place
  if ← real.isDir then return t.set place .folder
  else if ← real.pathExists then
    let content ← IO.FS.readBinFile real
    return t.set place (.file content.data.toList)
  else return t

/-- Adds what really stands along a path, if it is one. -/
def lookAlong (t : Tree) (path : String) : IO Tree := do
  if (Tree.refusal? path).isSome then return t
  let (_, t) ← (Path.steps path).foldlM
    (fun (place, t) step => do
      let place := Location.follow place step
      return (place, ← lookAt t place))
    (([] : Location), t)
  return t

/-- The places that a run over some settings may depend on, an array file aside. -/
def placesOf (s : Settings) : List String :=
  [s.initialPath, s.finalPath, s.outputFolder, s.figuresFolder, StepRun.figurePath s] ++
    Comparison.figurePaths s ++ Comparison.arrayNames.map (Action.arrayPath s.outputFolder)

/-- Everything a program may depend on that is given these arguments. -/
def lookAround (args : List String) : IO Tree := do
  let t ← lookAlong Tree.empty Settings.usualPath
  let places :=
    match Settings.current t with
    | .ok s => placesOf s
    | .error _ => []
  (args ++ places).foldlM lookAlong t

/-! ## Carrying back -/

/-- Makes a place what it should be. -/
def realize (place : Location) (e : Entry) : IO Unit := do
  let real := (← IO.currentDir) / nameOf place
  match e with
  | .folder => IO.FS.createDirAll real
  | .file content => IO.FS.writeBinFile real ⟨content.toArray⟩

/-- Carries the differences between two trees back. Folders come before what is in them. -/
def carryBack (before after : Tree) : IO Unit :=
  after.entries.forM fun (place, e) =>
    if before.get place = some e then pure () else realize place e

def runProgram (program : CommandLine.Program) (args : List String) : IO UInt32 := do
  let before ← lookAround args
  let exit := program.run args before
  carryBack before exit.tree
  (← IO.getStdout).write ⟨exit.output.toArray⟩
  (← IO.getStderr).putStr (exit.errorOutput (.usual fun _ event => event.level.text))
  return UInt32.ofNat exit.code

end Main
end Beamline

/-- The first argument names the program, the others are its own. -/
def main (args : List String) : IO UInt32 := do
  let name :: rest := args | usage
  let some program := Beamline.CommandLine.Program.named? name | usage
  Beamline.Main.runProgram program rest
where
  usage : IO UInt32 := do
    IO.eprintln "usage: (plot_steps | compare_dists) [ARGUMENTS]"
    return 2
