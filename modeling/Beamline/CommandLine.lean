import Beamline.Run.Comparison
import Beamline.Run.Steps

/-!
# Command lines — two programs over the runs

`plot_steps` takes one array file; `compare_dists` takes what its settings name and looks at no
argument. Both are functions of a working folder: what they print, what they report on the way, how
they exit and what they leave behind is their whole behaviour.

Reports and complaints share the error output. How a report is worded there, and whether it gets
there at all, is up to a logger, which is a parameter; so a complaint is the last thing on the error
output, but not always the first.

Arguments are read in order, and the first that decides the outcome decides it: a fault, or a
request for help or the version. So a second file is a fault even when help is asked for after it.
-/

set_option autoImplicit false

namespace Beamline
namespace CommandLine

/-! ## Arguments -/

inductive Request where
  | run (path : String)
  | help
  | version
deriving DecidableEq, Repr

/-- The request of arguments that can only be files. -/
def files? (path : Option String) (args : List String) : Option Request :=
  match path, args with
  | some p, [] => some (.run p)
  | none, [p] => if p.isEmpty then none else some (.run p)
  | _, _ => none

/-- The request of an argument that is no file; of letters, the first decides. -/
def option? (arg : String) : Option Request :=
  if arg = "--help" then some .help
  else if arg = "--version" then some .version
  else
    match arg.toList with
    | '-' :: 'h' :: _ => some .help
    | '-' :: 'V' :: _ => some .version
    | _ => none

/-- Whether an argument is an option. A lone minus sign is a file. -/
def isOption (arg : String) : Bool :=
  match arg.toList with
  | '-' :: _ :: _ => true
  | _ => false

/-- The request of arguments, given the file that has been named before them. -/
def requestFrom (path : Option String) : List String → Option Request
  | [] => path.map .run
  | arg :: args =>
    if arg = "--" then files? path args
    else if isOption arg then option? arg
    else if path.isSome || arg.isEmpty then none
    else requestFrom (some arg) args

/-- The request of arguments, unless they are faulty. -/
def request? (args : List String) : Option Request := requestFrom none args

/-! ## Exits -/

structure Exit where
  code : Nat
  output : List UInt8
  /-- What has been reported, first things first. -/
  log : List Event
  /-- What it complains of in the end, if anything. -/
  complaint : Option String
  tree : Tree

def complaintOf (text : String) : String := "Error: " ++ text

def Exit.failed (output : List UInt8) (j : Journal) (f : Failure) : Exit :=
  ⟨1, output, j.log, some (complaintOf f.headline), j.tree⟩

def Exit.ofOutcome {α : Type} (output : List UInt8) (j : Journal) : Outcome α → Exit
  | .ok _ => ⟨0, output, j.log, none, j.tree⟩
  | .error f => Exit.failed output j f

/-! ## The error output -/

/-- What becomes of reports: the line that is written of one, unless it is held back. A line may
well say when it was written, which is what the number of the report stands for. -/
structure Logger where
  line? : Nat → Event → Option String

namespace Logger

/-- Holds everything back. -/
def silent : Logger where
  line? _ _ := none

/-- Lets everything through. A line begins with a head in brackets: when, how serious, from
where. -/
def usual (head : Nat → Event → String) : Logger where
  line? i event := some ("[" ++ head i event ++ "] " ++ event.text)

/-- All that is written of some reports. -/
def text (logger : Logger) (log : List Event) : String :=
  String.join (((log.mapIdx logger.line?).filterMap id).map (· ++ "\n"))

end Logger

/-- The error output: what is written of the reports, then the complaint, if there is one. It ends
where a list of causes may follow. -/
def Exit.errorOutput (e : Exit) (logger : Logger) : String :=
  logger.text e.log ++ String.join (e.complaint.toList.map (· ++ "\n"))

/-! ## Programs -/

def helpText : String :=
  "Scatter plots of per-particle position and energy deviation across simulation steps\n\n" ++
    "Usage: plot_steps <ARRAY_PATH>\n\n" ++
    "Arguments:\n" ++
    "  <ARRAY_PATH>  Step series array (.npy) indexed as [step, particle, channel]\n\n" ++
    "Options:\n" ++
    "  -h, --help     Print help\n" ++
    "  -V, --version  Print version\n"

def versionText : String := "beam_plots 0.1.0\n"

def plotSteps (args : List String) (t : Tree) (renderer : Renderer := .white) : Exit :=
  match request? args with
  | none => ⟨1, [], [], some (complaintOf "Provide one input file"), t⟩
  | some .help => ⟨0, Utf8.encode helpText.toList, [], none, t⟩
  | some .version => ⟨0, Utf8.encode versionText.toList, [], none, t⟩
  | some (.run path) =>
    match Settings.current t with
    | .error f => Exit.failed [] ⟨t, []⟩ f
    | .ok s =>
      let r := StepRun.run s path none t renderer
      Exit.ofOutcome r.echoed r.journal r.result

def compareDistributions (t : Tree) (renderer : Renderer := .white) : Exit :=
  match Settings.current t with
  | .error f => Exit.failed [] ⟨t, []⟩ f
  | .ok s =>
    let r := Comparison.run s t renderer
    Exit.ofOutcome [] r.journal r.result

inductive Program where
  | plotSteps
  | compareDistributions
deriving DecidableEq, Repr

namespace Program

/-- The program that a name stands for. -/
def named? (name : String) : Option Program :=
  if name = "plot_steps" then some plotSteps
  else if name = "compare_dists" then some compareDistributions
  else none

def run (program : Program) (args : List String) (t : Tree) (renderer : Renderer := .white) :
    Exit :=
  match program with
  | plotSteps => CommandLine.plotSteps args t renderer
  | compareDistributions => CommandLine.compareDistributions t renderer

end Program

end CommandLine
end Beamline
