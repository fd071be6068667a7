import Beamline.Failure
import Beamline.Storage.Path
import Beamline.Storage.Tree

/-!
# Files — following paths, reading and writing

A path is first looked at as a whole, since some texts are no path at all. Then it is followed part
by part, and every place that is left behind has to be a folder. What goes wrong is the first thing
that goes wrong on the way, so a missing folder and a file in a folder's place are told apart, and
both from what stands at the end.

Making folders along a path can fail half way. The folders made until then stay, which is why
`makeFolders` answers a tree in any case.
-/

set_option autoImplicit false

namespace Beamline
namespace Tree

/-! ## Following paths -/

def nameLimit : Nat := 255

def pathLimit : Nat := 4095

/-- Why a text cannot be followed as a path, whatever the tree. -/
def refusal? (path : String) : Option IoKind :=
  if path.toList.contains '\x00' then some .invalidInput
  else if path.isEmpty then some .notFound
  else if pathLimit < path.utf8ByteSize then some .invalidFilename
  else none

/-- Insists on a folder. -/
def folderAt (t : Tree) (place : Location) : Except IoKind Location :=
  match t.look place with
  | none => .error .notFound
  | some (.file _) => .error .notADirectory
  | some .folder => .ok place

/-- Where a part leads from a place, which has to be a folder; something need not stand there. -/
def onward (t : Tree) (place : Location) (part : String) : Except IoKind Location :=
  match t.folderAt place with
  | .error kind => .error kind
  | .ok folder =>
    if nameLimit < part.utf8ByteSize then .error .invalidFilename else .ok (folder.follow part)

/-- Where parts lead from a place. -/
def walk (t : Tree) (place : Location) : List String → Except IoKind Location
  | [] => .ok place
  | part :: parts =>
    match t.onward place part with
    | .error kind => .error kind
    | .ok next => t.walk next parts

/-- Where parts lead from the working folder. -/
def placeOf (t : Tree) (parts : List String) : Except IoKind Location := t.walk [] parts

def locate (t : Tree) (path : String) : Except IoKind Location :=
  match refusal? path with
  | some kind => .error kind
  | none => t.placeOf (Path.parts path)

def find (t : Tree) (path : String) : Except IoKind Entry :=
  match t.locate path with
  | .error kind => .error kind
  | .ok place =>
    match t.look place with
    | none => .error .notFound
    | some e => .ok e

def stands (t : Tree) (path : String) : Bool := (t.find path).toBool

/-! ## Reading -/

def read (t : Tree) (path : String) : Except IoKind (List UInt8) :=
  match t.find path with
  | .error kind => .error kind
  | .ok .folder => .error .isADirectory
  | .ok (.file content) => .ok content

/-! ## Writing -/

/-- Parts without the empty ones at the end. -/
def dropSlashes (parts : List String) : List String :=
  (parts.reverse.dropWhile String.isEmpty).reverse

/-- The tree with a file written; a file that is there is replaced. A path that insists on a folder
is refused even where nothing stands. -/
def write (t : Tree) (path : String) (content : List UInt8) : Except IoKind Tree :=
  match refusal? path with
  | some kind => .error kind
  | none =>
    match t.placeOf (dropSlashes (Path.parts path)) with
    | .error kind => .error kind
    | .ok place =>
      if Path.endsInSlash path || t.look place = some .folder then .error .isADirectory
      else .ok (t.set place (.file content))

/-- The tree with a folder made; nothing may be there. Slashes at the end do not matter. -/
def makeFolder (t : Tree) (parts : List String) : Except IoKind Tree :=
  match t.placeOf (dropSlashes parts) with
  | .error kind => .error kind
  | .ok place =>
    if (t.look place).isSome then .error .alreadyExists else .ok (t.set place .folder)

def isFolder (t : Tree) (parts : List String) : Bool :=
  match t.placeOf parts with
  | .error _ => false
  | .ok place => t.look place = some .folder

/-- The outcome of making a folder, where one that is there is as good. -/
def settle (t : Tree) (parts : List String) : Tree × Except IoKind Unit :=
  match t.makeFolder parts with
  | .ok made => (made, .ok ())
  | .error kind => (t, if t.isFolder parts then .ok () else .error kind)

/-- Makes the folders that some steps lead through, the last step first in the list. The last one is
tried first: only when something above it is missing is that made, and the last one tried again. -/
def makeAlong (t : Tree) : List String → Tree × Except IoKind Unit
  | [] => (t, .ok ())
  | step :: above =>
    let parts := (step :: above).reverse
    match t.makeFolder parts with
    | .error .notFound =>
      match t.makeAlong above with
      | (t, .ok ()) => t.settle parts
      | failed => failed
    | _ => t.settle parts

/-- Makes a folder, and those above it as needed. The empty path needs none. -/
def makeFolders (t : Tree) (path : String) : Tree × Except IoKind Unit :=
  if path.isEmpty then (t, .ok ())
  else
    match refusal? path with
    | some kind => (t, .error kind)
    | none =>
      let parts := Path.parts path
      match t.makeFolder parts with
      | .error .notFound =>
        match t.makeAlong (Path.steps path).dropLast.reverse with
        | (t, .ok ()) => t.settle parts
        | failed => failed
      | _ => t.settle parts

/-- Writes a file, and makes the folders above it as needed. -/
def writeBelow (t : Tree) (path : String) (content : List UInt8) : Tree × Except IoKind Unit :=
  match t.makeFolders (Path.parent path) with
  | (t, .ok ()) =>
    match t.write path content with
    | .ok written => (written, .ok ())
    | .error kind => (t, .error kind)
  | failed => failed

/-! ## Removing -/

/-- Removes a file, or a folder and what is in it. Of an anchor only what is in it can be
removed. -/
def removeAll (t : Tree) (path : String) : Tree × Except IoKind Unit :=
  match t.locate path with
  | .error kind => (t, .error kind)
  | .ok place =>
    if place.isAnchor then (t.remove place, .error .invalidInput)
    else if (t.get place).isSome then (t.remove place, .ok ())
    else (t, .error .notFound)

end Tree
end Beamline
