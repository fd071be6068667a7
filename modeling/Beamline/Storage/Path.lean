/-!
# Paths — names of places, as they are written

A path is text, and messages show it exactly as it was written; so it stays text, and is cut into
parts only where it is followed. Cutting keeps empty parts: a path that ends in a slash ends in an
empty part, which is how such a path insists on a folder. A path that starts with a slash starts at
the root, and its first part is the slash itself, which is no name.
-/

set_option autoImplicit false

namespace Beamline
namespace Path

def splitSlash : List Char → List (List Char)
  | [] => [[]]
  | c :: cs =>
    if c = '/' then [] :: splitSlash cs
    else
      match splitSlash cs with
      | [] => [[c]]
      | part :: parts => (c :: part) :: parts

def parts (path : String) : List String :=
  match (splitSlash path.toList).map String.ofList with
  | "" :: part :: rest => "/" :: part :: rest
  | relative => relative

/-- Whether a part stays where it is. -/
def stays (part : String) : Bool := part == "" || part == "."

/-- The parts of a path that lead somewhere. -/
def steps (path : String) : List String := (parts path).filter fun part => ! stays part

/-- Whether a path insists on a folder. -/
def endsInSlash (path : String) : Bool := path.toList.getLast? == some '/'

def join (folder name : String) : String :=
  if folder.isEmpty || endsInSlash folder then folder ++ name else folder ++ "/" ++ name

/-- The path without its last step. -/
def parent (path : String) : String := "/".intercalate (steps path).dropLast

end Path
end Beamline
