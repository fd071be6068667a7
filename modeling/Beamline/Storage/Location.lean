import Beamline.Storage.Path

/-!
# Locations — where a path leads

A location is the names that lead to a place from the working folder, with every detour taken out.
A path may still climb above the working folder, or start at the root. What the folders up there are
called is not known, so such a location keeps what is known in front of its names: `..` for every
step up, or `/` for the root. Neither can be a name, so nothing is confused.

The working folder, the folders above it and the root are *anchors*. They are folders in every tree,
whatever it lists.
-/

set_option autoImplicit false

namespace Beamline

/-- A place, by the names that lead to it from the working folder. -/
abbrev Location := List String

namespace Location

def root : Location := ["/"]

/-- Whether a place is the working folder, a folder above it, or the root. -/
def isAnchor (place : Location) : Bool :=
  match place.getLast? with
  | none => true
  | some name => name == ".." || name == "/"

/-- Whether a place is below the working folder. -/
def isInside (place : Location) : Bool :=
  match place.head? with
  | none => false
  | some name => name != ".." && name != "/"

/-- The folder that a place is in. Above the root is the root. -/
def above (place : Location) : Location :=
  if place = root then root
  else if isAnchor place then place ++ [".."]
  else place.dropLast

/-- Where a part leads from a place. -/
def follow (place : Location) (part : String) : Location :=
  if part = "/" then root
  else if Path.stays part then place
  else if part = ".." then above place
  else place ++ [part]

end Location
end Beamline
