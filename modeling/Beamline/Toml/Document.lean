import Beamline.Toml.Value

/-!
# Documents — lines, sections and the tree they make

Reading has two phases. First the lines are gathered into sections, each a header and the pairs
below it; pairs before the first header belong to a section without one. Then the sections are put
into one tree, a header at a time.

Headers and pairs do not see each other: a header `[a]` neither extends nor contradicts a pair `a`
in the table around it, and both end up as pairs of one key. Who reads the tree decides whether a
key that occurs twice matters.
-/

set_option autoImplicit false

namespace Beamline
namespace Toml

/-! ## Sections -/

structure Section where
  /-- Whether the header has double brackets. -/
  repeated : Bool
  path : List String
  pairs : Pairs

/-- The end of a line, after blanks and a comment. -/
def endLine? (ts : List Token) : Option (List Token) :=
  let ts :=
    match skipBlank ts with
    | .comment :: ts => ts
    | ts => ts
  match ts with
  | [] => some []
  | .newline :: ts => some ts
  | _ => none

/-- A header's path and its closing brackets. -/
def headerPath? (repeated : Bool) (ts : List Token) : Option (List String × List Token) := do
  let ((first, path), ts) ← path? (skipBlank ts)
  match ts, repeated with
  | .mark ']' :: .mark ']' :: ts, true => return (first :: path, ← endLine? ts)
  | .mark ']' :: ts, false => return (first :: path, ← endLine? ts)
  | _, _ => none

def header? : List Token → Option (Section × List Token)
  | .mark '[' :: .mark '[' :: ts =>
    (headerPath? true ts).map fun (path, ts) => (⟨true, path, []⟩, ts)
  | .mark '[' :: ts => (headerPath? false ts).map fun (path, ts) => (⟨false, path, []⟩, ts)
  | _ => none

/-- A line with a pair, put into the section it belongs to. -/
def pairLine? (s : Section) (ts : List Token) : Option (Section × List Token) := do
  let ((key, path), ts) ← path? ts
  let ts ← equals? ts
  let (v, ts) ← value? (2 * ts.length + 2) ts
  let ts ← endLine? ts
  let pairs ← insertDotted v key path s.pairs
  return ({ s with pairs := pairs }, ts)

/-- The sections of some lines; the first ones go into the section that is open. -/
def sections? : Nat → Section → List Token → Option (List Section)
  | 0, _, _ => none
  | fuel + 1, s, ts =>
    match skipLayout ts with
    | [] => some [s]
    | .mark '[' :: ts =>
      match header? (.mark '[' :: ts) with
      | none => none
      | some (next, ts) => (sections? fuel next ts).map (s :: ·)
    | ts =>
      match pairLine? s ts with
      | none => none
      | some (s, ts) => sections? fuel s ts

/-! ## Trees -/

/-- Whether a pair was made by a header. -/
def madeByHeader : String × Value → Bool
  | (_, .table .passed _) => true
  | (_, .table .header _) => true
  | (_, .tables _) => true
  | _ => false

/-- Puts a section into a tree. A table can be opened once, and only if it is not an array; an array
gains an element each time, and a path through it leads through its last element. -/
def insertSection (repeated : Bool) (pairs : Pairs) : String → List String → Pairs → Option Pairs
  | key, [], tree =>
    let here (pair : String × Value) : Bool := madeByHeader pair && pair.1 == key
    match tree.find? here with
    | none =>
      some (tree ++ [(key, if repeated then .tables [pairs] else .table .header pairs)])
    | some (_, .tables elements) =>
      if repeated then some (tree.replaceFirst here (.tables (elements ++ [pairs]))) else none
    | some (_, .table .passed inner) =>
      if repeated then none else some (tree.replaceFirst here (.table .header (pairs ++ inner)))
    | some _ => none
  | key, next :: path, tree =>
    let here (pair : String × Value) : Bool := madeByHeader pair && pair.1 == key
    match tree.find? here with
    | none =>
      (insertSection repeated pairs next path []).map fun inner =>
        tree ++ [(key, .table .passed inner)]
    | some (_, .tables elements) =>
      (insertSection repeated pairs next path (elements.getLastD [])).map fun inner =>
        tree.replaceFirst here (.tables (elements.dropLast ++ [inner]))
    | some (_, .table origin inner) =>
      (insertSection repeated pairs next path inner).map fun inner =>
        tree.replaceFirst here (.table origin inner)
    | some _ => none

def Section.insert (tree : Pairs) (s : Section) : Option Pairs :=
  match s.path with
  | [] => some (tree ++ s.pairs)
  | key :: path => insertSection s.repeated s.pairs key path tree

/-- The pairs of a whole document, if it is one. -/
def parse? (cs : List Char) : Option Pairs := do
  let ts ← tokens? cs
  let sections ← sections? (ts.length + 1) ⟨false, [], []⟩ ts
  sections.foldlM Section.insert []

end Toml
end Beamline
