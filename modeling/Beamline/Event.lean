import Beamline.Beam.Distribution

/-!
# Events — what a run reports while it goes

A run reports what it has loaded and saved, and once that two distributions are of unequal length.
Events are values like failures are, with their wording in one place.
-/

set_option autoImplicit false

namespace Beamline

inductive Level where
  | info
  | warning
deriving DecidableEq, Repr

def Level.text : Level → String
  | info => "INFO"
  | warning => "WARN"

inductive Event where
  | loadedParticles (count : Nat) (path : String)
  | loadedSteps (steps particles : Nat) (path : String)
  /-- Two named distributions, the first paired with the second, differ in length. -/
  | unequalLengths (name : String) (size : Nat) (otherName : String) (otherSize : Nat)
  | savedDerived (folder : String)
  | savedFigure (path : String)
deriving DecidableEq, Repr

namespace Event

def level : Event → Level
  | unequalLengths .. => .warning
  | _ => .info

def text : Event → String
  | loadedParticles count path => s!"loaded {count} particles from {path}"
  | loadedSteps steps particles path =>
    s!"loaded {steps} steps for {particles} particles from {path}"
  | unequalLengths name size otherName otherSize =>
    s!"{name} has {size} particles but {otherName} has {otherSize}; " ++
      s!"only the first {Nat.min size otherSize} are paired"
  | savedDerived folder => s!"saved derived quantities to {folder}"
  | savedFigure path => s!"saved figure {path}"

/-- What pairing two distributions by record reports. -/
def ofPairing {α : Type} (a b : Distribution α) : List Event :=
  if a.size = b.size then [] else [unequalLengths a.name a.size b.name b.size]

end Event

end Beamline
