import Beamline.Arithmetic
import Beamline.Failure

/-!
# Distributions — one record per particle

A distribution is a named list of particles, each with its arrival time and momentum. Keeping
particles rather than two columns makes it impossible for the columns to differ in length; the one
place where that can go wrong, `ofColumns`, is where two columns are put together.

The derived quantities are functions of one particle and a baseline. A column of a quantity is that
function applied along the list, so columns keep the order and the length of the distribution by
construction.
-/

set_option autoImplicit false

namespace Beamline

/-- One particle: arrival time deviation in seconds, normalized momentum. -/
structure Particle (α : Type) where
  dt : α
  p : α
deriving DecidableEq

structure Distribution (α : Type) where
  name : String
  particles : List (Particle α)

/-- The means that derived quantities are measured against. -/
structure Baseline (α : Type) where
  dtMean : α
  pMean : α

namespace Distribution

variable {α : Type}

/-- The distribution with the columns given; they must be equally long. -/
def ofColumns (name : String) (dt p : List α) : Outcome (Distribution α) :=
  if dt.length = p.length then .ok ⟨name, List.zipWith Particle.mk dt p⟩
  else Outcome.fail (.columnLengths name dt.length p.length)

def size (d : Distribution α) : Nat := d.particles.length

def dt (d : Distribution α) : List α := d.particles.map Particle.dt

def p (d : Distribution α) : List α := d.particles.map Particle.p

theorem length_dt (d : Distribution α) : d.dt.length = d.size := List.length_map _

theorem length_p (d : Distribution α) : d.p.length = d.size := List.length_map _

def baseline [Arithmetic α] (d : Distribution α) : Baseline α := ⟨mean d.dt, mean d.p⟩

end Distribution

/-! ## Units

The speed of light is the rounded value that the plots have always been made with. -/

section

variable {α : Type} [Arithmetic α]

def speedOfLight : α := 3e8

def femtosecondsPerSecond : α := 1e15

def micrometresPerMetre : α := 1e6

def electronMassMeV : α := 0.511

def mevPerGeV : α := 1000.0

/-! ## Quantities of one particle -/

/-- Arrival time against the bunch mean, fs. -/
def centeredTimeFs (dtMean t : α) : α := (t - dtMean) * femtosecondsPerSecond

def timeFs (t : α) : α := t * femtosecondsPerSecond

def energyGeV (p : α) : α := p * electronMassMeV / mevPerGeV

/-- Offset along the beam from the bunch centre, µm. Late particles are behind the centre. -/
def longitudinalOffsetUm (dtMean t : α) : α :=
  -(t - dtMean) * speedOfLight * micrometresPerMetre

/-- Offset along the beam from the nominal position, µm. -/
def rawLongitudinalOffsetUm (t : α) : α := -t * speedOfLight * micrometresPerMetre

/-- Deviation from the mean momentum, percent. -/
def fracMomentumDevPct (pMean p : α) : α := 1e2 * (p - pMean) / pMean

/-- How far a particle slips along the beam between two arrival times, µm. -/
def slipUm (final initial : α) : α := -(final - initial) * speedOfLight * micrometresPerMetre

end

/-! ## All quantities of a distribution -/

structure Derived (α : Type) where
  name : String
  baseline : Baseline α
  centeredTimeFs : List α
  timeFs : List α
  energyGeV : List α
  longitudinalOffsetUm : List α
  rawLongitudinalOffsetUm : List α
  fracMomentumDevPct : List α

section

variable {α : Type} [Arithmetic α]

def Distribution.derive (d : Distribution α) : Derived α :=
  let b := d.baseline
  { name := d.name
    baseline := b
    centeredTimeFs := d.dt.map (Beamline.centeredTimeFs b.dtMean)
    timeFs := d.dt.map Beamline.timeFs
    energyGeV := d.p.map Beamline.energyGeV
    longitudinalOffsetUm := d.dt.map (Beamline.longitudinalOffsetUm b.dtMean)
    rawLongitudinalOffsetUm := d.dt.map Beamline.rawLongitudinalOffsetUm
    fracMomentumDevPct := d.p.map (Beamline.fracMomentumDevPct b.pMean) }

/-- The slip of each particle from `initial` to `final`, paired by record over the common prefix. -/
def deltaZUm (final initial : Distribution α) : List α :=
  List.zipWith slipUm final.dt initial.dt

end

end Beamline
