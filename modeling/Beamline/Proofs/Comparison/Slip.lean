import Beamline.Proofs.Binary64.Negation
import Beamline.Proofs.Comparison.Frame
import Beamline.Proofs.Distribution.Uniform

/-!
# Slip — how far particles fall behind between two beams

Two beams are paired by record, and one of them may be longer. What pairing leaves out is reported
once, with the number of records that it did take; in a run that compares the beams nothing else is
warned of (`Comparison.warnings_run`).

The slip of a particle is a rounded difference on its way through two products. Taken the other way
round it is the same number with the other sign, overflown or not (`slipUm_swap`). From a beam that
arrived at time zero the slip is the offset itself, to the last bit (`slipUm_zero`).
-/

set_option autoImplicit false

namespace Beamline

open Binary64

/-! ## One particle -/

/-- A difference is negated by being taken the other way round, and the products take no notice of
what that does to a zero. -/
theorem slipUm_swap (final initial : Binary64) :
    (slipUm initial final).SameNumber (-slipUm final initial) := by
  unfold slipUm
  rw [← Binary64.neg_mul, ← Binary64.neg_mul]
  exact ((sameNumber_sub_swap final initial).neg.mul speedOfLight).mul micrometresPerMetre

/-- From time zero the slip is the offset, to the last bit: taking off a positive zero changes
nothing, not even the sign of a zero. -/
theorem slipUm_zero (t : Binary64) : slipUm t (zero .plus) = rawLongitudinalOffsetUm t := by
  unfold slipUm rawLongitudinalOffsetUm
  rw [sub_zero_plus]

/-! ## Lists of unequal length -/

section

variable {α β γ : Type} (f : α → β → γ)

/-- Pairing with one value over and over is applying the function with that value, as far as both
lists go. -/
theorem zipWith_replicate_right (as : List α) (n : Nat) (b : β) :
    List.zipWith f as (List.replicate n b) = (as.take n).map (f · b) := by
  induction as generalizing n with
  | nil => simp
  | cons a as ih =>
    cases n with
    | zero => rfl
    | succ n => exact congrArg (f a b :: ·) (ih n)

/-- What the longer list has beyond the shorter is not paired, so more of it changes nothing. -/
theorem zipWith_append_left {as : List α} {bs : List β} (h : bs.length ≤ as.length)
    (more : List α) :
    List.zipWith f (as ++ more) bs = List.zipWith f as bs := by
  have hmin : min (as ++ more).length bs.length = min as.length bs.length := by
    rw [List.length_append]
    omega
  rw [List.zipWith_eq_zipWith_take_min, hmin, List.take_append_of_le_length (Nat.min_le_left _ _),
    ← List.zipWith_eq_zipWith_take_min]

theorem zipWith_append_right {as : List α} {bs : List β} (h : as.length ≤ bs.length)
    (more : List β) :
    List.zipWith f as (bs ++ more) = List.zipWith f as bs := by
  rw [List.zipWith_comm, zipWith_append_left _ h, ← List.zipWith_comm]

end

/-! ## Two beams -/

section

variable {final initial : Distribution Binary64}

theorem length_deltaZUm (final initial : Distribution Binary64) :
    (deltaZUm final initial).length = min final.size initial.size := by
  simp [deltaZUm, Distribution.dt, Distribution.size]

/-- The slips of all particles the other way round. Both lists are made from the same pairs of
times, so they can be compared pair by pair. -/
theorem deltaZUm_swap (final initial : Distribution Binary64) :
    List.Forall₂ SameNumber (deltaZUm initial final) ((deltaZUm final initial).map (- ·)) := by
  have hpairs : ∀ a b : Distribution Binary64,
      deltaZUm a b = (a.dt.zip b.dt).map fun times => slipUm times.1 times.2 :=
    fun a b => (List.map_uncurry_zip_eq_zipWith ..).symm
  have hswap : initial.dt.zip final.dt = (final.dt.zip initial.dt).map Prod.swap :=
    (List.zip_swap ..).symm
  rw [hpairs, hpairs, hswap, List.map_map, List.map_map, List.forall₂_map_left_iff,
    List.forall₂_map_right_iff, List.forall₂_same]
  exact fun times _ => slipUm_swap times.1 times.2

/-- From a beam that arrived at time zero the slips are the offsets of the other beam, as many as
there are pairs. -/
theorem deltaZUm_of_zero (h : ∀ particle ∈ initial.particles, particle.dt = zero .plus) :
    deltaZUm final initial = final.derive.rawLongitudinalOffsetUm.take initial.size := by
  unfold deltaZUm
  rw [Distribution.dt_eq_replicate h, zipWith_replicate_right, funext slipUm_zero, List.map_take]
  rfl

/-- An offset is one from a mean of zero. -/
theorem rawLongitudinalOffsetUm_column_eq (d : Distribution Binary64) :
    d.derive.rawLongitudinalOffsetUm = d.dt.map (longitudinalOffsetUm (zero .plus)) :=
  List.map_congr_left fun t _ => (slipUm_zero t).symm

/-- Beams of unequal lengths are warned of in one sentence, which says of both how long they are and
of the slips how many there will be. -/
theorem ofPairing_of_ne (h : final.size ≠ initial.size) :
    ∃ event, Event.ofPairing final initial = [event] ∧ event.level = .warning ∧
      event.text =
        s!"{final.name} has {final.size} particles but {initial.name} has {initial.size}; " ++
        s!"only the first {(deltaZUm final initial).length} are paired" := by
  refine ⟨.unequalLengths final.name final.size initial.name initial.size, if_neg h, rfl, ?_⟩
  rw [length_deltaZUm]
  rfl

end

/-! ## A run -/

namespace Comparison

open Beamline.Action (events performed)

/-- What is warned of in a log. -/
def warnings (log : List Event) : List Event := log.filter fun event => event.level = .warning

section

variable {renderer : Renderer} {s : Settings} {t : Tree} {initial final : Distribution Binary64}

/-- Before the first action a run has warned of the pairing, if at all. Loading only reports. -/
theorem warnings_inputLog (hinitial : initial.name = "initial") (hfinal : final.name = "final") :
    warnings (inputLog s initial final) = Event.ofPairing final initial := by
  unfold inputLog Event.ofPairing
  rw [hinitial, hfinal]
  by_cases h : initial.size = final.size
  · rw [if_pos h, if_pos h.symm]
    rfl
  · rw [if_neg h, if_neg (Ne.symm h)]
    rfl

/-- Actions report what is saved, and warn of nothing. -/
theorem warnings_performed (j : Journal) (r : Report) :
    warnings (events (performed renderer j (actions s r))) = [] := by
  refine List.filter_eq_nil_iff.mpr fun event hevent => ?_
  have hmem :=
    (Action.performed_isPrefix renderer j (actions s r)).subset (Action.mem_events_iff.mp hevent)
  rcases mem_actions hmem with ⟨-, heq | ⟨_, -, heq⟩ | heq⟩ | heq | ⟨_, -, heq⟩ | ⟨_, -, heq⟩
  case inl.inr.inr | inr.inr.inr =>
    cases heq
    simp [Event.level]
  all_goals cases heq

/-- **A run over two tables warns of their pairing and of nothing else**, wherever it ends. -/
theorem warnings_run (hinitial : Distribution.IsTable "initial" s.initialPath t initial)
    (hfinal : Distribution.IsTable "final" s.finalPath t final) :
    warnings (run s t renderer).journal.log = Event.ofPairing final initial := by
  have hreport := report_of_isTable hinitial hfinal
  have hinput : warnings (inputLog s initial final) = _ :=
    warnings_inputLog hinitial.name_eq hfinal.name_eq
  cases hof : Report.ofDistributions initial final s.bins with
  | error f =>
    rw [hof] at hreport
    rw [run_of_report_error renderer hreport, hinput]
  | ok r =>
    rw [hof] at hreport
    rw [run_of_report_ok renderer hreport, Action.log_performAll, warnings, List.filter_append,
      ← warnings, ← warnings, hinput, warnings_performed, List.append_nil]

end

end Comparison

/-! ## Both together -/

namespace Distribution

/-- What is known of the slips from one beam to another. -/
structure SlipsByRecord (final initial : Distribution Binary64) : Prop where
  length_eq : (deltaZUm final initial).length = min final.size initial.size
  /-- Nothing is reported of beams that pair up. -/
  silent : final.size = initial.size → Event.ofPairing final initial = []
  /-- Of others one thing is reported, with the number of slips that there are. -/
  warns : final.size ≠ initial.size → ∃ event, Event.ofPairing final initial = [event] ∧
    event.level = .warning ∧
    event.text =
      s!"{final.name} has {final.size} particles but {initial.name} has {initial.size}; " ++
      s!"only the first {(deltaZUm final initial).length} are paired"
  /-- A run that compares the beams warns of that and of nothing else. -/
  logged :
    ∀ (s : Settings) (t : Tree) (renderer : Renderer), IsTable "initial" s.initialPath t initial →
    IsTable "final" s.finalPath t final →
    Comparison.warnings (Comparison.run s t renderer).journal.log = Event.ofPairing final initial
  /-- The slips the other way round are the same numbers with the other sign. -/
  swap : List.Forall₂ SameNumber (deltaZUm initial final) ((deltaZUm final initial).map (- ·))
  /-- From time zero, slips are offsets. -/
  of_zero : (∀ particle ∈ initial.particles, particle.dt = zero .plus) →
    deltaZUm final initial = final.derive.rawLongitudinalOffsetUm.take initial.size
  /-- Offsets are offsets from a mean of zero. -/
  offset_eq :
    final.derive.rawLongitudinalOffsetUm = final.dt.map (longitudinalOffsetUm (zero .plus))
  /-- More records of the longer beam change nothing. -/
  append_final : initial.size ≤ final.size → ∀ more,
    deltaZUm { final with particles := final.particles ++ more } initial = deltaZUm final initial
  append_initial : final.size ≤ initial.size → ∀ more,
    deltaZUm final { initial with particles := initial.particles ++ more } = deltaZUm final initial

/-- **Slips are paired by record, and come out the same from either side.** Take any two beams, of
any lengths and any values. -/
theorem slipsByRecord (final initial : Distribution Binary64) : final.SlipsByRecord initial where
  length_eq := length_deltaZUm final initial
  silent := fun h => if_pos h
  warns := ofPairing_of_ne
  logged := fun _ _ _ => Comparison.warnings_run
  swap := deltaZUm_swap final initial
  of_zero := deltaZUm_of_zero
  offset_eq := rawLongitudinalOffsetUm_column_eq final
  append_final := by
    intro h more
    have hdt : dt { final with particles := final.particles ++ more } =
        final.dt ++ more.map Particle.dt :=
      List.map_append
    unfold deltaZUm
    rw [hdt]
    exact zipWith_append_left slipUm (by rwa [length_dt, length_dt]) _
  append_initial := by
    intro h more
    have hdt : dt { initial with particles := initial.particles ++ more } =
        initial.dt ++ more.map Particle.dt :=
      List.map_append
    unfold deltaZUm
    rw [hdt]
    exact zipWith_append_right slipUm (by rwa [length_dt, length_dt]) _

/-- Two particles after one that arrived at time zero. -/
theorem slipsByRecord_two_one :
    let final : Distribution Binary64 := ⟨"final", [⟨1e-15, 196.5⟩, ⟨infinite .minus, 196.5⟩]⟩
    let initial : Distribution Binary64 := ⟨"initial", [⟨zero .plus, 196.5⟩]⟩
    deltaZUm final initial = final.derive.rawLongitudinalOffsetUm.take 1 ∧
      ∃ event, Event.ofPairing final initial = [event] ∧
        event.text = "final has 2 particles but initial has 1; only the first 1 are paired" := by
  intro final initial
  have hslips := slipsByRecord final initial
  obtain ⟨event, hevent, -, htext⟩ := hslips.warns (by decide)
  have hcount : (deltaZUm final initial).length = 1 := hslips.length_eq
  refine ⟨hslips.of_zero (by simp [initial]), event, hevent, htext.trans ?_⟩
  rw [hcount]
  decide +kernel

end Distribution
end Beamline
