import Mathlib.Tactic
import Beamline.Run.Comparison
import Beamline.Proofs.Outcome

/-!
# Inputs — nothing is done before everything is known

A comparison needs three things: two tables and a bin. They are asked for in this order, the first
that is missing ends the run, and up to there a run has only read. So there are four ways a run can
go, and in three of them the tree is the one it started with (`run_of_inputs`).

What an input is and how it fails are said without the loader (`IsTable`, `Fails`): a table is what
stands in a file, and of what is no table it matters whether it could be opened.
-/

set_option autoImplicit false

namespace Beamline

/-! ## One input -/

namespace Distribution

variable {name path : String} {t : Tree} {d : Distribution Binary64} {f : Failure}

/-- A file stands at the path, and its content is the table of a distribution. The name is not read
from the file; it is what the table is called in failures. -/
def IsTable (name path : String) (t : Tree) (d : Distribution Binary64) : Prop :=
  ∃ content, t.find path = .ok (.file content) ∧ ofTable name content = .ok d

/-- What goes wrong where no table is: nothing can be opened, or what is there is not one. A folder
can be opened and fails when it is read, so it is blamed as a bad table is. -/
inductive Fails (name path : String) (t : Tree) : Failure → Prop
  | absent {kind : IoKind} (h : t.find path = .error kind) :
      Fails name path t ⟨[.openDistribution path], .io kind, none⟩
  | folder (h : t.find path = .ok .folder) :
      Fails name path t ⟨[.readDistribution path, .readHeaderRow], .io .isADirectory, none⟩
  | malformed {content : List UInt8} {f : Failure} (h : t.find path = .ok (.file content))
      (hf : ofTable name content = .error f) : Fails name path t (f.during (.readDistribution path))

/-- Loading is finding a table. -/
theorem load_eq_ok_iff : load name path t = .ok d ↔ IsTable name path t d := by
  unfold load IsTable
  cases hfind : t.find path with
  | error kind => simp [Outcome.during, Outcome.fail]
  | ok entry =>
    cases entry with
    | folder => simp [Outcome.during, Outcome.fail]
    | file content => simp [during_eq_ok_iff]

/-- And it fails for what goes wrong there, in these ways and no other. -/
theorem load_eq_error_iff : load name path t = .error f ↔ Fails name path t f := by
  unfold load
  constructor
  · intro h
    cases hfind : t.find path with
    | error kind =>
      rw [hfind] at h
      cases h
      exact .absent hfind
    | ok entry =>
      rw [hfind] at h
      cases entry with
      | folder =>
        cases h
        exact .folder hfind
      | file content =>
        obtain ⟨g, htable, rfl⟩ := during_eq_error_iff.mp h
        exact .malformed hfind htable
  · intro h
    cases h with
    | absent hfind => rw [hfind]; rfl
    | folder hfind => rw [hfind]; rfl
    | malformed hfind htable =>
      rw [hfind]
      exact during_eq_error_iff.mpr ⟨_, htable, rfl⟩

/-- A path leads to a table or fails, and never both (`Fails.not_isTable`). -/
theorem exists_isTable_or_fails (name path : String) (t : Tree) :
    (∃ d, IsTable name path t d) ∨ ∃ f, Fails name path t f := by
  cases h : load name path t with
  | ok d => exact Or.inl ⟨d, load_eq_ok_iff.mp h⟩
  | error f => exact Or.inr ⟨f, load_eq_error_iff.mp h⟩

theorem Fails.not_isTable (h : Fails name path t f) : ¬ IsTable name path t d := by
  intro htable
  have hok := load_eq_ok_iff.mpr htable
  rw [load_eq_error_iff.mpr h] at hok
  cases hok

theorem name_ofTable {bytes : List UInt8} (h : ofTable name bytes = .ok d) : d.name = name := by
  unfold ofTable at h
  obtain ⟨l, -, h⟩ := bind_eq_ok_iff.mp h
  split at h
  · cases h
  · obtain ⟨particles, -, h⟩ := bind_eq_ok_iff.mp h
    cases h
    rfl

/-- To know a table it is enough to know its particles. With these a particular file is shown to be
a table by evaluating how it is read. -/
theorem isTable_of_particles (name : String) {content : List UInt8}
    {particles : List (Particle Binary64)} (hfind : t.find path = .ok (.file content))
    (h : ((ofTable name content).map Distribution.particles).toOption = some particles) :
    IsTable name path t ⟨name, particles⟩ := by
  cases htable : ofTable name content with
  | error f =>
    rw [htable] at h
    cases h
  | ok d =>
    rw [htable] at h
    cases d with
    | mk name' particles' =>
      cases h
      cases name_ofTable htable
      exact ⟨content, hfind, htable⟩

theorem IsTable.name_eq (h : IsTable name path t d) : d.name = name := by
  obtain ⟨content, -, htable⟩ := h
  exact name_ofTable htable

end Distribution

/-! ## The report -/

theorem Histogram.ofValues_eq_ok_iff {values : List Binary64} {bins : Nat}
    {h : Histogram Binary64} :
    ofValues values bins = .ok h ↔ density? values bins = some h := by
  unfold ofValues
  cases density? values bins <;> simp [Outcome.fail]

theorem Histogram.exists_density? (values : List Binary64) {bins : Nat} (h : 1 ≤ bins) :
    ∃ r, density? values bins = some r :=
  ⟨_, if_neg (by omega)⟩

namespace Comparison

/-- A report says of two distributions what is derived from them. The slip is that of the final one
against the initial one, as far as both go. -/
structure Report.Of (r : Report) (initial final : Distribution Binary64) (bins : Nat) : Prop where
  initial_eq : r.initial = initial.derive
  final_eq : r.final = final.derive
  slip_eq : r.slip = deltaZUm final initial
  initialTime_eq : Histogram.density? initial.derive.centeredTimeFs bins = some r.initialTime
  initialEnergy_eq : Histogram.density? initial.derive.energyGeV bins = some r.initialEnergy
  finalTime_eq : Histogram.density? final.derive.centeredTimeFs bins = some r.finalTime
  finalEnergy_eq : Histogram.density? final.derive.energyGeV bins = some r.finalEnergy

section

variable (initial final : Distribution Binary64) {bins : Nat}

theorem Report.of_ofDistributions {initial final : Distribution Binary64} {r : Report}
    (h : Report.ofDistributions initial final bins = .ok r) : r.Of initial final bins := by
  obtain ⟨initialTime, hinitialTime, h⟩ := bind_eq_ok_iff.mp h
  obtain ⟨initialEnergy, hinitialEnergy, h⟩ := bind_eq_ok_iff.mp h
  obtain ⟨finalTime, hfinalTime, h⟩ := bind_eq_ok_iff.mp h
  obtain ⟨finalEnergy, hfinalEnergy, h⟩ := bind_eq_ok_iff.mp h
  cases h
  rw [Histogram.ofValues_eq_ok_iff] at hinitialTime hinitialEnergy hfinalTime hfinalEnergy
  exact ⟨rfl, rfl, rfl, hinitialTime, hinitialEnergy, hfinalTime, hfinalEnergy⟩

/-- One bin is all that a report needs. Empty tables, values that are not finite and tables of
different lengths all have one. -/
theorem Report.exists_ofDistributions (h : 1 ≤ bins) :
    ∃ r, Report.ofDistributions initial final bins = .ok r := by
  have hsome : ∀ values : List Binary64, ∃ r, Histogram.ofValues values bins = .ok r := by
    intro values
    obtain ⟨r, hr⟩ := Histogram.exists_density? values h
    exact ⟨r, Histogram.ofValues_eq_ok_iff.mpr hr⟩
  obtain ⟨initialTime, hinitialTime⟩ := hsome initial.derive.centeredTimeFs
  obtain ⟨initialEnergy, hinitialEnergy⟩ := hsome initial.derive.energyGeV
  obtain ⟨finalTime, hfinalTime⟩ := hsome final.derive.centeredTimeFs
  obtain ⟨finalEnergy, hfinalEnergy⟩ := hsome final.derive.energyGeV
  unfold Report.ofDistributions
  simp only [hinitialTime, hinitialEnergy, hfinalTime, hfinalEnergy, ok_bind]
  exact ⟨_, rfl⟩

theorem Report.ofDistributions_zero :
    Report.ofDistributions initial final 0 = .error (Failure.of .noBins) := rfl

end

/-! ## The run -/

/-- What is reported of two tables: how many particles each has, and that the numbers differ. All of
it comes before computing, so it is reported even if there is no bin. -/
def inputLog (s : Settings) (initial final : Distribution Binary64) : List Event :=
  [.loadedParticles initial.size s.initialPath, .loadedParticles final.size s.finalPath] ++
    if initial.size = final.size then []
    else [.unequalLengths "final" final.size "initial" initial.size]

section

open Beamline.Distribution

variable {s : Settings} {t : Tree} {initial final : Distribution Binary64} {f : Failure}

/-- Both tables are there, and what is left depends on the number of bins. -/
theorem report_of_isTable (hinitial : IsTable "initial" s.initialPath t initial)
    (hfinal : IsTable "final" s.finalPath t final) :
    report s t = (inputLog s initial final, Report.ofDistributions initial final s.bins) := by
  have hpairing : Event.ofPairing final initial = if initial.size = final.size then []
      else [.unequalLengths "final" final.size "initial" initial.size] := by
    unfold Event.ofPairing
    rw [hinitial.name_eq, hfinal.name_eq]
    simp only [eq_comm]
  unfold report
  rw [load_eq_ok_iff.mpr hinitial]
  dsimp only
  rw [load_eq_ok_iff.mpr hfinal]
  dsimp only
  rw [hpairing]
  rfl

variable (s t)

/-- The ways that computing can go, in the order in which they end a run. They exclude one another,
since a path never both fails and leads to a table. -/
theorem report_cases :
    (∃ f, Fails "initial" s.initialPath t f ∧ report s t = ([], .error f)) ∨
    (∃ initial f, IsTable "initial" s.initialPath t initial ∧ Fails "final" s.finalPath t f ∧
      report s t = ([.loadedParticles initial.size s.initialPath], .error f)) ∨
    (∃ initial final, IsTable "initial" s.initialPath t initial ∧
      IsTable "final" s.finalPath t final ∧ s.bins = 0 ∧
      report s t = (inputLog s initial final, .error (Failure.of .noBins))) ∨
    ∃ initial final r, IsTable "initial" s.initialPath t initial ∧
      IsTable "final" s.finalPath t final ∧ 1 ≤ s.bins ∧ r.Of initial final s.bins ∧
      report s t = (inputLog s initial final, .ok r) := by
  rcases exists_isTable_or_fails "initial" s.initialPath t with ⟨initial, hinitial⟩ | ⟨f, hf⟩
  case inr =>
    refine Or.inl ⟨f, hf, ?_⟩
    unfold report
    rw [load_eq_error_iff.mpr hf]
  rcases exists_isTable_or_fails "final" s.finalPath t with ⟨final, hfinal⟩ | ⟨f, hf⟩
  case inr =>
    refine Or.inr (Or.inl ⟨initial, f, hinitial, hf, ?_⟩)
    unfold report
    rw [load_eq_ok_iff.mpr hinitial]
    dsimp only
    rw [load_eq_error_iff.mpr hf]
  have hreport := report_of_isTable hinitial hfinal
  rcases Nat.eq_zero_or_pos s.bins with hbins | hbins
  · rw [hbins, Report.ofDistributions_zero] at hreport
    exact Or.inr (Or.inr (Or.inl ⟨initial, final, hinitial, hfinal, hbins, hreport⟩))
  · obtain ⟨r, hr⟩ := Report.exists_ofDistributions initial final hbins
    rw [hr] at hreport
    exact Or.inr (Or.inr (Or.inr
      ⟨initial, final, r, hinitial, hfinal, hbins, Report.of_ofDistributions hr, hreport⟩))

/-- So computing comes to its end exactly if none of the three is missing. -/
theorem exists_report_iff :
    (∃ r, (report s t).2 = .ok r) ↔
      (∃ d, IsTable "initial" s.initialPath t d) ∧ (∃ d, IsTable "final" s.finalPath t d) ∧
        1 ≤ s.bins := by
  have herror : ∀ {log : List Event} {f : Failure}, report s t = (log, .error f) →
      ¬ ∃ r, (report s t).2 = .ok r := by
    intro log f h hr
    obtain ⟨r, hr⟩ := hr
    rw [h] at hr
    cases hr
  rcases report_cases s t with ⟨f, hf, h⟩ | ⟨initial, f, -, hf, h⟩ | ⟨_, _, -, -, hbins, h⟩ |
    ⟨initial, final, r, hinitial, hfinal, hbins, -, h⟩
  · exact ⟨fun hr => absurd hr (herror h), fun ⟨⟨d, hd⟩, _⟩ => absurd hd hf.not_isTable⟩
  · exact ⟨fun hr => absurd hr (herror h), fun ⟨_, ⟨d, hd⟩, _⟩ => absurd hd hf.not_isTable⟩
  · exact ⟨fun hr => absurd hr (herror h), fun hgood => absurd hgood.2.2 (by omega)⟩
  · exact ⟨fun _ => ⟨⟨initial, hinitial⟩, ⟨final, hfinal⟩, hbins⟩, fun _ => ⟨r, by rw [h]⟩⟩

variable {s t} (renderer : Renderer)

/-- A run that has not got past computing is at its end, and has not used its renderer. -/
theorem run_of_report_error {log : List Event} (h : report s t = (log, .error f)) :
    run s t renderer = ⟨⟨t, log⟩, .error f⟩ := by
  unfold run
  rw [h]

theorem run_of_report_ok {log : List Event} {r : Report} (h : report s t = (log, .ok r)) :
    run s t renderer = ⟨(Action.performAll renderer ⟨t, log⟩ (actions s r)).1,
      (Action.performAll renderer ⟨t, log⟩ (actions s r)).2.map fun _ => figurePaths s⟩ := by
  unfold run
  rw [h]

/-- **A comparison writes nothing unless its inputs are good.** It gets past computing exactly when
both paths lead to tables and there is a bin. Otherwise it fails for the first of the three that is
missing, in this order, with the tree as it was and nothing in the log but what was found out about
the tables until then. No renderer is asked before that. -/
theorem run_of_inputs (s : Settings) (t : Tree) (renderer : Renderer) :
    ((∃ r, (report s t).2 = .ok r) ↔
      (∃ d, IsTable "initial" s.initialPath t d) ∧ (∃ d, IsTable "final" s.finalPath t d) ∧
        1 ≤ s.bins) ∧
    ((∃ f, Fails "initial" s.initialPath t f ∧ run s t renderer = ⟨⟨t, []⟩, .error f⟩) ∨
      (∃ initial f, IsTable "initial" s.initialPath t initial ∧ Fails "final" s.finalPath t f ∧
        run s t renderer = ⟨⟨t, [.loadedParticles initial.size s.initialPath]⟩, .error f⟩) ∨
      (∃ initial final f, IsTable "initial" s.initialPath t initial ∧
        IsTable "final" s.finalPath t final ∧ s.bins = 0 ∧
        f.message = "Histogram needs at least one bin" ∧
        run s t renderer = ⟨⟨t, inputLog s initial final⟩, .error f⟩) ∨
      ∃ initial final r, IsTable "initial" s.initialPath t initial ∧
        IsTable "final" s.finalPath t final ∧ 1 ≤ s.bins ∧ r.Of initial final s.bins ∧
        run s t renderer =
          ⟨(Action.performAll renderer ⟨t, inputLog s initial final⟩ (actions s r)).1,
          (Action.performAll renderer ⟨t, inputLog s initial final⟩ (actions s r)).2.map
            fun _ => figurePaths s⟩) := by
  refine ⟨exists_report_iff s t, ?_⟩
  rcases report_cases s t with ⟨f, hf, h⟩ | ⟨initial, f, hinitial, hf, h⟩ |
    ⟨initial, final, hinitial, hfinal, hbins, h⟩ |
    ⟨initial, final, r, hinitial, hfinal, hbins, hof, h⟩
  · exact Or.inl ⟨f, hf, run_of_report_error renderer h⟩
  · exact Or.inr (Or.inl ⟨initial, f, hinitial, hf, run_of_report_error renderer h⟩)
  · exact Or.inr (Or.inr (Or.inl
      ⟨initial, final, _, hinitial, hfinal, hbins, rfl, run_of_report_error renderer h⟩))
  · exact Or.inr (Or.inr (Or.inr
      ⟨initial, final, r, hinitial, hfinal, hbins, hof, run_of_report_ok renderer h⟩))

end

end Comparison
end Beamline
