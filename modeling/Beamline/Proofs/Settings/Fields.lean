import Mathlib.Tactic
import Beamline.Settings

/-!
# Fields — what settings are given, and what they become

The settings are four parts of known keys, each for values of one kind (`Part.keys`). What is given
for them decides every setting: a key that is given nothing leaves the standard value, and one that
is given a value of its kind replaces just that (`overridden`). Reading one pair adds it to what is
given (`readPair_part`), so reading all of them leaves what the last of each key gives; and a value
of another kind is refused whatever was read before (`readPair_refuses`).
-/

set_option autoImplicit false

namespace Beamline
namespace Settings

/-! ## What is known -/

/-- What kind of value a key wants. No key wants a table, an array or a date. -/
inductive FieldKind where
  | text
  | number
  | count
  | flag

/-- The values of a kind. A number may be whole, a count is not negative. -/
def FieldKind.Accepts : FieldKind → Toml.Value → Prop
  | .text, v => ∃ t, v = .string t
  | .number, v => (∃ x, v = .float x) ∨ ∃ i, v = .integer i
  | .count, v => ∃ n : ℕ, v = .integer n
  | .flag, v => ∃ b, v = .boolean b

inductive Part where
  | paths
  | figure
  | analysis
  | output
deriving DecidableEq

namespace Part

def name : Part → String
  | paths => "paths"
  | figure => "figure"
  | analysis => "analysis"
  | output => "output"

/-- The keys of a part, and what each of them wants. -/
def keys : Part → List (String × FieldKind)
  | paths =>
    [("initial_dist", .text), ("final_dist", .text), ("figures_dir", .text), ("output_dir", .text)]
  | figure =>
    [("width_in", .number), ("height_in", .number), ("dpi", .number), ("font_pt", .number),
      ("marker_pt", .number), ("margin_in", .number), ("steps_width_in", .number),
      ("steps_height_in", .number), ("steps_dpi", .number)]
  | analysis => [("bins", .count)]
  | output => [("write_derived", .flag)]

/-- The keys of a part, without what they want. -/
def names (part : Part) : List String := part.keys.map Prod.fst

def fields : Part → List Field
  | paths => pathFields
  | figure => figureFields
  | analysis => analysisFields
  | output => outputFields

end Part

/-! ## What is given -/

/-- What each key of each part is given, if anything. Keys that are not known may be given values as
well; they have no effect. -/
abbrev Given := String → String → Option Toml.Value

/-- What a setting is, with something given or not. A value of another kind never gets here, as it
is refused when it is read. -/
def textOr (standard : String) : Option Toml.Value → String
  | some (.string t) => t
  | _ => standard

def numberOr (standard : Binary64) : Option Toml.Value → Binary64
  | some (.float x) => x
  | some (.integer i) => Binary64.ofInt i
  | _ => standard

def countOr (standard : ℕ) : Option Toml.Value → ℕ
  | some (.integer (.ofNat n)) => n
  | _ => standard

def flagOr (standard : Bool) : Option Toml.Value → Bool
  | some (.boolean b) => b
  | _ => standard

/-- The standard settings with what is given in their place. -/
def overridden (g : Given) : Settings where
  initialPath := textOr standard.initialPath (g "paths" "initial_dist")
  finalPath := textOr standard.finalPath (g "paths" "final_dist")
  figuresFolder := textOr standard.figuresFolder (g "paths" "figures_dir")
  outputFolder := textOr standard.outputFolder (g "paths" "output_dir")
  sizes :=
    { widthIn := numberOr standard.sizes.widthIn (g "figure" "width_in")
      heightIn := numberOr standard.sizes.heightIn (g "figure" "height_in")
      dpi := numberOr standard.sizes.dpi (g "figure" "dpi")
      fontPt := numberOr standard.sizes.fontPt (g "figure" "font_pt")
      markerPt := numberOr standard.sizes.markerPt (g "figure" "marker_pt")
      marginIn := numberOr standard.sizes.marginIn (g "figure" "margin_in")
      stepsWidthIn := numberOr standard.sizes.stepsWidthIn (g "figure" "steps_width_in")
      stepsHeightIn := numberOr standard.sizes.stepsHeightIn (g "figure" "steps_height_in")
      stepsDpi := numberOr standard.sizes.stepsDpi (g "figure" "steps_dpi") }
  bins := countOr standard.bins (g "analysis" "bins")
  writeDerived := flagOr standard.writeDerived (g "output" "write_derived")

namespace Given

def nothing : Given := fun _ _ => none

/-- One more thing given, in the place of what was. -/
def set (g : Given) (part key : String) (v : Toml.Value) : Given := fun part' key' =>
  if part' = part ∧ key' = key then some v else g part' key'

/-- All that a table gives a part, pair by pair. A key that is given twice has the last value; such
tables are refused, but the reader finds that out by counting, not here. -/
def setAll (g : Given) (part : String) (pairs : Toml.Pairs) : Given :=
  pairs.foldl (fun g pair => g.set part pair.1 pair.2) g

end Given

/-- What is given is of the kinds that the known keys want. This is what decides whether settings
are accepted; what other keys are given does not matter. -/
def Given.Fits (g : Given) : Prop :=
  ∀ part : Part, ∀ field ∈ part.keys, ∀ v, g part.name field.1 = some v → field.2.Accepts v

theorem overridden_nothing : overridden Given.nothing = standard := rfl

section

variable {g g' : Given} {part : Part} {key name : String} {v : Toml.Value} {s : Settings}
  {kind : FieldKind} {pairs : Toml.Pairs} {pair : String × Toml.Value}

/-- Only what the known keys are given matters, so a document is as good as another that agrees with
it on these. -/
theorem overridden_congr
    (h : ∀ part : Part, ∀ field ∈ part.keys, g part.name field.1 = g' part.name field.1) :
    overridden g = overridden g' := by
  have hpaths := h .paths
  have hfigure := h .figure
  have hanalysis := h .analysis
  have houtput := h .output
  simp only [Part.keys, Part.name, List.forall_mem_cons] at hpaths hfigure hanalysis houtput
  simp [overridden, hpaths, hfigure, hanalysis, houtput]

/-! ## One pair -/

theorem Part.name_injective {part part' : Part} (h : part.name = part'.name) : part = part' := by
  cases part <;> cases part' <;> first | rfl | exact absurd h (by decide)

theorem fields_names (part : Part) : part.fields.map Prod.fst = part.names := by
  cases part <;> rfl

/-- **A value of its kind is put in the place of its key**, and everything else stays. Each of the
keys is read by a function of its own, so this goes through all of them. -/
theorem readPair_known (h : (key, kind) ∈ part.keys) (hv : kind.Accepts v) :
    readPair part.fields (overridden g) (key, v) = some (overridden (g.set part.name key v)) := by
  cases part with
  | paths =>
    simp only [Part.keys, List.mem_cons, Prod.mk.injEq, List.not_mem_nil, or_false] at h
    rcases h with ⟨rfl, rfl⟩ | ⟨rfl, rfl⟩ | ⟨rfl, rfl⟩ | ⟨rfl, rfl⟩ <;>
    · obtain ⟨t, rfl⟩ := hv
      rfl
  | figure =>
    simp only [Part.keys, List.mem_cons, Prod.mk.injEq, List.not_mem_nil, or_false] at h
    rcases h with ⟨rfl, rfl⟩ | ⟨rfl, rfl⟩ | ⟨rfl, rfl⟩ | ⟨rfl, rfl⟩ | ⟨rfl, rfl⟩ | ⟨rfl, rfl⟩ |
      ⟨rfl, rfl⟩ |
      ⟨rfl, rfl⟩ | ⟨rfl, rfl⟩ <;>
    · obtain ⟨x, rfl⟩ | ⟨i, rfl⟩ := hv
      · rfl
      · rfl
  | analysis =>
    simp only [Part.keys, List.mem_cons, Prod.mk.injEq, List.not_mem_nil, or_false] at h
    obtain ⟨rfl, rfl⟩ := h
    obtain ⟨n, rfl⟩ := hv
    rfl
  | output =>
    simp only [Part.keys, List.mem_cons, Prod.mk.injEq, List.not_mem_nil, or_false] at h
    obtain ⟨rfl, rfl⟩ := h
    obtain ⟨b, rfl⟩ := hv
    rfl

/-- **A value of another kind is refused**, whatever the settings are so far. So it does not matter
what has been read before it, or what would have been read after. -/
theorem readPair_refuses (h : (key, kind) ∈ part.keys) (hv : ¬ kind.Accepts v) (s : Settings) :
    readPair part.fields s (key, v) = none := by
  cases part with
  | paths =>
    simp only [Part.keys, List.mem_cons, Prod.mk.injEq, List.not_mem_nil, or_false] at h
    rcases h with ⟨rfl, rfl⟩ | ⟨rfl, rfl⟩ | ⟨rfl, rfl⟩ | ⟨rfl, rfl⟩ <;>
    · cases v with
      | string t => exact absurd ⟨t, rfl⟩ hv
      | _ => rfl
  | figure =>
    simp only [Part.keys, List.mem_cons, Prod.mk.injEq, List.not_mem_nil, or_false] at h
    rcases h with ⟨rfl, rfl⟩ | ⟨rfl, rfl⟩ | ⟨rfl, rfl⟩ | ⟨rfl, rfl⟩ | ⟨rfl, rfl⟩ | ⟨rfl, rfl⟩ |
      ⟨rfl, rfl⟩ |
      ⟨rfl, rfl⟩ | ⟨rfl, rfl⟩ <;>
    · cases v with
      | float x => exact absurd (Or.inl ⟨x, rfl⟩) hv
      | integer i => exact absurd (Or.inr ⟨i, rfl⟩) hv
      | _ => rfl
  | analysis =>
    simp only [Part.keys, List.mem_cons, Prod.mk.injEq, List.not_mem_nil, or_false] at h
    obtain ⟨rfl, rfl⟩ := h
    cases v with
    | integer i =>
      cases i with
      | ofNat n => exact absurd ⟨n, rfl⟩ hv
      | negSucc n => rfl
    | _ => rfl
  | output =>
    simp only [Part.keys, List.mem_cons, Prod.mk.injEq, List.not_mem_nil, or_false] at h
    obtain ⟨rfl, rfl⟩ := h
    cases v with
    | boolean b => exact absurd ⟨b, rfl⟩ hv
    | _ => rfl

/-- A key that is not known is skipped, and changes nothing. -/
theorem readPair_unknown (h : key ∉ part.names) (v : Toml.Value) :
    readPair part.fields s (key, v) = some s ∧
      overridden (g.set part.name key v) = overridden g := by
  constructor
  · have hnone : part.fields.lookup key = none := by
      rw [List.lookup_eq_none_iff]
      intro field hfield
      have hmem := List.mem_map_of_mem (f := Prod.fst) hfield
      rw [fields_names] at hmem
      apply bne_iff_ne.mpr
      intro heq
      exact h (heq ▸ hmem)
    simp only [readPair, hnone]
  · apply overridden_congr
    intro part' field hfield
    apply if_neg
    rintro ⟨hpart, hkey⟩
    apply h
    rw [← hkey, ← Part.name_injective hpart]
    exact List.mem_map_of_mem hfield

/-- What is given for a part can be read if it is of the kinds that its keys want. -/
def Part.Accepts (part : Part) (key : String) (v : Toml.Value) : Prop :=
  ∀ kind, (key, kind) ∈ part.keys → kind.Accepts v

/-- **Reading a pair adds it to what is given**, whether its key is known or not. This is the step;
reading a table is its run. -/
theorem readPair_part (h : part.Accepts key v) :
    readPair part.fields (overridden g) (key, v) = some (overridden (g.set part.name key v)) := by
  by_cases hkey : key ∈ part.names
  · obtain ⟨⟨name, kind⟩, hmem, rfl⟩ := List.mem_map.mp hkey
    exact readPair_known hmem (h kind hmem)
  · obtain ⟨hread, hsame⟩ := readPair_unknown (s := overridden g) (g := g) hkey v
    rw [hread, hsame]

/-! ## All pairs of a part -/

theorem foldlM_readPair_part (h : ∀ pair ∈ pairs, part.Accepts pair.1 pair.2) :
    pairs.foldlM (readPair part.fields) (overridden g) =
      some (overridden (g.setAll part.name pairs)) := by
  induction pairs generalizing g with
  | nil => rfl
  | cons pair pairs ih =>
    obtain ⟨hfirst, hrest⟩ := List.forall_mem_cons.mp h
    rw [List.foldlM_cons, readPair_part hfirst]
    exact ih hrest

theorem foldlM_eq_none {α β : Type} {f : β → α → Option β} {l : List α}
    (h : ∃ a ∈ l, ∀ b, f b a = none) (b : β) :
    l.foldlM f b = none := by
  induction l generalizing b with
  | nil =>
    obtain ⟨a, ⟨⟩, -⟩ := h
  | cons a l ih =>
    obtain ⟨a', hmem, hnone⟩ := h
    rw [List.foldlM_cons]
    rcases List.mem_cons.mp hmem with rfl | hmem
    · rw [hnone]
      rfl
    · cases f b a with
      | none => rfl
      | some b' => exact ih ⟨a', hmem, hnone⟩ b'

/-- The last pair of a key decides what the key is given. -/
theorem setAll_eq (g : Given) (name : String) (pairs : Toml.Pairs) (key : String) :
    g.setAll name pairs name key =
      ((pairs.filter (·.1 == key)).getLast?.map (·.2)).or (g name key) := by
  induction pairs generalizing g with
  | nil => rfl
  | cons pair pairs ih =>
    have hstep : g.setAll name (pair :: pairs) = (g.set name pair.1 pair.2).setAll name pairs := rfl
    rw [hstep, ih]
    by_cases hkey : pair.1 = key
    · subst hkey
      have hset : g.set name pair.1 pair.2 name pair.1 = some pair.2 := if_pos ⟨rfl, rfl⟩
      rw [hset, List.filter_cons_of_pos (by simp), List.getLast?_cons]
      cases (pairs.filter (·.1 == pair.1)).getLast? <;> rfl
    · have hset : g.set name pair.1 pair.2 name key = g name key :=
        if_neg fun heq => hkey heq.2.symm
      rw [hset, List.filter_cons_of_neg (by simpa using hkey)]

theorem setAll_of_ne {name' : String} (hne : name' ≠ name) (g : Given) (pairs : Toml.Pairs) :
    g.setAll name pairs name' = g name' := by
  induction pairs generalizing g with
  | nil => rfl
  | cons pair pairs ih =>
    have hstep : g.setAll name (pair :: pairs) = (g.set name pair.1 pair.2).setAll name pairs := rfl
    rw [hstep, ih]
    funext key
    exact if_neg fun heq => hne heq.1

/-- No field is named twice if its pairs are one at most. -/
theorem namedOnce_of {fields : List Field}
    (h : ∀ name ∈ fields.map Prod.fst, (pairs.filter (·.1 == name)).length ≤ 1) :
    namedOnce fields pairs = true := by
  unfold namedOnce
  rw [List.all_eq_true]
  intro field hfield
  exact decide_eq_true (h field.1 (List.mem_map_of_mem hfield))

/-! ## Parts in a tree -/

/-- What a pair at the top of a tree gives. -/
def Given.addPart (g : Given) (pair : String × Toml.Value) : Given :=
  match pair.2 with
  | .table _ pairs => g.setAll pair.1 pairs
  | _ => g

theorem addPart_of_ne (hne : name ≠ pair.1) (g : Given) : g.addPart pair name = g name := by
  obtain ⟨name', v⟩ := pair
  cases v with
  | table origin pairs => exact setAll_of_ne hne g pairs
  | _ => rfl

theorem addPart_congr (h : g name = g' name) (pair : String × Toml.Value) :
    g.addPart pair name = g'.addPart pair name := by
  by_cases hname : name = pair.1
  · obtain ⟨name', v⟩ := pair
    subst hname
    cases v with
    | table origin pairs =>
      funext key
      exact (setAll_eq g _ pairs key).trans ((setAll_eq g' _ pairs key).trans (by rw [h])).symm
    | _ => exact h
  · rw [addPart_of_ne hname, addPart_of_ne hname, h]

/-- Only the pairs of a name matter for what it is given. Parts are read one after another into the
same settings, and this takes them apart. -/
theorem foldl_addPart_eq (h : g name = g' name) (tree : Toml.Pairs) :
    tree.foldl Given.addPart g name = (tree.filter (·.1 == name)).foldl Given.addPart g' name := by
  induction tree generalizing g g' with
  | nil => exact h
  | cons pair tree ih =>
    by_cases hname : name = pair.1
    · rw [List.filter_cons_of_pos (by simp [hname])]
      exact ih (addPart_congr h pair)
    · rw [List.filter_cons_of_neg (by simpa using Ne.symm hname)]
      exact ih ((addPart_of_ne hname g).trans h)

theorem lookup_sections (part : Part) :
    sections.lookup part.name = some (group part.name part.fields).2 := by
  cases part <;> rfl

/-- A pair at the top of a tree that can be read: if it is a part, it is a table with values of the
kinds that its keys want, none of them twice. A pair of another name is skipped, whatever its
value. -/
def Readable (pair : String × Toml.Value) : Prop :=
  ∀ part : Part, pair.1 = part.name → ∃ origin pairs, pair.2 = .table origin pairs ∧
    namedOnce part.fields pairs = true ∧ ∀ pair ∈ pairs, part.Accepts pair.1 pair.2

/-- **Reading a part adds all that its table gives.** The same as for a key of a part, one level
up. -/
theorem readPair_sections (h : Readable pair) :
    readPair sections (overridden g) pair = some (overridden (g.addPart pair)) := by
  by_cases hpart : ∃ part : Part, pair.1 = part.name
  · obtain ⟨part, hname⟩ := hpart
    obtain ⟨origin, pairs, hv, honce, haccepts⟩ := h part hname
    obtain ⟨name, v⟩ := pair
    subst hname hv
    simp only [readPair, lookup_sections, group, readPairs, honce, if_true, Given.addPart]
    exact foldlM_readPair_part haccepts
  · have hnone : sections.lookup pair.1 = none := by
      rw [List.lookup_eq_none_iff]
      intro field hfield
      apply bne_iff_ne.mpr
      intro heq
      apply hpart
      simp only [sections, List.mem_cons, List.not_mem_nil, or_false] at hfield
      rcases hfield with rfl | rfl | rfl | rfl
      · exact ⟨.paths, heq⟩
      · exact ⟨.figure, heq⟩
      · exact ⟨.analysis, heq⟩
      · exact ⟨.output, heq⟩
    have hsame : overridden (g.addPart pair) = overridden g := by
      apply overridden_congr
      intro part field hfield
      rw [addPart_of_ne fun heq => hpart ⟨part, heq.symm⟩]
    simp only [readPair, hnone, hsame]

theorem foldlM_readPair_sections {tree : Toml.Pairs} (h : ∀ pair ∈ tree, Readable pair) :
    tree.foldlM (readPair sections) (overridden g) =
      some (overridden (tree.foldl Given.addPart g)) := by
  induction tree generalizing g with
  | nil => rfl
  | cons pair tree ih =>
    obtain ⟨hfirst, hrest⟩ := List.forall_mem_cons.mp h
    rw [List.foldlM_cons, readPair_sections hfirst]
    exact ih hrest

end

end Settings
end Beamline
