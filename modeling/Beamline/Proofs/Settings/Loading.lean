import Mathlib.Tactic
import Beamline.Proofs.Binary64.Exact
import Beamline.Proofs.Settings.Writing
import Beamline.Proofs.Text.Utf8
import Beamline.Run.Load

/-!
# Settings files — a file overrides what it names

A document that gives each known key a value of its kind is read as the standard settings with just
these values in their place; one that gives any of them a value of another kind is refused as a
whole (`load_overrides`). It does not matter in which order the parts and the keys stand, what
comments there are, and what else the document gives.
-/

set_option autoImplicit false

namespace Beamline
namespace Settings

open Toml (Document Shows Gives Pairs)

section

variable {tree ps : Pairs} {g : Given} {part : Part} {key : String} {v : Toml.Value}
  {kind : FieldKind}

theorem mem_names (h : (key, kind) ∈ part.keys) : key ∈ part.names := List.mem_map_of_mem h

theorem namedOnce_of_gives (h : Gives ps part.names (g part.name)) :
    namedOnce part.fields ps = true := by
  apply namedOnce_of
  intro name hname
  rw [fields_names] at hname
  rw [h name hname]
  cases g part.name name <;> simp

theorem mem_of_gives (h : Gives ps part.names (g part.name)) (hkey : key ∈ part.names) :
    (key, v) ∈ ps ↔ g part.name key = some v := by
  have hmem : (key, v) ∈ ps ↔ (key, v) ∈ ps.filter (·.1 == key) := by simp
  rw [hmem, h key hkey]
  cases g part.name key <;> simp [eq_comm]

/-- What a tree shows of a part is what its table gives, if it has one. -/
theorem shows_cases (h : Shows tree part.name part.names (g part.name)) :
    (∀ pair ∈ tree, pair.1 ≠ part.name) ∧ (∀ key ∈ part.names, g part.name key = none) ∨
      ∃ origin ps, tree.filter (·.1 == part.name) = [(part.name, .table origin ps)] ∧
        Gives ps part.names (g part.name) := by
  obtain ⟨hnone, hg⟩ | hsome := h
  · refine Or.inl ⟨fun pair hpair heq => ?_, hg⟩
    have hnot := List.filter_eq_nil_iff.mp hnone pair hpair
    simp [heq] at hnot
  · exact Or.inr hsome

theorem readable_of_shows (h : ∀ part : Part, Shows tree part.name part.names (g part.name))
    (hfits : g.Fits) : ∀ pair ∈ tree, Readable pair := by
  intro pair hpair part hname
  obtain ⟨hnone, -⟩ | ⟨origin, ps, hfilter, hgives⟩ := shows_cases (h part)
  · exact absurd hname (hnone pair hpair)
  · have hmem : pair ∈ tree.filter (·.1 == part.name) := by simp [hpair, hname]
    rw [hfilter, List.mem_singleton] at hmem
    subst hmem
    refine ⟨origin, ps, rfl, namedOnce_of_gives hgives, fun pair hpair kind hkind => ?_⟩
    exact hfits part _ hkind _ ((mem_of_gives hgives (mem_names hkind)).mp hpair)

theorem namedOnce_sections (h : ∀ part : Part, Shows tree part.name part.names (g part.name)) :
    namedOnce sections tree = true := by
  apply namedOnce_of
  have hone : ∀ part : Part, (tree.filter (·.1 == part.name)).length ≤ 1 := by
    intro part
    obtain ⟨hnone, -⟩ | ⟨origin, ps, hfilter, -⟩ := h part
    · simp [hnone]
    · simp [hfilter]
  intro name hname
  have hnames : sections.map Prod.fst = [Part.paths, .figure, .analysis, .output].map Part.name :=
    rfl
  rw [hnames] at hname
  obtain ⟨part, -, rfl⟩ := List.mem_map.mp hname
  exact hone part

/-- What is given by all parts of a tree together is what the tree shows of each. -/
theorem foldl_addPart_of_shows (h : Shows tree part.name part.names (g part.name))
    (hkey : key ∈ part.names) :
    tree.foldl Given.addPart Given.nothing part.name key = g part.name key := by
  rw [foldl_addPart_eq rfl tree]
  obtain ⟨hnone, hg⟩ | ⟨origin, ps, hfilter, hgives⟩ := h
  · rw [hnone, hg key hkey]
    rfl
  · have hlast := setAll_eq Given.nothing part.name ps key
    rw [hfilter]
    refine hlast.trans ?_
    rw [hgives key hkey]
    cases g part.name key <;> rfl

/-- **A tree is read as the standard settings with what it shows in their place.** -/
theorem readPairs_overridden (h : ∀ part : Part, Shows tree part.name part.names (g part.name))
    (hfits : g.Fits) :
    readPairs sections tree standard = some (overridden g) := by
  have hread : tree.foldlM (readPair sections) (overridden Given.nothing) = _ :=
    foldlM_readPair_sections (readable_of_shows h hfits)
  rw [readPairs, namedOnce_sections h, if_pos rfl, ← overridden_nothing, hread]
  apply congrArg some
  apply overridden_congr
  intro part field hfield
  exact foldl_addPart_of_shows (h part) (List.mem_map_of_mem hfield)

/-- **A tree that shows a value of another kind is not read at all.** -/
theorem readPairs_refuses (h : Shows tree part.name part.names (g part.name))
    (hkey : (key, kind) ∈ part.keys) (hv : g part.name key = some v) (hkind : ¬ kind.Accepts v) :
    readPairs sections tree standard = none := by
  obtain ⟨-, hg⟩ | ⟨origin, ps, hfilter, hgives⟩ := h
  · rw [hg key (mem_names hkey)] at hv
    cases hv
  · have hpair : (key, v) ∈ ps := (mem_of_gives hgives (mem_names hkey)).mpr hv
    have htable : (part.name, Toml.Value.table origin ps) ∈ tree := by
      apply List.mem_of_mem_filter (p := (·.1 == part.name))
      rw [hfilter]
      exact List.mem_singleton_self _
    have hinner : ∀ s, readPairs part.fields ps s = none := by
      intro s
      unfold readPairs
      split
      · exact foldlM_eq_none ⟨_, hpair, readPair_refuses hkey hkind⟩ s
      · rfl
    have houter : ∀ s, readPair sections s (part.name, .table origin ps) = none := by
      intro s
      simp only [readPair, lookup_sections, group, hinner]
    unfold readPairs
    split
    · exact foldlM_eq_none ⟨_, htable, houter⟩ standard
    · rfl

end

/-! ## Files -/

section

variable {d : Document} {text : List Char}

theorem parse?_overridden (h : d.IsText text) (hd : Describes d) (hfits : Given.Fits d.given) :
    parse? text = some (overridden d.given) := by
  obtain ⟨tree, htree, hshows⟩ := Toml.parse?_of_isText h hd.wellformed
  rw [parse?, htree]
  exact readPairs_overridden (fun part => hshows _ _ (hd.usual part)) hfits

theorem parse?_refuses {part : Part} {key : String} {kind : FieldKind} {v : Toml.Value}
    (h : d.IsText text)
    (hd : Describes d) (hkey : (key, kind) ∈ part.keys) (hv : d.given part.name key = some v)
    (hkind : ¬ kind.Accepts v) : parse? text = none := by
  obtain ⟨tree, htree, hshows⟩ := Toml.parse?_of_isText h hd.wellformed
  rw [parse?, htree]
  exact readPairs_refuses (hshows _ _ (hd.usual part)) hkey hv hkind

/-- A file with a text is loaded as the text is parsed. -/
theorem load_of_read {t : Tree} {path : String} (hread : t.read path = .ok (Utf8.encode text)) :
    load path t =
      match parse? text with
      | some s => .ok s
      | none => Outcome.during .parseSettings (Outcome.fail .settings) := by
  cases hparse : parse? text <;> simp only [load, hread, ofFile, Utf8.decode_encode, hparse]

/-- A choice of values of the right kinds, each of them one that can be written: numbers with a
point as far as there is a literal for them, whole ones with 64 bits. -/
structure Given.IsChoice (g : Given) : Prop where
  fits : g.Fits
  inRange : ∀ part key v, g part key = some v → v.InRange
  float : ∀ part key x, g part key = some (.float x) → (Toml.Value.float x).Writable

theorem Given.IsChoice.writable {g : Given} (h : g.IsChoice) : g.Writable := by
  intro part key hkey v hv
  obtain ⟨⟨name, kind⟩, hfield, rfl⟩ := List.mem_map.mp hkey
  have hinteger : ∀ i, v = .integer i → v.Writable := by
    rintro i rfl
    exact Toml.writable_integer (h.inRange _ _ _ hv i rfl)
  cases kind with
  | text =>
    obtain ⟨t, rfl⟩ := h.fits part _ hfield v hv
    exact Toml.writable_string t
  | number =>
    obtain ⟨x, rfl⟩ | ⟨i, hi⟩ := h.fits part _ hfield v hv
    · exact h.float _ _ x hv
    · exact hinteger i hi
  | count =>
    obtain ⟨n, hn⟩ := h.fits part _ hfield v hv
    exact hinteger n hn
  | flag =>
    obtain ⟨b, rfl⟩ := h.fits part _ hfield v hv
    exact Toml.writable_boolean b

/-- **A settings file overrides exactly what it names.** Any choice of values for any of the known
keys can be written. However a document is written, in whichever order and with whatever else in it,
if what it gives the known keys is of the right kinds, the settings are the standard ones with just
these values in their place, a whole number in the place of a size being the value nearest to it. If
what it gives any of them is of another kind, there are no settings, and the message says so. The
settings of a working folder are those of its settings file, or the standard ones if nothing stands
there. -/
theorem load_overrides :
    (∀ g : Given, g.IsChoice → ∃ d text, Document.IsText d text ∧ Describes d ∧
      ∀ part : Part, ∀ key ∈ part.names, d.given part.name key = g part.name key) ∧
    (∀ (d : Document) (text : List Char) (path : String) (t : Tree), d.IsText text → Describes d →
      t.read path = .ok (Utf8.encode text) →
      (Given.Fits d.given → load path t = .ok (overridden d.given) ∧
        ∀ key i, d.given "figure" key = some (.integer i) →
          (Binary64.ofInt i).IsNearest (Exact.ofInt i)) ∧
      ∀ part : Part, ∀ field ∈ part.keys, ∀ v, d.given part.name field.1 = some v →
        ¬ field.2.Accepts v →
        ∃ f, load path t = .error f ∧ f.headline = "Could not parse Config file") ∧
    ∀ t : Tree, (t.stands "config.toml" = true → current t = load "config.toml" t) ∧
      (t.stands "config.toml" = false → current t = .ok standard) := by
  refine ⟨fun g hg => exists_text g hg.writable,
    fun d text path t h hd hread => ⟨fun hfits => ⟨?_, ?_⟩, ?_⟩,
    fun t => ⟨fun hstands => ?_, fun hstands => ?_⟩⟩
  · rw [load_of_read hread, parse?_overridden h hd hfits]
  · intro key i hi
    have hrange := Document.inRange_of_given h hi i rfl
    exact Binary64.isNearest_ofInt (by omega)
  · intro part field hfield v hv hkind
    rw [load_of_read hread, parse?_refuses h hd hfield hv hkind]
    exact ⟨_, rfl, rfl⟩
  · rw [current, usualPath, hstands]
    rfl
  · rw [current, usualPath, hstands]
    rfl

/-- A size is given as a whole number in one file, and a negative count in another; and what the
first file gives can be written. -/
theorem load_overrides_oneLine :
    let fine := Tree.empty.set ["config.toml"] (.file (Utf8.encode "[figure]\ndpi=300\n".toList))
    let wrong := Tree.empty.set ["config.toml"] (.file (Utf8.encode "[analysis]\nbins=-1\n".toList))
    let g := Given.nothing.set "figure" "dpi" (.integer 300)
    (∃ d text, Document.IsText d text ∧ Describes d ∧ ∀ part : Part, ∀ key ∈ part.names,
      d.given part.name key = g part.name key) ∧
    current fine = .ok (overridden g) ∧ (overridden g).sizes.dpi = Binary64.ofInt 300 ∧
    (Binary64.ofInt 300).IsNearest (Exact.ofInt 300) ∧ (overridden g).bins = 400 ∧
    (∃ f, current wrong = .error f ∧ f.headline = "Could not parse Config file") ∧
    current Tree.empty = .ok standard := by
  intro fine wrong g
  have hkey : ("dpi", FieldKind.number) ∈ Part.figure.keys := by simp [Part.keys]
  have hkey' : ("bins", FieldKind.count) ∈ Part.analysis.keys := by simp [Part.keys]
  have hfits : g.Fits := fits_set hkey (Or.inr ⟨300, rfl⟩)
  have hread : ∀ bytes, (Tree.empty.set ["config.toml"] (.file bytes)).read "config.toml" =
      .ok bytes :=
    fun _ => rfl
  have hdpi : Toml.Numeral .plus (.integer 300) "300".toList [] :=
    .integer (.next rfl (.next rfl (.last rfl))) (Or.inr (by decide)) rfl (by decide)
  have hbins : Toml.Numeral .minus (.integer (-1)) "1".toList [] :=
    .integer (.last rfl) (Or.inr (by decide)) rfl (by decide)
  have hdescribes := describes_oneLine .figure "dpi" (.integer 300)
  have hgiven : (oneLine .figure "dpi" (.integer 300)).given = g := given_oneLine _ _ _
  have htext : (oneLine .figure "dpi" (.integer 300)).IsText "[figure]\ndpi=300\n".toList :=
    isText_oneLine (isWord_of_mem (mem_names hkey)) ⟨by decide, List.all_eq_true.mp (by decide)⟩
      (.number hdpi)
  have hwrong : (oneLine .analysis "bins" (.integer (-1))).IsText "[analysis]\nbins=-1\n".toList :=
    isText_oneLine (isWord_of_mem (mem_names hkey')) (w := "-1")
      ⟨by decide, List.all_eq_true.mp (by decide)⟩ (.number hbins)
  have hchoice : g.IsChoice :=
    { fits := hfits
      inRange := by
        intro sec key v hv
        obtain ⟨-, -, rfl⟩ := of_set_nothing hv
        intro i hi
        cases hi
        decide
      float := by
        intro sec key x hx
        cases (of_set_nothing hx).2.2 }
  obtain ⟨hexists, hload, hcurrent⟩ := load_overrides
  have hfine := (hload _ _ "config.toml" fine htext hdescribes (hread _)).1 (hgiven ▸ hfits)
  refine ⟨hexists g hchoice, ?_, ?_, hfine.2 "dpi" 300 (hgiven ▸ rfl), ?_, ?_,
    (hcurrent Tree.empty).2 rfl⟩
  · rw [(hcurrent fine).1 rfl, hfine.1, hgiven]
  · have hsize : g "figure" "dpi" = some (.integer 300) := rfl
    simp only [overridden, hsize, numberOr]
  · rfl
  · rw [(hcurrent wrong).1 rfl]
    have hnegative : ¬ FieldKind.count.Accepts (.integer (-1)) := by
      rintro ⟨n, hn⟩
      cases hn
    exact (hload _ _ "config.toml" wrong hwrong (describes_oneLine _ _ _) (hread _)).2 .analysis
      ("bins", .count) hkey' (.integer (-1)) (by rw [given_oneLine]; rfl) hnegative

end

end Settings
end Beamline
