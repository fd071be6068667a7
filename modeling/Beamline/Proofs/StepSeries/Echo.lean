import Beamline.Beam.StepSeries
import Beamline.Proofs.Binary64.Text

/-!
# Echo — a series as text, and back

The echo of a series is read by cutting: at line feeds into lines, at blanks into items, once the
brackets around a line are off. Cutting undoes putting together as long as no piece has the
separator in it, and a literal has neither (`solid_text`). What is left is that each item is a
literal of the value it was printed for, which is what printing promises of every value.

A line without items needs care: cut at blanks, nothing would be one empty item. The text of a value
is never empty, so the line of a particle without steps is the only one with nothing between its
brackets (`Echo.items_line`).
-/

set_option autoImplicit false

namespace Beamline
namespace Echo

/-! ## Lines -/

/-- A line with some items, without the line feed that ends it. -/
def line (items : List (List Char)) : List Char := '[' :: ([' '].intercalate items ++ [']'])

/-- What stands between the brackets of a line, cut at blanks. -/
def items (line : List Char) : List (List Char) :=
  if (line.drop 1).dropLast = [] then [] else (line.drop 1).dropLast.splitOn ' '

/-- An item that cutting leaves whole. -/
structure Solid (item : List Char) : Prop where
  ne_nil : item ≠ []
  blank : ' ' ∉ item
  lineFeed : '\n' ∉ item

theorem ne_nil_of_solid {first : List Char} {rest : List (List Char)} (h : Solid first) :
    [' '].intercalate (first :: rest) ≠ [] := by
  cases rest with
  | nil => simpa using h.ne_nil
  | cons second rest => simp [h.ne_nil]

theorem items_line {is : List (List Char)} (h : ∀ item ∈ is, Solid item) :
    items (line is) = is := by
  have hbody : ((line is).drop 1).dropLast = [' '].intercalate is := by simp [line]
  unfold items
  rw [hbody]
  cases is with
  | nil => simp
  | cons first rest =>
    rw [if_neg (ne_nil_of_solid (h first List.mem_cons_self))]
    exact List.splitOn_intercalate ' ' (fun item hitem => (h item hitem).blank)
      (List.cons_ne_nil _ _)

theorem lineFeed_notMem_intercalate {is : List (List Char)} (h : ∀ item ∈ is, '\n' ∉ item) :
    '\n' ∉ [' '].intercalate is := by
  induction is with
  | nil => simp
  | cons first rest ih =>
    have hrest : '\n' ∉ [' '].intercalate rest :=
      ih fun item hitem => h item (List.mem_cons_of_mem first hitem)
    have hfirst := h first List.mem_cons_self
    cases rest with
    | nil => simpa using hfirst
    | cons second rest =>
      rw [List.intercalate_cons_of_ne_nil (List.cons_ne_nil _ _)]
      simp [hfirst, hrest]

theorem lineFeed_notMem_line {is : List (List Char)} (h : ∀ item ∈ is, Solid item) :
    '\n' ∉ line is := by
  have hbody := lineFeed_notMem_intercalate fun item hitem => (h item hitem).lineFeed
  simp [line, hbody]

/-- Lines that are ended by line feeds are cut where they end, and nothing is left. -/
theorem splitOn_lines {lines : List (List Char)} (h : ∀ l ∈ lines, '\n' ∉ l) :
    (lines.flatMap (· ++ ['\n'])).splitOn '\n' = lines ++ [[]] := by
  induction lines with
  | nil => rfl
  | cons l lines ih =>
    rw [List.flatMap_cons, List.append_assoc, List.singleton_append,
      List.splitOn_append_cons_self_of_not_mem (h l List.mem_cons_self),
      ih fun k hk => h k (List.mem_cons_of_mem l hk), List.cons_append]

/-! ## Values -/

/-- The items of a line of values. -/
def texts (values : List Binary64) : List (List Char) := values.map fun x => x.text.toList

theorem solid_text (x : Binary64) : Solid x.text.toList := by
  have hparse := Binary64.parse?_text x
  have hgraphic := Binary64.graphic_of_parse? hparse
  refine ⟨?_, ?_, ?_⟩
  · intro hnil
    rw [hnil] at hparse
    cases hparse
  · intro hblank
    exact absurd (hgraphic ' ' hblank).1 (by decide)
  · intro hfeed
    exact absurd (hgraphic '\n' hfeed).1 (by decide)

theorem solid_of_mem_texts {values : List Binary64} {item : List Char} (h : item ∈ texts values) :
    Solid item := by
  obtain ⟨x, -, rfl⟩ := List.mem_map.mp h
  exact solid_text x

theorem mapM_texts (values : List Binary64) :
    (texts values).mapM Binary64.parse? = some values := by
  induction values with
  | nil => rfl
  | cons x values ih =>
    show (x.text.toList :: texts values).mapM Binary64.parse? = _
    rw [List.mapM_cons, Binary64.parse?_text, ih]
    rfl

theorem toList_line (values : List Binary64) :
    (StepSeries.line values).toList = line (texts values) ++ ['\n'] := by
  simp [StepSeries.line, line, texts, String.toList_intercalate, Function.comp_def]

theorem line_texts_injective {v w : List Binary64} (h : line (texts v) = line (texts w)) :
    v = w := by
  have hitems := congrArg items h
  rw [items_line fun item => solid_of_mem_texts, items_line fun item => solid_of_mem_texts]
    at hitems
  have hread := mapM_texts v
  rw [hitems, mapM_texts] at hread
  exact (Option.some.inj hread).symm

end Echo

/-! ## Series -/

namespace StepSeries

/-- What is echoed of each particle, in the order of the lines. -/
def tracks (s : StepSeries) : List (List Binary64) :=
  s.channel .position ++ s.channel .energyDeviation

theorem length_channel (s : StepSeries) (c : Channel) : (s.channel c).length = s.particles :=
  List.length_ofFn

theorem length_of_mem_channel {s : StepSeries} {c : Channel} {track : List Binary64}
    (h : track ∈ s.channel c) : track.length = s.steps := by
  obtain ⟨particle, rfl⟩ := (List.mem_ofFn' _ _).mp h
  exact List.length_ofFn

theorem length_tracks (s : StepSeries) : s.tracks.length = 2 * s.particles := by
  unfold tracks
  rw [List.length_append, length_channel, length_channel, Nat.two_mul]

theorem length_of_mem_tracks {s : StepSeries} {track : List Binary64} (h : track ∈ s.tracks) :
    track.length = s.steps := by
  rcases List.mem_append.mp h with h | h
  · exact length_of_mem_channel h
  · exact length_of_mem_channel h

/-- The lines before the number of particles are positions, the others energy deviations. -/
theorem getElem?_tracks (s : StepSeries) (j : Nat) :
    s.tracks[j]? =
      if j < s.particles then (s.channel .position)[j]?
      else (s.channel .energyDeviation)[j - s.particles]? := by
  unfold tracks
  rw [List.getElem?_append, length_channel]

theorem toList_echo (s : StepSeries) :
    s.echo.toList = (s.tracks.map fun v => Echo.line (Echo.texts v)).flatMap (· ++ ['\n']) := by
  have htracks : Channel.all.flatMap s.channel = s.tracks := by simp [Channel.all, tracks]
  unfold echo
  rw [htracks, String.toList_join, List.flatMap_map, List.flatMap_map]
  exact List.flatMap_congr fun v _ => Echo.toList_line v

theorem splitOn_echo (s : StepSeries) :
    s.echo.toList.splitOn '\n' = (s.tracks.map fun v => Echo.line (Echo.texts v)) ++ [[]] := by
  rw [toList_echo]
  refine Echo.splitOn_lines fun l hl => ?_
  obtain ⟨v, -, rfl⟩ := List.mem_map.mp hl
  exact Echo.lineFeed_notMem_line fun item => Echo.solid_of_mem_texts

theorem tracks_eq_of_echo_eq {r s : StepSeries} (h : r.echo = s.echo) : r.tracks = s.tracks := by
  have hsplit := r.splitOn_echo
  rw [h, splitOn_echo, List.append_left_inj] at hsplit
  exact ((List.map_injective_iff.mpr fun v w => Echo.line_texts_injective) hsplit).symm

/-- The lines of an echo tell how many particles there are, and so where the second channel
starts. -/
theorem channel_eq_of_tracks_eq {r s : StepSeries} (h : r.tracks = s.tracks) (c : Channel) :
    r.channel c = s.channel c := by
  have hparticles : r.particles = s.particles := by
    have hlength := congrArg List.length h
    rw [length_tracks, length_tracks] at hlength
    omega
  obtain ⟨hposition, henergy⟩ := List.append_inj h (by
    rw [length_channel, length_channel, hparticles])
  cases c with
  | position => exact hposition
  | energyDeviation => exact henergy

/-- **The echo is a lossless encoding of the two channels.** It is two lines for each particle, each
ended by a line feed and with nothing after the last; a line is one item for each step, between
brackets and with single blanks between them. Read as numbers, the items of line `j` are the track
of particle `j` in the first channel, and the later lines repeat that for the second. So the echoes
of two series are the same exactly where both channels are, whatever the values: all infinities,
zeros of both signs and subnormal values are told apart, and a NaN is read as NaN. -/
theorem echo_lossless (s : StepSeries) :
    ∃ lines : List (List (List Char)),
      s.echo.toList.splitOn '\n' = lines.map Echo.line ++ [[]] ∧
      lines.length = 2 * s.particles ∧
      (∀ is ∈ lines, is.length = s.steps ∧ ∀ item ∈ is, item ≠ [] ∧ ' ' ∉ item) ∧
      (∀ j : Fin (2 * s.particles), ∃ is track,
        lines[j.val]? = some is ∧ is.mapM Binary64.parse? = some track ∧
          (if j.val < s.particles then (s.channel .position)[j.val]?
            else (s.channel .energyDeviation)[j.val - s.particles]?) = some track) ∧
      ∀ r : StepSeries, r.echo = s.echo ↔ ∀ c, r.channel c = s.channel c := by
  refine ⟨s.tracks.map Echo.texts, ?_, ?_, ?_, ?_, ?_⟩
  · rw [splitOn_echo, List.map_map]
    rfl
  · rw [List.length_map, length_tracks]
  · intro is his
    obtain ⟨track, htrack, rfl⟩ := List.mem_map.mp his
    refine ⟨(List.length_map _).trans (length_of_mem_tracks htrack), fun item hitem => ?_⟩
    have hsolid := Echo.solid_of_mem_texts hitem
    exact ⟨hsolid.ne_nil, hsolid.blank⟩
  · intro j
    have hj : j.val < s.tracks.length := by
      rw [length_tracks]
      exact j.isLt
    refine ⟨Echo.texts s.tracks[j.val], s.tracks[j.val], ?_, Echo.mapM_texts _, ?_⟩
    · rw [List.getElem?_map, List.getElem?_eq_getElem hj]
      rfl
    · rw [← getElem?_tracks]
      exact List.getElem?_eq_getElem hj
  · intro r
    constructor
    · intro hecho
      exact channel_eq_of_tracks_eq (tracks_eq_of_echo_eq hecho)
    · intro hchannel
      have htracks : r.tracks = s.tracks := by
        unfold tracks
        rw [hchannel, hchannel]
      refine String.toList_injective ?_
      rw [toList_echo, toList_echo, htracks]

-- A series without steps still has a line for every particle.
example : Echo.line [] = ['[', ']'] := rfl

end StepSeries
end Beamline
