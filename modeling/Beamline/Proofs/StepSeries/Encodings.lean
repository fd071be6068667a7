import Beamline.Proofs.Npy.File
import Beamline.Proofs.StepSeries.Dispatch
import Beamline.Proofs.StepSeries.Layout

/-!
# Encodings — one series in many files

The same cube of values can be stored in any type that can hold them, in either byte order and in
either layout, under any description that says so. An `Encoding` is a choice of all of these, `Of`
says which cube it is an encoding of, and the result is that loading does not tell them apart.

The values of the cube are exact ones, not binary64 ones: a file of 64-bit integers may hold more
than binary64 can. So there are two things to say about what is loaded. Where the exact values are
the same the loaded ones are the same, bit for bit; and each is the rounding of the exact one, which
is the exact one itself for floats and for integers of 53 bits.
-/

set_option autoImplicit false

namespace Beamline

open Npy

/-- A way of storing a cube: the choices, and the words that are stored. Of the choices any may be
made with any other; which of them make a file of a given cube is said by `Of`. -/
structure Encoding where
  element : Element
  order : ByteOrder
  columnMajor : Bool
  version : Version
  descriptor : List Char
  text : List Char
  words : Cube Nat

namespace Encoding

def shape (x : Encoding) : List Nat := [x.words.first, x.words.second, x.words.third]

/-- The words in the order they are stored, the last index running fastest or the first. -/
def listing (x : Encoding) : List Nat :=
  if x.columnMajor then x.words.columnMajor else x.words.rowMajor

def data (x : Encoding) : List UInt8 := x.listing.flatMap (x.order.bytes x.element.width)

def bytes (x : Encoding) : List UInt8 := file x.version x.text x.data

/-- The choices make a file that holds the cube `v`. -/
structure Of (x : Encoding) (v : Cube Exact) : Prop where
  descriptor : Element.Descriptor x.element x.order x.descriptor
  described : Described x.descriptor x.columnMajor x.shape x.text
  held : x.version.Holds x.text
  /-- Every word is one of the type's. -/
  fits : ∀ i j k, x.words.entry i j k < 2 ^ (8 * x.element.width)
  /-- The type can represent the values, and these words do. -/
  means : x.words.map x.element.exact = v

/-- The encoding of a cube of words that is described in the usual way. -/
def usual (element : Element) (order : ByteOrder) (columnMajor : Bool) (version : Version)
    (words : Cube Nat) : Encoding where
  element := element
  order := order
  columnMajor := columnMajor
  version := version
  descriptor := element.usualDescriptor order
  text := usualText (element.usualDescriptor order) columnMajor
    [words.first, words.second, words.third]
  words := words

/-- The usual description is one of those allowed, so only the words and the length field are left
to check. For a concrete cube both are decided. -/
theorem of_usual {element : Element} {order : ByteOrder} {columnMajor : Bool} {version : Version}
    {words : Cube Nat} (fits : ∀ i j k, words.entry i j k < 2 ^ (8 * element.width))
    (held : version.Holds (usual element order columnMajor version words).text) :
    (usual element order columnMajor version words).Of (words.map element.exact) where
  descriptor := element.descriptor_usualDescriptor order
  described := described_usualText (plain_usualDescriptor element order) (Nat.le_add_left 2 1)
  held := held
  fits := fits
  means := rfl

/-! ## Reading one encoding -/

section

variable {x : Encoding} {v : Cube Exact}

/-- The shape that is described is that of the cube of values, whatever the words are. -/
theorem Of.shape_eq (h : x.Of v) : x.shape = [v.first, v.second, v.third] := by
  rw [← h.means]
  rfl

theorem mem_listing_lt (h : x.Of v) {word : Nat} (hword : word ∈ x.listing) :
    word < 2 ^ (8 * x.element.width) := by
  unfold listing at hword
  split at hword
  · obtain ⟨i, j, k, rfl⟩ := Cube.exists_of_mem_columnMajor hword
    exact h.fits i j k
  · obtain ⟨i, j, k, rfl⟩ := Cube.exists_of_mem_rowMajor hword
    exact h.fits i j k

theorem length_listing (x : Encoding) : x.listing.length = Shape.elements x.shape := by
  unfold listing shape
  split
  · rw [Cube.length_columnMajor, Shape.elements_three_reverse]
  · rw [Cube.length_rowMajor, Shape.elements_three]

theorem length_data (x : Encoding) :
    x.data.length = Shape.elements x.shape * x.element.width := by
  unfold data
  rw [length_flatMap_of_length (x.order.length_bytes x.element.width), length_listing]

/-- The stored values come back in the order they are stored. The reader may use the other byte
order if a word is a single byte, as the descriptor of such a type names none. -/
theorem values_eq (h : x.Of v) {order : ByteOrder} (ho : order = x.order ∨ x.element.width = 1) :
    (Npy.words x.element.width (Shape.elements x.shape) x.data).map
        (fun w => x.element.value (order.word w)) = x.listing.map x.element.value := by
  rw [← length_listing, data, words_flatMap (x.order.length_bytes x.element.width), List.map_map]
  refine List.map_congr_left fun word hword => ?_
  rw [Function.comp_apply, ByteOrder.word_bytes (mem_listing_lt h hword) ho]

/-- What reading makes of an array with three axes. The two lengths agree by the shape alone, and
stating it for any shape keeps their proofs out of the way. -/
theorem cubeOf_three (a b c : Nat) (columnMajor : Bool) (values : Array Binary64)
    (size : values.size = Shape.elements [a, b, c]) (h : Shape.addressable [a, b, c] = true) :
    StepSeries.cubeOf ⟨[a, b, c], columnMajor, values, size⟩ =
      if columnMajor then
        .ok (Cube.ofColumnMajor a b c values (size.trans (Shape.elements_three_reverse ..)))
      else .ok (Cube.ofRowMajor a b c values (size.trans (Shape.elements_three ..))) := by
  unfold StepSeries.cubeOf
  dsimp only
  rw [h]
  rfl

/-- The header of an encoding is read back. No axis is too long for the reader, as each that is not
empty divides the number that is bounded. -/
theorem readHeader_bytes (h : x.Of v) (hsize : Shape.nonzeroElements x.shape < 2 ^ 60) :
    readHeader x.bytes = .ok (⟨.string x.descriptor, x.columnMajor, x.shape⟩, x.data) := by
  refine readHeader_file h.described (fun n hn => ?_) h.held
  have hle := Shape.le_nonzeroElements hn
  unfold maxLength
  omega

/-- **The reader of the right type reads the cube of the stored values.** -/
theorem readCube_bytes (h : x.Of v) (hsize : Shape.nonzeroElements x.shape < 2 ^ 60) :
    StepSeries.readCube x.element x.bytes = .ok (x.words.map x.element.value) := by
  have hroom : 8 * Shape.nonzeroElements x.shape ≤ Shape.maxElements := by
    unfold Shape.maxElements
    omega
  have haddressable : Shape.addressable x.shape = true :=
    decide_eq_true (show Shape.nonzeroElements x.shape ≤ Shape.maxElements by omega)
  -- A single byte may be read in the other order than it was written in.
  obtain ⟨order, ho, hsame⟩ := h.descriptor.order?_eq
  have hread := readAs_of_order?_some (readHeader_bytes h hsize)
    (Shape.fits_of_nonzeroElements x.element.width_le hroom) ho
  have hlength := length_data x
  rw [if_neg (by dsimp only; omega), if_neg (by dsimp only; omega)] at hread
  unfold StepSeries.readCube
  rw [hread]
  refine (cubeOf_three _ _ _ _ _ _ haddressable).trans ?_
  have hvalues := congrArg List.toArray (values_eq h hsame)
  unfold listing at hvalues
  cases hcolumn : x.columnMajor with
  | true =>
    rw [hcolumn, if_pos rfl, ← Cube.columnMajor_map] at hvalues
    exact congrArg Except.ok
      (Cube.ofColumnMajor_columnMajor (x.words.map x.element.value) _ hvalues)
  | false =>
    rw [hcolumn, if_neg (by decide), ← Cube.rowMajor_map] at hvalues
    exact congrArg Except.ok (Cube.ofRowMajor_rowMajor (x.words.map x.element.value) _ hvalues)

theorem addressable_bytes (h : x.Of v) (hsize : Shape.nonzeroElements x.shape < 2 ^ 60) :
    StepSeries.Addressable x.bytes := by
  intro header data hread
  rw [readHeader_bytes h hsize] at hread
  cases hread
  unfold Shape.maxElements
  dsimp only
  omega

/-- Loading an encoding asks the reader of its type, and the reader reads the cube. -/
theorem load_bytes (h : x.Of v) (hsize : Shape.nonzeroElements x.shape < 2 ^ 60)
    (hchannels : Channel.all.length ≤ x.words.third) {path : String} {t : Tree}
    (hread : t.read path = .ok x.bytes) :
    StepSeries.load path t = .ok ⟨x.words.map x.element.value, hchannels⟩ := by
  have hcube := readCube_bytes h hsize
  have hne : StepSeries.readCube x.element x.bytes ≠ .error .otherElement := by
    rw [hcube]
    rintro ⟨⟩
  unfold StepSeries.load StepSeries.ofFile
  rw [hread]
  dsimp only
  rw [StepSeries.ofFileTrying_of_unique (StepSeries.complete_all x.element) hne, hcube]
  · exact dif_pos hchannels
  · intro e _ hother
    by_contra hread'
    exact hother
      (StepSeries.eq_of_readCube_ne (addressable_bytes h hsize)
        (readHeader_bytes h hsize) hread' hne)

/-- Two encodings of a cube are loaded as the same values: their words stand for the same exact
values, and these settle what is loaded. -/
theorem map_value_eq {y : Encoding} (hx : x.Of v) (hy : y.Of v) :
    x.words.map x.element.value = y.words.map y.element.value := by
  refine Cube.map_eq_map (hx.means.trans hy.means.symm) fun i j k i' j' k' hexact => ?_
  exact Element.value_eq_of_exact_eq (hx.fits i j k) (hy.fits i' j' k') hexact

end
end Encoding

namespace StepSeries

theorem getElem?_channel (s : StepSeries) (c : Channel) (particle : Fin s.particles)
    (step : Fin s.steps) :
    ((s.channel c)[particle.val]?.bind fun track => track[step.val]?) =
      some (s.cube.entry step particle ⟨c.index, c.index_lt.trans_le s.enough⟩) := by
  have hparticle : particle.val < s.cube.second := particle.isLt
  have hstep : step.val < s.cube.first := step.isLt
  simp [channel, hparticle, hstep]
  rfl

/-- **How a series is encoded does not change what is loaded.** Two files that encode one cube of
exact values load as one series, with the cube's numbers of steps and particles. A channel holds,
for each particle and step, the rounding of the exact value there; the value itself, where it comes
from a float or needs no more than 53 bits. -/
theorem load_encodings {v : Cube Exact} (hchannels : 2 ≤ v.third)
    (hsize : Shape.nonzeroElements [v.first, v.second, v.third] < 2 ^ 60) {x y : Encoding}
    (hx : x.Of v) (hy : y.Of v) {p q : String} {t u : Tree} (hp : t.read p = .ok x.bytes)
    (hq : u.read q = .ok y.bytes) :
    ∃ s r, load p t = .ok s ∧ load q u = .ok r ∧
      s.steps = v.first ∧ s.particles = v.second ∧
      r.steps = s.steps ∧ r.particles = s.particles ∧ (∀ c, r.channel c = s.channel c) ∧
      ∀ c : Channel,
        (s.channel c).length = v.second ∧ (∀ track ∈ s.channel c, track.length = v.first) ∧
        ∀ (particle : Fin v.second) (step : Fin v.first),
          let stored := v.entry step particle ⟨c.index, c.index_lt.trans_le hchannels⟩
          ∃ z, ((s.channel c)[particle.val]?.bind fun track => track[step.val]?) = some z ∧
            z.IsNearest stored ∧
            (x.element.IsFloat ∨ stored.WithinSize (2 ^ 53) → z.exact = stored) := by
  rw [← hx.shape_eq] at hsize
  have hsize' : Shape.nonzeroElements y.shape < 2 ^ 60 := by rwa [hy.shape_eq, ← hx.shape_eq]
  have hvalues := Encoding.map_value_eq hx hy
  have hthird' : y.words.third = v.third := by rw [← hy.means]; rfl
  have hload' := Encoding.load_bytes hy hsize' (hthird'.symm ▸ hchannels) hq
  obtain rfl := hx.means
  have hload := Encoding.load_bytes hx hsize hchannels hp
  have hsame : (⟨y.words.map y.element.value, hthird'.symm ▸ hchannels⟩ : StepSeries) =
      ⟨x.words.map x.element.value, hchannels⟩ := by
    simp only [hvalues]
  rw [hsame] at hload'
  refine ⟨_, _, hload, hload', rfl, rfl, rfl, rfl, fun c => rfl, fun c => ⟨?_, ?_, ?_⟩⟩
  · exact List.length_ofFn
  · intro track htrack
    obtain ⟨particle, rfl⟩ := (List.mem_ofFn' _ _).mp htrack
    exact List.length_ofFn
  · intro particle step stored
    have hfits := hx.fits step particle ⟨c.index, c.index_lt.trans_le hchannels⟩
    exact ⟨_, getElem?_channel ⟨x.words.map x.element.value, hchannels⟩ c particle step,
      x.element.isNearest_value hfits, Element.exact_value hfits⟩

/-- One and minus two, in two bytes each and in one. -/
theorem load_encodings_one_minus_two :
    let wide : Encoding := .usual .int16 .big false .one
      ⟨1, 1, 2, fun _ _ k => if k = 0 then 1 else 65534⟩
    let narrow : Encoding := .usual .int8 .little true .three
      ⟨1, 1, 2, fun _ _ k => if k = 0 then 1 else 254⟩
    let t := (Tree.empty.set ["wide.npy"] (.file wide.bytes)).set ["narrow.npy"]
      (.file narrow.bytes)
    ∃ s r, load "wide.npy" t = .ok s ∧ load "narrow.npy" t = .ok r ∧ s.steps = 1 ∧
      s.particles = 1 ∧ ∀ c, r.channel c = s.channel c := by
  intro wide narrow t
  have hwide : wide.Of (wide.words.map wide.element.exact) :=
    Encoding.of_usual (by decide) (by decide)
  have hsame : narrow.words.map narrow.element.exact = wide.words.map wide.element.exact := by
    refine congrArg (Cube.mk 1 1 2) (funext fun i => funext fun j => funext fun k => ?_)
    revert k
    exact Fin.forall_fin_two.mpr ⟨rfl, rfl⟩
  have hnarrow : narrow.Of (narrow.words.map narrow.element.exact) :=
    Encoding.of_usual (by decide) (by decide)
  rw [hsame] at hnarrow
  have hread : t.read "wide.npy" = .ok wide.bytes := rfl
  have hread' : t.read "narrow.npy" = .ok narrow.bytes := rfl
  obtain ⟨s, r, hs, hr, hsteps, hparticles, -, -, hchannels, -⟩ :=
    load_encodings (by decide) (by decide) hwide hnarrow hread hread'
  exact ⟨s, r, hs, hr, hsteps, hparticles, hchannels⟩

end StepSeries
end Beamline
