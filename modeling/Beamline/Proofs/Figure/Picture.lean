import Beamline.Figure.Drawing
import Beamline.Proofs.Npy.Element

/-!
# Pictures — what a renderer is trusted with

A file is a picture if it is a whole PNG: the signature, a header chunk that says how large it is
and how its pixels are coded, at least one chunk of pixels, an end chunk, each with the checksum of
its own bytes (`Png.IsPicture`). How large a picture is can be read off its first bytes, and a file
is a picture of no other size (`Png.IsPicture.size?_eq`). What the compressed pixels stand for is
not looked into.

That is all that is ever assumed of a renderer, and only where pictures are spoken of: a drawing
that it does not refuse becomes a picture of the size of its canvas (`Renderer.DrawsPictures`). The
renderer that paints nothing keeps to it (`Renderer.white_drawsPictures`), so the assumption can be
met.
-/

set_option autoImplicit false

namespace Beamline
namespace Png

/-! ## Whole files -/

/-- A chunk by its kind and its data. The length in front and the checksum behind follow from
these. -/
structure Chunk where
  kind : String
  data : List UInt8

def Chunk.bytes (c : Chunk) : List UInt8 := chunk c.kind c.data

/-- A kind is four letters, and the length of the data is a number that chunks can state. -/
structure Chunk.Sound (c : Chunk) : Prop where
  kind_length : c.kind.length = 4
  kind_letters : ∀ letter ∈ c.kind.toList, letter.isAlpha = true
  data_length : c.data.length < 2 ^ 31

/-- The bit depths and colour types that may go together. -/
def formats : List (UInt8 × UInt8) :=
  [(1, 0), (2, 0), (4, 0), (8, 0), (16, 0), (8, 2), (16, 2), (1, 3), (2, 3), (4, 3), (8, 3), (8, 4),
    (16, 4), (8, 6), (16, 6)]

/-- What a picture consists of besides its size. -/
structure Parts where
  depth : UInt8
  colourType : UInt8
  interlacing : UInt8
  /-- Between the header and the pixels: the palette and the like. -/
  before : List Chunk
  pixels : List Chunk
  after : List Chunk

/-- The parts are what their names say. Nothing but the pixels is called so, the header and the end
are not repeated, and colours that are numbers of a palette have one. -/
structure Parts.Sound (p : Parts) : Prop where
  format : (p.depth, p.colourType) ∈ formats
  interlacing : p.interlacing ≤ 1
  pixels_ne_nil : p.pixels ≠ []
  pixels_kind : ∀ c ∈ p.pixels, c.kind = "IDAT"
  others_kind : ∀ c ∈ p.before ++ p.after, c.kind ∉ ["IHDR", "IDAT", "IEND"]
  palette : p.colourType = 3 → ∃ c ∈ p.before, c.kind = "PLTE"
  sound : ∀ c ∈ p.before ++ p.pixels ++ p.after, c.Sound

/-- The header, which also says that compression and row filters are the usual ones, all parts, the
end. -/
def Parts.chunks (p : Parts) (width height : Nat) : List Chunk :=
  ⟨"IHDR", word width ++ word height ++ [p.depth, p.colourType, 0, 0, p.interlacing]⟩ ::
    (p.before ++ p.pixels ++ p.after ++ [⟨"IEND", []⟩])

/-- A file is a whole picture of some width and height. -/
structure IsPicture (bytes : List UInt8) (width height : Nat) : Prop where
  width_pos : 0 < width
  width_lt : width < 2 ^ 32
  height_pos : 0 < height
  height_lt : height < 2 ^ 32
  exists_parts : ∃ p : Parts, p.Sound ∧
    bytes = signature ++ (p.chunks width height).flatMap Chunk.bytes

/-! ## The size -/

section

variable {width height : Nat}

theorem number_word {n : Nat} (h : n < 2 ^ 32) : number (word n) = n :=
  @Npy.ByteOrder.word_bytes .big .big 4 n h (Or.inl rfl)

theorem length_word (n : Nat) : (word n).length = 4 := Npy.ByteOrder.length_bytes .big 4 n

/-- The header chunk has eight bytes in front of its data: how much there is of it, and its kind. -/
theorem exists_header (data : List UInt8) :
    ∃ head checksum, head.length = 8 ∧
      (Chunk.mk "IHDR" data).bytes = head ++ (data ++ checksum) := by
  refine ⟨word data.length ++ "IHDR".toUTF8.data.toList,
    word (crc ("IHDR".toUTF8.data.toList ++ data)).toNat, ?_, ?_⟩
  · rw [List.length_append, length_word]
    rfl
  · simp [Chunk.bytes, chunk]

/-- **A picture says how large it is**, in two words of four bytes right behind its signature and
the head of its first chunk. -/
theorem IsPicture.size?_eq {bytes : List UInt8} (h : IsPicture bytes width height) :
    size? bytes = some (width, height) := by
  obtain ⟨-, hwidth, -, hheight, p, -, hbytes⟩ := h
  obtain ⟨head, checksum, hhead, hheader⟩ :=
    exists_header (word width ++ word height ++ [p.depth, p.colourType, 0, 0, p.interlacing])
  rw [Parts.chunks, List.flatMap_cons, hheader] at hbytes
  have hsignature : signature.length = 8 := rfl
  have hstart : bytes.take 8 = signature := by
    rw [hbytes]
    exact List.take_left' hsignature
  obtain ⟨rest, hparts⟩ :
      ∃ rest, bytes = (signature ++ head) ++ (word width ++ (word height ++ rest)) := by
    refine ⟨[p.depth, p.colourType, 0, 0, p.interlacing] ++ (checksum ++
      (p.before ++ p.pixels ++ p.after ++ [Chunk.mk "IEND" []]).flatMap Chunk.bytes), ?_⟩
    rw [hbytes]
    simp only [List.append_assoc]
  have hsizes : bytes.drop 16 = word width ++ (word height ++ rest) := by
    rw [hparts]
    exact List.drop_left' (by rw [List.length_append, hsignature, hhead])
  have hheights : bytes.drop 20 = word height ++ rest := by
    rw [← List.drop_drop (i := 4) (j := 16), hsizes]
    exact List.drop_left' (length_word width)
  have hlength : 24 ≤ bytes.length := by
    rw [hparts]
    simp only [List.length_append, length_word, hsignature, hhead]
    omega
  unfold size?
  rw [if_pos ⟨hstart, hlength⟩, hsizes, hheights, List.take_left' (length_word width),
    List.take_left' (length_word height), number_word hwidth, number_word hheight]

/-! ## The white picture

Its pixels are one chunk, which has to be short enough to state its length. -/

theorem length_packBits (bits : List Bool) : (packBits bits).length = (bits.length + 7) / 8 := by
  induction bits using packBits.induct with
  | case1 => simp [packBits]
  | case2 bit bits ih =>
    rw [packBits, List.length_cons, ih, List.length_drop]
    simp only [List.length_cons]
    omega

/-- Compression never takes more than a few bytes beyond what it is given. -/
theorem length_compressedZeros (n : Nat) : (compressedZeros n).length ≤ n + 9 := by
  have hcode : zeroCode.length = 8 := rfl
  have hrepeat : repeatCode.length = 13 := rfl
  have hend : endCode.length = 7 := rfl
  have hrepeats : (n - 1) / 258 * 258 ≤ n - 1 := Nat.div_mul_le_self _ _
  have hblock : (zerosBlock n).length ≤ 8 * n + 18 := by
    simp only [zerosBlock, List.length_append, List.length_flatten, List.map_replicate,
      List.sum_replicate, List.length_cons, List.length_nil, hcode, hrepeat, hend, smul_eq_mul]
    omega
  simp only [compressedZeros, List.length_append, List.length_cons, List.length_nil,
    length_packBits, length_word]
  omega

theorem Fits.lt (h : Fits width height) : width < 2 ^ 32 ∧ height < 2 ^ 32 := by
  obtain ⟨-, hheight, hsize⟩ := h
  unfold blankSize at hsize
  have hrow : 1 + (width + 7) / 8 ≤ height * (1 + (width + 7) / 8) :=
    Nat.le_mul_of_pos_left _ hheight
  have hrows : height ≤ height * (1 + (width + 7) / 8) := Nat.le_mul_of_pos_right _ (by omega)
  omega

theorem isPicture_blank (h : Fits width height) : IsPicture (blank width height) width height := by
  obtain ⟨hwidth, hheight⟩ := h.lt
  let palette : Chunk := ⟨"PLTE", [0xFF, 0xFF, 0xFF]⟩
  let pixels : Chunk := ⟨"IDAT", compressedZeros (blankSize width height)⟩
  have hpalette : palette.Sound := ⟨by decide, List.all_eq_true.mp (by decide), by decide⟩
  have hpixels : pixels.Sound := by
    refine ⟨(by decide : "IDAT".length = 4),
      List.all_eq_true.mp (by decide : "IDAT".toList.all Char.isAlpha = true), ?_⟩
    have hlength := length_compressedZeros (blankSize width height)
    have hsize := h.2.2
    dsimp only [pixels]
    omega
  refine ⟨h.1, hwidth, h.2.1, hheight, ⟨1, 3, 0, [palette], [pixels], []⟩, ?_, ?_⟩
  · exact {
      format := (by decide : (1, 3) ∈ formats)
      interlacing := (by decide : (0 : UInt8) ≤ 1)
      pixels_ne_nil := by simp
      pixels_kind := by simp [pixels]
      others_kind := by simp [palette]
      palette := by simp [palette]
      sound := by simp [hpalette, hpixels] }
  · simp [blank, header, Parts.chunks, Chunk.bytes, palette, pixels]

end

end Png

/-! ## Renderers -/

/-- Whatever a renderer draws is a picture of the size that was asked for. -/
def Renderer.DrawsPictures (renderer : Renderer) : Prop :=
  ∀ d picture, renderer.draw d = .ok picture → Png.IsPicture picture d.style.width d.style.height

theorem Renderer.white_drawsPictures : Renderer.white.DrawsPictures := by
  intro d picture h
  unfold white at h
  dsimp only at h
  split at h
  next hfits =>
    cases h
    exact Png.isPicture_blank hfits
  next => cases h

end Beamline
