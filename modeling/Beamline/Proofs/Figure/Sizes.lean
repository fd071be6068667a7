import Beamline.Proofs.Figure.Pixels

/-!
# Sizes — what a setting does to a figure

Nine numbers are set, five are counted in pixels, in each of two figures. Which comes of which is a
matter of wiring, and it is written down once: a figure has one resolution, each of its dimensions
has one size, and no other number is read for it (`count_style`). Three of the sizes are shared by
the two figures, the rest is not.

So to change one size is to change one argument of a count, or none, and what is known of a count by
itself is known of all settings (`FigureSizes.scales`). The sizes of a font and a marker are divided
before they are counted, which keeps their order, also where they are infinite
(`place_inches_mono`).
-/

set_option autoImplicit false

namespace Beamline

open Binary64

/-! ## Settings and dimensions -/

/-- The two kinds of figure. -/
inductive FigureKind where
  | comparison
  | steps
deriving DecidableEq

/-- What can be set of the figures but for their resolutions. -/
inductive PhysicalSize where
  | width (kind : FigureKind)
  | height (kind : FigureKind)
  | font
  | marker
  | margin
deriving DecidableEq

/-- What is counted in pixels. -/
inductive Dimension where
  | width
  | height
  | font
  | marker
  | margin
deriving DecidableEq

namespace Dimension

/-- The size that a dimension of a figure comes of. -/
def size (kind : FigureKind) : Dimension → PhysicalSize
  | width => .width kind
  | height => .height kind
  | font => .font
  | marker => .marker
  | margin => .margin

/-- A size in inches. A font is set in points, and so is the diameter of a marker, of which half is
counted. -/
def inches : Dimension → Binary64 → Binary64
  | font, x => x / Style.pointsPerInch
  | marker, x => 0.5 * x / Style.pointsPerInch
  | _, x => x

end Dimension

def Style.count (style : Style) : Dimension → Nat
  | .width => style.width
  | .height => style.height
  | .font => style.font
  | .marker => style.marker
  | .margin => style.margin

namespace FigureSizes

def style (sizes : FigureSizes) : FigureKind → Style
  | .comparison => .comparison sizes
  | .steps => .steps sizes

def resolution (sizes : FigureSizes) : FigureKind → Binary64
  | .comparison => sizes.dpi
  | .steps => sizes.stepsDpi

def withResolution (sizes : FigureSizes) (x : Binary64) : FigureKind → FigureSizes
  | .comparison => { sizes with dpi := x }
  | .steps => { sizes with stepsDpi := x }

def size (sizes : FigureSizes) : PhysicalSize → Binary64
  | .width .comparison => sizes.widthIn
  | .width .steps => sizes.stepsWidthIn
  | .height .comparison => sizes.heightIn
  | .height .steps => sizes.stepsHeightIn
  | .font => sizes.fontPt
  | .marker => sizes.markerPt
  | .margin => sizes.marginIn

def withSize (sizes : FigureSizes) (x : Binary64) : PhysicalSize → FigureSizes
  | .width .comparison => { sizes with widthIn := x }
  | .width .steps => { sizes with stepsWidthIn := x }
  | .height .comparison => { sizes with heightIn := x }
  | .height .steps => { sizes with stepsHeightIn := x }
  | .font => { sizes with fontPt := x }
  | .marker => { sizes with markerPt := x }
  | .margin => { sizes with marginIn := x }

variable (sizes : FigureSizes) (x : Binary64)

theorem size_withSize_self (size : PhysicalSize) : (sizes.withSize x size).size size = x := by
  rcases size with ⟨_ | _⟩ | ⟨_ | _⟩ | _ | _ | _ <;> rfl

theorem size_withSize_of_ne {size other : PhysicalSize} (h : other ≠ size) :
    (sizes.withSize x size).size other = sizes.size other := by
  rcases size with ⟨_ | _⟩ | ⟨_ | _⟩ | _ | _ | _ <;>
    rcases other with ⟨_ | _⟩ | ⟨_ | _⟩ | _ | _ | _ <;> first | rfl | exact absurd rfl h

theorem resolution_withSize (size : PhysicalSize) (kind : FigureKind) :
    (sizes.withSize x size).resolution kind = sizes.resolution kind := by
  rcases size with ⟨_ | _⟩ | ⟨_ | _⟩ | _ | _ | _ <;> cases kind <;> rfl

theorem resolution_withResolution_self (kind : FigureKind) :
    (sizes.withResolution x kind).resolution kind = x := by
  cases kind <;> rfl

theorem resolution_withResolution_of_ne {kind other : FigureKind} (h : other ≠ kind) :
    (sizes.withResolution x kind).resolution other = sizes.resolution other := by
  cases kind <;> cases other <;> first | rfl | exact absurd rfl h

theorem size_withResolution (kind : FigureKind) (size : PhysicalSize) :
    (sizes.withResolution x kind).size size = sizes.size size := by
  rcases size with ⟨_ | _⟩ | ⟨_ | _⟩ | _ | _ | _ <;> cases kind <;> rfl

/-! ## Counts -/

/-- A dimension in inches times the resolution, before it is rounded to pixels. -/
def product (kind : FigureKind) (dimension : Dimension) : Binary64 :=
  dimension.inches (sizes.size (dimension.size kind)) * sizes.resolution kind

/-- A count comes of one size and one resolution. -/
theorem count_style (kind : FigureKind) (dimension : Dimension) :
    (sizes.style kind).count dimension =
      Style.pixels (sizes.resolution kind)
        (dimension.inches (sizes.size (dimension.size kind))) := by
  -- Not by `rfl`, which would go on into the units of the constants.
  cases kind <;> cases dimension <;>
    simp only [style, Style.comparison, Style.steps, Style.atResolution, Style.count,
      resolution, size, Dimension.size, Dimension.inches]

end FigureSizes

/-! ## Inches -/

theorem Style.signed_pointsPerInch :
    pointsPerInch.signed = some ((72 * unitsPerOne : Nat) : ℤ) := by
  decide +kernel

namespace Dimension

variable {x y : Binary64}

/-- A larger size is more inches. -/
theorem place_inches_mono (dimension : Dimension) (h : x.place ≤ y.place) :
    (dimension.inches x).place ≤ (dimension.inches y).place := by
  have hpoints : 0 < 72 * unitsPerOne := Nat.mul_pos (by decide) unitsPerOne_pos
  have hhalf : 0 ≤ (0.5 : Binary64).place := by decide +kernel
  cases dimension with
  | font => exact place_div_mono_of_pos Style.signed_pointsPerInch hpoints h
  | marker =>
    exact place_div_mono_of_pos Style.signed_pointsPerInch hpoints (place_mul_mono hhalf h)
  | width | height | margin => exact h

theorem place_inches_nonneg (dimension : Dimension) (h : 0 ≤ x.place) :
    0 ≤ (dimension.inches x).place := by
  have hzero : (dimension.inches (zero .plus)).place = 0 := by cases dimension <;> decide +kernel
  exact hzero.symm.trans_le (place_inches_mono dimension h)

end Dimension

/-! ## Changing a setting -/

namespace FigureSizes

/-- What the figures promise whatever is set: nothing is without extent, and nothing shrinks by
asking for more. -/
structure Scales (sizes : FigureSizes) : Prop where
  bounded : ∀ kind dimension,
    1 ≤ (sizes.style kind).count dimension ∧ (sizes.style kind).count dimension ≤ 2 ^ 32 - 1
  /-- Up to the greatest count, pixels are the product rounded to a whole number. -/
  near : ∀ kind dimension, 1 / 2 ≤ (sizes.product kind dimension).toRat →
    (sizes.product kind dimension).toRat ≤ 2 ^ 32 - 3 / 2 →
    |((sizes.style kind).count dimension : ℚ) - (sizes.product kind dimension).toRat| ≤ 1 / 2
  /-- A higher resolution takes no pixel from a size that is not negative. -/
  resolution_mono : ∀ kind x, (sizes.resolution kind).le x = true →
    ∀ kind' dimension, (sizes.size (dimension.size kind')).lt (zero .plus) = false →
      (sizes.style kind').count dimension ≤
        ((sizes.withResolution x kind).style kind').count dimension
  /-- A larger size takes no pixel from any dimension. -/
  size_mono : ∀ size x, (sizes.size size).lt (zero .plus) = false → (sizes.size size).le x = true →
    ∀ kind dimension, (sizes.style kind).count dimension ≤
      ((sizes.withSize x size).style kind).count dimension
  /-- Another size, of whatever value, leaves the pixels of this one as they are. -/
  size_separate : ∀ size x kind dimension, dimension.size kind ≠ size →
    ((sizes.withSize x size).style kind).count dimension = (sizes.style kind).count dimension
  comparison_ignores : ∀ width height dpi,
    Style.comparison
        { sizes with stepsWidthIn := width, stepsHeightIn := height, stepsDpi := dpi } =
      Style.comparison sizes
  steps_ignores : ∀ width height dpi,
    Style.steps { sizes with widthIn := width, heightIn := height, dpi := dpi } = Style.steps sizes

variable (sizes : FigureSizes)

theorem count_withSize_of_ne (x : Binary64) {size : PhysicalSize} {kind : FigureKind}
    {dimension : Dimension} (h : dimension.size kind ≠ size) :
    ((sizes.withSize x size).style kind).count dimension = (sizes.style kind).count dimension := by
  rw [count_style, count_style, resolution_withSize, size_withSize_of_ne sizes x h]

theorem count_le_withSize {x : Binary64} {size : PhysicalSize} (hsize : 0 ≤ (sizes.size size).place)
    (hx : (sizes.size size).place ≤ x.place) (kind : FigureKind) (dimension : Dimension) :
    (sizes.style kind).count dimension ≤ ((sizes.withSize x size).style kind).count dimension := by
  by_cases h : dimension.size kind = size
  · subst h
    rw [count_style, count_style, resolution_withSize, size_withSize_self]
    exact Style.pixels_mono_inches (dimension.place_inches_nonneg hsize)
      (dimension.place_inches_mono hx)
  · exact (sizes.count_withSize_of_ne x h).ge

theorem count_le_withResolution {x : Binary64} {kind : FigureKind}
    (hx : (sizes.resolution kind).place ≤ x.place) {kind' : FigureKind} {dimension : Dimension}
    (hsize : 0 ≤ (sizes.size (dimension.size kind')).place) :
    (sizes.style kind').count dimension ≤
      ((sizes.withResolution x kind).style kind').count dimension := by
  rw [count_style, count_style, size_withResolution]
  refine Style.pixels_mono_dpi (dimension.place_inches_nonneg hsize) ?_
  by_cases h : kind' = kind
  · subst h
    rwa [resolution_withResolution_self]
  · rw [resolution_withResolution_of_ne sizes x h]

/-- **Pixels are counted validly, and grow with what is set.** Take any settings, whatever values
they hold. Each dimension of each figure has from one pixel to the greatest number that 32 bits
hold, and it is the product rounded to a whole number where that lies between. No pixel is lost to a
higher resolution or to a larger size, as long as the size is not negative; a change of one size is
seen in that size only; and what is set for one of the figures alone is not seen in the other. -/
theorem scales : sizes.Scales where
  bounded kind dimension := by
    rw [count_style]
    exact ⟨Style.one_le_pixels _ _, Style.pixels_le _ _⟩
  near kind dimension hlow hhigh := by
    rw [count_style]
    exact Style.abs_pixels_sub_le hlow hhigh
  resolution_mono _ _ hx _ _ hsize :=
    sizes.count_le_withResolution (place_le_place hx) (place_nonneg hsize)
  size_mono _ _ hsize hx := sizes.count_le_withSize (place_nonneg hsize) (place_le_place hx)
  size_separate _ x _ _ h := sizes.count_withSize_of_ne x h
  comparison_ignores _ _ _ := rfl
  steps_ignores _ _ _ := rfl

/-- Settings with a product halfway to a pixel, an infinite height and a font of no size, which are
raised to an infinite resolution and a marker that was a negative zero. -/
theorem scales_of_extremes :
    let sizes : FigureSizes :=
      { standard with
        widthIn := 0.05
        heightIn := infinite .plus
        dpi := 10.0
        fontPt := nan
        markerPt := zero .minus }
    (1 / 2 ≤ (sizes.product .comparison .width).toRat ∧
      (sizes.product .comparison .width).toRat ≤ 2 ^ 32 - 3 / 2 ∧
      |((sizes.style .comparison).count .width : ℚ) - (sizes.product .comparison .width).toRat| ≤
        1 / 2) ∧
    ((sizes.resolution .comparison).le (infinite .plus) = true ∧
      (sizes.size (Dimension.height.size .comparison)).lt (zero .plus) = false ∧
      (sizes.style .comparison).count .height ≤
        ((sizes.withResolution (infinite .plus) .comparison).style .comparison).count .height) ∧
    ((sizes.size .marker).lt (zero .plus) = false ∧ (sizes.size .marker).le 10.0 = true ∧
      (sizes.style .steps).count .marker ≤
        ((sizes.withSize 10.0 .marker).style .steps).count .marker) ∧
    (Dimension.font.size .comparison ≠ .marker ∧
      ((sizes.withSize 10.0 .marker).style .comparison).count .font =
        (sizes.style .comparison).count .font) := by
  intro sizes
  have h := scales sizes
  have hlow : 1 / 2 ≤ (sizes.product .comparison .width).toRat := by decide +kernel
  have hhigh : (sizes.product .comparison .width).toRat ≤ 2 ^ 32 - 3 / 2 := by decide +kernel
  have hresolution : (sizes.resolution .comparison).le (infinite .plus) = true := by decide +kernel
  have hheight : (sizes.size (Dimension.height.size .comparison)).lt (zero .plus) = false := by
    decide +kernel
  have hmarker : (sizes.size .marker).lt (zero .plus) = false := by decide +kernel
  have hlarger : (sizes.size .marker).le 10.0 = true := by decide +kernel
  have hother : Dimension.font.size .comparison ≠ .marker := by decide
  exact ⟨⟨hlow, hhigh, h.near .comparison .width hlow hhigh⟩,
    ⟨hresolution, hheight, h.resolution_mono .comparison _ hresolution .comparison .height hheight⟩,
    ⟨hmarker, hlarger, h.size_mono .marker _ hmarker hlarger .steps .marker⟩,
    ⟨hother, h.size_separate .marker _ .comparison .font hother⟩⟩

end FigureSizes
end Beamline
