import Beamline.Proofs.Npy.File
import Beamline.Proofs.Npy.Reading
import Beamline.Run.Load

/-!
# Dispatch — trying every type is asking the right one

A series is loaded by trying ten readers in turn, and the turn ends at the first answer that is not
"another type". That is a loop whose outcome could depend on its order: a reader of the wrong type
that complained about something else first would hide the right one. `ofFileTrying_eq_byType` says
that none does. Loading is one look at the header and one reader, whatever the order of the ten and
however broken the file is.

## The condition

Each reader checks that the promised bytes can be addressed *before* it looks at the descriptor, and
how many bytes are promised depends on its own width. So there are shapes that only the wide types
complain about, and for those the loop does depend on its order. `Addressable` leaves exactly these
out: it asks for room at eight bytes an element, the width that the first reader asks for anyway.
-/

set_option autoImplicit false

namespace Beamline
namespace StepSeries

/-- The header cannot be read, or its shape leaves room for eight bytes an element. -/
def Addressable (bytes : List UInt8) : Prop :=
  ∀ header data, Npy.readHeader bytes = .ok (header, data) →
    8 * Shape.nonzeroElements header.shape ≤ Shape.maxElements

/-- The outcome that a reader's answer makes, if it is the last word: a series, or a failure with
the path in its headline and the reader's fault below it. -/
def settle (path : String) : Except Npy.Fault (Cube Binary64) → Outcome StepSeries
  | .ok cube => ofCube cube
  | .error fault => .error ⟨[.readSeries path], .npy fault, none⟩

/-- Loading by a typed dispatch: the header is read once, and the reader that it names is asked. -/
def byType (path : String) (bytes : List UInt8) : Outcome StepSeries :=
  match Npy.readHeader bytes with
  | .error fault => settle path (.error fault)
  | .ok (header, _) =>
    match Npy.Element.all.find? fun e => (e.order? header.descriptor).isSome with
    | none => .error (Failure.of (.notNumeric path))
    | some e => settle path (readCube e bytes)

/-! ## The loop -/

section

variable {path : String} {bytes : List UInt8}

/-- A reader of another type is passed over. -/
theorem ofFileTrying_skip {e : Npy.Element} {es : List Npy.Element}
    (h : readCube e bytes = .error .otherElement) :
    ofFileTrying path bytes (e :: es) = ofFileTrying path bytes es := by
  rw [ofFileTrying, h]

theorem ofFileTrying_settle {e : Npy.Element} {es : List Npy.Element}
    (h : readCube e bytes ≠ .error .otherElement) :
    ofFileTrying path bytes (e :: es) = settle path (readCube e bytes) := by
  rw [ofFileTrying]
  cases hread : readCube e bytes with
  | ok cube => rfl
  | error fault =>
    cases fault with
    | otherElement => exact absurd hread h
    | _ => rfl

/-- Where every reader reads another type, so does the loop. -/
theorem ofFileTrying_of_none {es : List Npy.Element}
    (h : ∀ e ∈ es, readCube e bytes = .error .otherElement) :
    ofFileTrying path bytes es = .error (Failure.of (.notNumeric path)) := by
  induction es with
  | nil => rfl
  | cons e es ih =>
    rw [ofFileTrying_skip (h e List.mem_cons_self)]
    exact ih fun e' he' => h e' (List.mem_cons_of_mem _ he')

/-- Where one reader alone does not, the loop ends at that one, wherever it stands. By induction on
the readers that are left: those before it pass, and those after it are not asked. -/
theorem ofFileTrying_of_unique {e : Npy.Element} {es : List Npy.Element} (hmem : e ∈ es)
    (he : readCube e bytes ≠ .error .otherElement)
    (hothers : ∀ e' ∈ es, e' ≠ e → readCube e' bytes = .error .otherElement) :
    ofFileTrying path bytes es = settle path (readCube e bytes) := by
  induction es with
  | nil => cases hmem
  | cons e₀ es ih =>
    by_cases h0 : e₀ = e
    · subst h0
      exact ofFileTrying_settle he
    · rw [ofFileTrying_skip (hothers e₀ List.mem_cons_self h0)]
      have hrest : e ∈ es := (List.mem_cons.mp hmem).resolve_left (Ne.symm h0)
      exact ih hrest fun e' he' => hothers e' (List.mem_cons_of_mem _ he')

end

/-! ## What the readers can answer -/

section

variable {bytes data : List UInt8} {header : Npy.Header}

/-- Making a cube of an array fails for its shape only, never as another type. So a reader that has
come that far settles the loop. -/
theorem cubeOf_ne_otherElement (a : Npy.Contents) : cubeOf a ≠ .error .otherElement := by
  unfold cubeOf
  intro h
  split at h
  · split at h
    · cases h
    · dsimp only at h
      split at h <;> cases h
  · cases h

theorem readCube_of_header_fault {e : Npy.Element} {f : Npy.Fault}
    (h : Npy.readHeader bytes = .error f) : readCube e bytes = .error f := by
  unfold readCube
  rw [Npy.readAs_of_header_fault h]
  rfl

/-- A reader answers "another type" exactly when the descriptor is none of its own. Here the
condition is used: without room for its own width a reader complains before it looks. -/
theorem readCube_eq_otherElement_iff {e : Npy.Element} (hsize : Addressable bytes)
    (h : Npy.readHeader bytes = .ok (header, data)) :
    readCube e bytes = .error .otherElement ↔ e.order? header.descriptor = none := by
  have hfits := Shape.fits_of_nonzeroElements e.width_le (hsize header data h)
  rw [← Npy.readAs_eq_otherElement_iff h hfits]
  unfold readCube
  rw [bind_eq_error_iff]
  constructor
  · rintro (hother | ⟨a, -, ha⟩)
    · exact hother
    · exact absurd ha (cubeOf_ne_otherElement a)
  · exact Or.inl

/-- **At most one reader answers anything else**, because a descriptor belongs to at most one
type. -/
theorem eq_of_readCube_ne {e e' : Npy.Element} (hsize : Addressable bytes)
    (h : Npy.readHeader bytes = .ok (header, data))
    (he : readCube e bytes ≠ .error .otherElement)
    (he' : readCube e' bytes ≠ .error .otherElement) : e = e' := by
  rw [Ne, readCube_eq_otherElement_iff hsize h] at he he'
  obtain ⟨order, ho⟩ := Option.ne_none_iff_exists'.mp he
  obtain ⟨order', ho'⟩ := Option.ne_none_iff_exists'.mp he'
  exact Npy.Element.eq_of_order? ho ho'

end

/-! ## The loop is the dispatch -/

section

variable {path : String} {bytes : List UInt8}

/-- A list of readers that leaves none out. It may be in any order and name some twice; all that
counts is who is asked. -/
def Complete (es : List Npy.Element) : Prop := ∀ e, e ∈ es

theorem Complete.ne_nil {es : List Npy.Element} (h : Complete es) : es ≠ [] := by
  rintro rfl
  cases h .float64

theorem complete_all : Complete Npy.Element.all := Npy.Element.mem_all

theorem Complete.of_perm {es : List Npy.Element} (h : es.Perm Npy.Element.all) : Complete es :=
  fun e => h.mem_iff.mpr (Npy.Element.mem_all e)

theorem ofFileTrying_of_header_fault {es : List Npy.Element} {f : Npy.Fault} (hes : Complete es)
    (h : Npy.readHeader bytes = .error f) :
    ofFileTrying path bytes es = settle path (.error f) := by
  cases es with
  | nil => exact absurd rfl hes.ne_nil
  | cons e es =>
    have hread : readCube e bytes = .error f := readCube_of_header_fault h
    have hne : readCube e bytes ≠ .error .otherElement := by
      rw [hread]
      rintro ⟨⟩
      rcases Npy.readHeader_fault h with hf | hf
      · cases hf
      · cases hf
    rw [ofFileTrying_settle hne, hread]

/-- **Trying every type, in any order, is asking the one that the header names.** -/
theorem ofFileTrying_eq_byType {es : List Npy.Element} (hes : Complete es)
    (hsize : Addressable bytes) : ofFileTrying path bytes es = byType path bytes := by
  unfold byType
  cases h : Npy.readHeader bytes with
  | error f => exact ofFileTrying_of_header_fault hes h
  | ok read =>
    obtain ⟨header, data⟩ := read
    dsimp only
    cases hfind : Npy.Element.all.find? fun e => (e.order? header.descriptor).isSome with
    | none =>
      -- No type knows the descriptor, so every reader passes.
      refine ofFileTrying_of_none fun e _ => (readCube_eq_otherElement_iff hsize h).mpr ?_
      have hnone := List.find?_eq_none.mp hfind e (Npy.Element.mem_all e)
      simpa using hnone
    | some e =>
      have hsome := List.find?_some hfind
      have hne : readCube e bytes ≠ .error .otherElement := by
        rw [Ne, readCube_eq_otherElement_iff hsize h]
        intro hnone
        rw [hnone] at hsome
        cases hsome
      refine ofFileTrying_of_unique (hes e) hne fun e' _ hne' => ?_
      by_contra hother
      exact hne' (eq_of_readCube_ne hsize h hother hne)

/-- The text of a failure that `settle` makes: its context, and the reader's fault below it. -/
theorem settle_error {fault : Npy.Fault} {f : Failure}
    (h : settle path (.error fault) = .error f) :
    f.headline = "Could not read step series from " ++ path ∧ f.cause = .npy fault := by
  cases h
  exact ⟨rfl, rfl⟩

/-- **Loading is a typed dispatch.** A header that cannot be read is everyone's answer and the
outcome. Otherwise at most one reader answers anything but "another type", its answer is the
outcome, and where there is none the elements are not numeric. So the order of the readers does not
matter. -/
theorem load_eq_typed_dispatch {t : Tree} (hread : t.read path = .ok bytes)
    (hsize : Addressable bytes) :
    (∀ fault, Npy.readHeader bytes = .error fault →
      (∀ e, readCube e bytes = .error fault) ∧
      ∃ f, load path t = .error f ∧ f.headline = "Could not read step series from " ++ path ∧
        f.cause = .npy fault) ∧
    (∀ header data, Npy.readHeader bytes = .ok (header, data) →
      (∀ e e', readCube e bytes ≠ .error .otherElement →
        readCube e' bytes ≠ .error .otherElement → e = e') ∧
      (∀ e cube, readCube e bytes = .ok cube → load path t = ofCube cube) ∧
      (∀ e fault, readCube e bytes = .error fault → fault ≠ .otherElement →
        ∃ f, load path t = .error f ∧ f.headline = "Could not read step series from " ++ path ∧
          f.cause = .npy fault) ∧
      ((∀ e, readCube e bytes = .error .otherElement) →
        ∃ f, load path t = .error f ∧
          f.message = "Could not read step series from " ++ path ++
            ": element type is not numeric")) ∧
    load path t = byType path bytes ∧
    ∀ es : List Npy.Element, es.Perm Npy.Element.all →
      ofFileTrying path bytes es = load path t := by
  have hload : load path t = ofFileTrying path bytes Npy.Element.all := by
    unfold load
    rw [hread]
    rfl
  have hone : ∀ header data, Npy.readHeader bytes = .ok (header, data) → ∀ e,
      readCube e bytes ≠ .error .otherElement → load path t = settle path (readCube e bytes) := by
    intro header data h e he
    rw [hload]
    refine ofFileTrying_of_unique (complete_all e) he fun e' _ hne => ?_
    by_contra hother
    exact hne (eq_of_readCube_ne hsize h hother he)
  refine ⟨fun fault h => ⟨fun e => readCube_of_header_fault h, ?_⟩, fun header data h =>
    ⟨fun e e' => eq_of_readCube_ne hsize h, ?_, ?_, ?_⟩, ?_, ?_⟩
  · exact ⟨_, hload.trans (ofFileTrying_of_header_fault complete_all h), settle_error rfl⟩
  · intro e cube hcube
    rw [hone header data h e (by rw [hcube]; rintro ⟨⟩), hcube]
    rfl
  · intro e fault hfault hne
    have he : readCube e bytes ≠ .error .otherElement := by
      rw [hfault]
      rintro ⟨⟩
      exact hne rfl
    have hsettle := hone header data h e he
    rw [hfault] at hsettle
    exact ⟨_, hsettle, settle_error rfl⟩
  · intro hnone
    exact ⟨_, hload.trans (ofFileTrying_of_none fun e _ => hnone e), rfl⟩
  · rw [hload, ofFileTrying_eq_byType complete_all hsize]
  · intro es hperm
    rw [hload, ofFileTrying_eq_byType (Complete.of_perm hperm) hsize,
      ofFileTrying_eq_byType complete_all hsize]

end

/-- A file of floats that ends too early: seven of eight bytes are there. -/
theorem load_eq_typed_dispatch_truncated :
    let bytes := Npy.file .one
      (Npy.usualText (Npy.Element.float32.usualDescriptor .big) false [1, 1, 2])
      [0x3F, 0x80, 0, 0, 0xC0, 0, 0]
    let t := Tree.empty.set ["a.npy"] (.file bytes)
    (∃ f, load "a.npy" t = .error f ∧ f.headline = "Could not read step series from a.npy" ∧
      f.cause = .npy .missingData) ∧
    ofFileTrying "a.npy" bytes Npy.Element.all.reverse = load "a.npy" t := by
  intro bytes t
  have hheader : Npy.readHeader bytes = .ok (⟨.string (Npy.Element.float32.usualDescriptor .big),
      false, [1, 1, 2]⟩, [0x3F, 0x80, 0, 0, 0xC0, 0, 0]) :=
    Npy.readHeader_file
      (Npy.described_usualText (Npy.plain_usualDescriptor .float32 .big) (by decide))
      (by decide) (by decide)
  have hsize : Addressable bytes := by
    intro header data h
    rw [hheader] at h
    cases h
    decide
  have hcube : readCube .float32 bytes = .error .missingData := by
    unfold readCube
    rw [Npy.readAs_of_order?_some hheader (by decide) rfl]
    rfl
  have hread : t.read "a.npy" = .ok bytes := rfl
  obtain ⟨-, houtcome, -, horder⟩ := load_eq_typed_dispatch hread hsize
  obtain ⟨-, -, hfault, -⟩ := houtcome _ _ hheader
  exact ⟨hfault .float32 .missingData hcube (by rintro ⟨⟩), horder _ (List.reverse_perm _)⟩

end StepSeries
end Beamline
