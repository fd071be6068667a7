import Mathlib.Tactic
import Beamline.Npy.Array
import Beamline.Proofs.Outcome

/-!
# Reading — what a reader of one element type can answer

`readAs` is asked once for every element type, and all that is asked of it afterwards is which of
its answers say "another type". This file settles that in two steps. A header that cannot be read
is answered the same way by every type, and never as another type (`readHeader_fault`). A header
that can be read is answered as another type exactly when its descriptor is none of the type's own
(`readAs_eq_otherElement_iff`), provided that the size of the shape is not what is complained about
first; `Shape.fits_of_nonzeroElements` says when it is not.
-/

set_option autoImplicit false

namespace Beamline

/-! ## Sizes -/

namespace Shape

/-- The product of the non-zero lengths. A shape with an axis of length zero has no elements, and
yet its other axes have to be counted by the reader one after another. -/
def nonzeroElements (shape : List Nat) : Nat := elements (shape.filter (· ≠ 0))

theorem nonzeroElements_cons (n : Nat) (rest : List Nat) :
    nonzeroElements (n :: rest) = (if n = 0 then 1 else n) * nonzeroElements rest := by
  unfold nonzeroElements elements
  by_cases h : n = 0 <;> simp [h]

theorem nonzeroElements_pos (shape : List Nat) : 0 < nonzeroElements shape := by
  induction shape with
  | nil => exact Nat.one_pos
  | cons n rest ih =>
    rw [nonzeroElements_cons]
    split
    · simpa using ih
    · next h => exact Nat.mul_pos (Nat.pos_of_ne_zero h) ih

/-- Counting axis by axis never exceeds the product of the non-zero lengths, so it does not overflow
on the way if that product does not. -/
theorem count?_from {shape : List Nat} {n : Nat}
    (h : n * nonzeroElements shape ≤ maxWord) :
    shape.foldlM (fun n length => if n * length ≤ maxWord then some (n * length) else none) n =
      some (n * elements shape) := by
  induction shape generalizing n with
  | nil => simp [elements]
  | cons length rest ih =>
    have hpos := nonzeroElements_pos rest
    rw [nonzeroElements_cons] at h
    have hstep : n * length * nonzeroElements rest ≤ maxWord := by
      by_cases h0 : length = 0
      · simp [h0]
      · rw [if_neg h0, ← Nat.mul_assoc] at h
        exact h
    have hle : n * length ≤ maxWord := (Nat.le_mul_of_pos_right _ hpos).trans hstep
    rw [List.foldlM_cons, if_pos hle]
    show List.foldlM _ (n * length) rest = _
    rw [ih hstep]
    simp [elements, Nat.mul_assoc]

theorem elements_le_nonzeroElements (shape : List Nat) :
    elements shape ≤ nonzeroElements shape := by
  induction shape with
  | nil => exact Nat.le_refl _
  | cons n rest ih =>
    rw [nonzeroElements_cons]
    show n * elements rest ≤ _
    by_cases h : n = 0
    · simp [h]
    · rw [if_neg h]
      exact Nat.mul_le_mul_left n ih

/-- No length exceeds the product of the non-zero ones. -/
theorem le_nonzeroElements {shape : List Nat} {n : Nat} (h : n ∈ shape) :
    n ≤ nonzeroElements shape := by
  induction shape with
  | nil => cases h
  | cons m shape ih =>
    rw [nonzeroElements_cons]
    have hpos := nonzeroElements_pos shape
    rcases List.mem_cons.mp h with rfl | hrest
    · by_cases h0 : n = 0
      · omega
      · rw [if_neg h0]
        exact Nat.le_mul_of_pos_right n hpos
    · have hone : 0 < if m = 0 then 1 else m := by split <;> omega
      exact (ih hrest).trans (Nat.le_mul_of_pos_left _ hone)

/-- A shape whose non-zero lengths leave room for `width` bytes each is accepted at that width. No
width is more than 8, so one bound is enough for all of them. -/
theorem fits_of_nonzeroElements {width : Nat} {shape : List Nat} (hw : width ≤ 8)
    (h : 8 * nonzeroElements shape ≤ maxElements) : fits width shape = true := by
  have hcount : count? shape = some (elements shape) := by
    -- Room for eight bytes each leaves the count itself far below a machine word.
    have hword : maxElements ≤ maxWord := by decide
    have hone : 1 * nonzeroElements shape ≤ maxWord := by omega
    exact (count?_from hone).trans (congrArg some (Nat.one_mul _))
  unfold fits
  rw [hcount]
  have hle := elements_le_nonzeroElements shape
  have : elements shape * width ≤ nonzeroElements shape * 8 := Nat.mul_le_mul hle hw
  exact decide_eq_true (by omega)

end Shape

/-! ## Headers -/

namespace Npy

/-- Every fault of a header is worded as one, unless the file ends inside it. What matters is that
it is never taken for another type of elements. -/
def Fault.OfHeader (f : Fault) : Prop := f = .endsInHeader ∨ f.headerText?.isSome = true

theorem takeBytes_fault {n : Nat} {bytes : List UInt8} {f : Fault}
    (h : takeBytes n bytes = .error f) : f.OfHeader := by
  unfold takeBytes at h
  dsimp only at h
  split at h
  · cases h
    exact Or.inl rfl
  · cases h

theorem descriptionText_fault {unicode : Bool} {bytes : List UInt8} {f : Fault}
    (h : descriptionText unicode bytes = .error f) : f.OfHeader := by
  unfold descriptionText at h
  split at h
  · split at h
    · cases h
    · cases h
      exact Or.inr rfl
  · split at h
    · cases h
    · cases h
      exact Or.inr rfl

theorem Header.Draft.add_fault {d : Header.Draft} {key value : Literal} {f : Fault}
    (h : d.add key value = .error f) : f.OfHeader := by
  unfold Header.Draft.add at h
  repeat' split at h
  all_goals
    cases h
    try exact Or.inr rfl

theorem Header.Draft.complete_fault {d : Header.Draft} {f : Fault}
    (h : d.complete = .error f) : f.OfHeader := by
  unfold Header.Draft.complete at h
  split at h
  all_goals
    cases h
    try exact Or.inr rfl

theorem Header.Draft.foldlM_fault {entries : List (Literal × Literal)} {d : Header.Draft}
    {f : Fault}
    (h : entries.foldlM (fun d (key, value) => d.add key value) d = .error f) : f.OfHeader := by
  induction entries generalizing d with
  | nil => cases h
  | cons entry rest ih =>
    obtain ⟨key, value⟩ := entry
    rw [List.foldlM_cons] at h
    rcases bind_eq_error_iff.mp h with hadd | ⟨d', -, hrest⟩
    · exact Header.Draft.add_fault hadd
    · exact ih hrest

theorem Header.ofLiteral_fault {value : Literal} {f : Fault}
    (h : Header.ofLiteral value = .error f) : f.OfHeader := by
  unfold Header.ofLiteral at h
  split at h
  · rcases bind_eq_error_iff.mp h with hfold | ⟨d, -, hcomplete⟩
    · exact Header.Draft.foldlM_fault hfold
    · exact Header.Draft.complete_fault hcomplete
  · cases h
    exact Or.inr rfl

/-- Each stage of reading a header can fail, and each fails in this way. -/
theorem readHeader_fault {bytes : List UInt8} {f : Fault} (h : readHeader bytes = .error f) :
    f.OfHeader := by
  unfold readHeader at h
  -- Stage by stage: either the stage fails and its own lemma speaks, or the next one is looked at.
  rcases bind_eq_error_iff.mp h with h | ⟨⟨start, rest⟩, -, h⟩
  · exact takeBytes_fault h
  dsimp only at h
  split at h
  · cases h
    exact Or.inr rfl
  rcases bind_eq_error_iff.mp h with h | ⟨⟨version, rest⟩, -, h⟩
  · exact takeBytes_fault h
  dsimp only at h
  split at h
  · rcases bind_eq_error_iff.mp h with h | ⟨⟨length, rest⟩, -, h⟩
    · exact takeBytes_fault h
    rcases bind_eq_error_iff.mp h with h | ⟨⟨description, rest⟩, -, h⟩
    · exact takeBytes_fault h
    dsimp only at h
    split at h
    · cases h
      exact Or.inr rfl
    rcases bind_eq_error_iff.mp h with h | ⟨text, -, h⟩
    · exact descriptionText_fault h
    split at h
    · rcases bind_eq_error_iff.mp h with h | ⟨header, -, h⟩
      · exact Header.ofLiteral_fault h
      · cases h
    · cases h
      exact Or.inr rfl
  · cases h
    exact Or.inr rfl

/-! ## One element type -/

section

variable {e : Element} {bytes data : List UInt8} {header : Header}

/-- A header that cannot be read is answered the same way whatever is asked for, so the first type
that is tried decides. -/
theorem readAs_of_header_fault {f : Fault} (h : readHeader bytes = .error f) :
    readAs e bytes = .error f := by
  unfold readAs
  rw [h]
  rfl

/-- The file's descriptor is none of the type's own. -/
theorem readAs_of_order?_none (h : readHeader bytes = .ok (header, data))
    (hfits : Shape.fits e.width header.shape = true) (ho : e.order? header.descriptor = none) :
    readAs e bytes = .error .otherElement := by
  unfold readAs
  rw [h]
  show (if (! Shape.fits e.width header.shape) = true then _ else _) = _
  rw [hfits, if_neg (by decide), ho]
  rfl

/-- What is left once the descriptor is the type's own: the amount of data. Too little and too much
are different faults, and neither leads to another type being tried. -/
theorem readAs_of_order?_some (h : readHeader bytes = .ok (header, data))
    (hfits : Shape.fits e.width header.shape = true) {order : ByteOrder}
    (ho : e.order? header.descriptor = some order) :
    readAs e bytes =
      if data.length < Shape.elements header.shape * e.width then .error .missingData
      else if Shape.elements header.shape * e.width < data.length then
        .error (.extraBytes (data.length - Shape.elements header.shape * e.width))
      else
        .ok {
          shape := header.shape
          columnMajor := header.columnMajor
          values := ((words e.width (Shape.elements header.shape) data).map fun w =>
            e.value (order.word w)).toArray
          size_eq := by simp [length_words] } := by
  unfold readAs
  rw [h]
  show (if (! Shape.fits e.width header.shape) = true then _ else _) = _
  rw [hfits, if_neg (by decide), ho]
  dsimp only
  split
  · rfl
  · split <;> rfl

/-- **Another type is answered exactly when the descriptor is none of the type's own.** -/
theorem readAs_eq_otherElement_iff (h : readHeader bytes = .ok (header, data))
    (hfits : Shape.fits e.width header.shape = true) :
    readAs e bytes = .error .otherElement ↔ e.order? header.descriptor = none := by
  constructor
  · intro hother
    cases ho : e.order? header.descriptor with
    | none => rfl
    | some order =>
      rw [readAs_of_order?_some h hfits ho] at hother
      split at hother
      · cases hother
      · split at hother <;> cases hother
  · exact readAs_of_order?_none h hfits

end

end Npy
end Beamline
