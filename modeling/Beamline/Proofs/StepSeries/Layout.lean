import Mathlib.Tactic
import Beamline.Beam.Cube
import Beamline.Npy.Array
import Beamline.Proofs.Npy.Element

/-!
# Layout — a cube and the list it is stored as

A cube is listed with its last index running fastest or with its first. Either list gives the cube
back (`ofRowMajor_rowMajor`, `ofColumnMajor_columnMajor`), because an entry stands where counting
its indices says. What a file holds is such a list with every entry as so many bytes, and cutting
the bytes into words gives the list back (`words_flatMap`).
-/

set_option autoImplicit false

namespace Beamline

/-! ## Lists of equal pieces -/

section

variable {α β : Type}

/-- An entry of equal pieces put end to end is an entry of one piece. A cube is listed by two of
these, one inside the other. -/
theorem getElem?_flatMap {l : List β} {f : β → List α} {m : Nat} (hlen : ∀ b, (f b).length = m)
    {i j : Nat} (hj : j < m) :
    (l.flatMap f)[i * m + j]? = l[i]?.bind fun b => (f b)[j]? := by
  induction l generalizing i with
  | nil => simp
  | cons b l ih =>
    rw [List.flatMap_cons]
    cases i with
    | zero =>
      rw [List.getElem?_append_left (by simp [hlen, hj])]
      simp
    | succ i =>
      have hsplit : (i + 1) * m + j = (f b).length + (i * m + j) := by
        rw [hlen, Nat.succ_mul]
        omega
      rw [hsplit, List.getElem?_append_right (Nat.le_add_right _ _), Nat.add_sub_cancel_left, ih]
      simp

theorem length_flatMap_of_length {l : List β} {f : β → List α} {m : Nat}
    (hlen : ∀ b, (f b).length = m) : (l.flatMap f).length = l.length * m := by
  simp [List.length_flatMap, hlen]

end

namespace Cube

variable {α β : Type}

/-- The cube of what some function makes of each entry. Words are stored and values are loaded: this
is the step from one to the other. -/
def map (f : α → β) (t : Cube α) : Cube β where
  first := t.first
  second := t.second
  third := t.third
  entry i j k := f (t.entry i j k)

/-- The values of a cube with the last index running fastest. -/
def rowMajor (t : Cube α) : List α :=
  (List.finRange t.first).flatMap fun i =>
    (List.finRange t.second).flatMap fun j =>
      (List.finRange t.third).map fun k => t.entry i j k

/-- The values of a cube with the first index running fastest. -/
def columnMajor (t : Cube α) : List α :=
  (List.finRange t.third).flatMap fun k =>
    (List.finRange t.second).flatMap fun j =>
      (List.finRange t.first).map fun i => t.entry i j k

theorem rowMajor_reverse (t : Cube α) : t.reverse.rowMajor = t.columnMajor := rfl

theorem length_rowMajor (t : Cube α) : t.rowMajor.length = t.first * t.second * t.third := by
  simp [rowMajor, Nat.mul_assoc]

theorem length_columnMajor (t : Cube α) : t.columnMajor.length = t.third * t.second * t.first := by
  rw [← rowMajor_reverse]
  exact length_rowMajor t.reverse

/-- An entry stands where its indices say, counted row by row. The same formula is in the program's
`ofRowMajor`, which asks the list for it. -/
theorem getElem?_rowMajor (t : Cube α) (i : Fin t.first) (j : Fin t.second) (k : Fin t.third) :
    t.rowMajor[(i.val * t.second + j.val) * t.third + k.val]? = some (t.entry i j k) := by
  have hline : ∀ i j, ((List.finRange t.third).map fun k => t.entry i j k).length = t.third := by
    simp
  have hplane : ∀ i, ((List.finRange t.second).flatMap fun j =>
      (List.finRange t.third).map fun k => t.entry i j k).length = t.second * t.third := by
    simp
  have hplace : (i.val * t.second + j.val) * t.third + k.val =
      i.val * (t.second * t.third) + (j.val * t.third + k.val) := by
    ring
  rw [hplace, rowMajor, getElem?_flatMap hplane (pair_lt j.isLt k.isLt)]
  simp [getElem?_flatMap (hline _) k.isLt]

/-- **A cube is what its values make, read the way they are listed.** -/
theorem ofRowMajor_rowMajor (t : Cube α) {values : Array α}
    (h : values.size = t.first * t.second * t.third) (hvalues : values = t.rowMajor.toArray) :
    ofRowMajor t.first t.second t.third values h = t := by
  subst hvalues
  obtain ⟨a, b, c, entry⟩ := t
  unfold ofRowMajor
  congr
  funext i j k
  have hentry := getElem?_rowMajor ⟨a, b, c, entry⟩ i j k
  simpa using (List.getElem?_eq_some_iff.mp hentry).2

/-- The other layout is the same one with the axes turned around, so nothing is proved twice. -/
theorem ofColumnMajor_columnMajor (t : Cube α) {values : Array α}
    (h : values.size = t.third * t.second * t.first) (hvalues : values = t.columnMajor.toArray) :
    ofColumnMajor t.first t.second t.third values h = t := by
  have hreverse := ofRowMajor_rowMajor t.reverse h (hvalues.trans (by rw [rowMajor_reverse]))
  exact congrArg reverse hreverse

theorem rowMajor_map (f : α → β) (t : Cube α) : (t.map f).rowMajor = t.rowMajor.map f := by
  simp [rowMajor, map, List.map_flatMap, Function.comp_def]

theorem columnMajor_map (f : α → β) (t : Cube α) :
    (t.map f).columnMajor = t.columnMajor.map f := by
  simp [columnMajor, map, List.map_flatMap, Function.comp_def]

theorem exists_of_mem_rowMajor {t : Cube α} {x : α} (h : x ∈ t.rowMajor) :
    ∃ i j k, t.entry i j k = x := by
  simpa [rowMajor] using h

theorem exists_of_mem_columnMajor {t : Cube α} {x : α} (h : x ∈ t.columnMajor) :
    ∃ i j k, t.entry i j k = x := by
  rw [← rowMajor_reverse] at h
  obtain ⟨k, j, i, hx⟩ := exists_of_mem_rowMajor h
  exact ⟨i, j, k, hx⟩

/-- Two cubes that agree in one reading of their entries agree in every reading that this one
settles. The first reading is what the words of two types stand for exactly, the second what is
loaded of them. -/
theorem map_eq_map {γ δ : Type} {f : α → γ} {g : β → γ} {f' : α → δ} {g' : β → δ} {t : Cube α}
    {u : Cube β} (h : t.map f = u.map g)
    (hentry : ∀ i j k i' j' k', f (t.entry i j k) = g (u.entry i' j' k') →
      f' (t.entry i j k) = g' (u.entry i' j' k')) : t.map f' = u.map g' := by
  obtain ⟨a, b, c, s⟩ := t
  obtain ⟨a', b', c', r⟩ := u
  unfold map at h ⊢
  dsimp only at h hentry ⊢
  injection h with ha hb hc he
  subst ha hb hc
  congr
  funext i j k
  have hone := congrFun (congrFun (congrFun (eq_of_heq he) i) j) k
  exact hentry i j k i j k hone

end Cube

/-! ## Bytes -/

namespace Npy

/-- Words are cut where they were put together, as each takes up the same number of bytes. The cubes
of a series are stored so, and the vectors that a run saves. -/
theorem words_flatMap {width : Nat} {bytes : Nat → List UInt8}
    (hlen : ∀ word, (bytes word).length = width) (list : List Nat) :
    words width list.length (list.flatMap bytes) = list.map bytes := by
  induction list with
  | nil => rfl
  | cons word list ih =>
    rw [List.length_cons, words, List.flatMap_cons, List.take_left' (hlen word),
      List.drop_left' (hlen word), ih, List.map_cons]

end Npy
end Beamline
