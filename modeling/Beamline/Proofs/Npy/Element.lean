import Mathlib.Tactic
import Beamline.Npy.Element
import Beamline.Proofs.Binary64.Formats

/-!
# Elements — descriptors that exclude each other, words that mean one value

Two facts about the ten element types. A descriptor is a descriptor of at most one of them
(`eq_of_order?`), which is why the order they are tried in is of no consequence. And a word of any
of them stands for an exact value (`Element.exact`), of which the value that is loaded is the
rounding (`isNearest_value`) and, for floats and for integers of 53 bits, the very same
(`exact_value`).

`Element.exact` is written without the code it judges: integers are two's complement as bit vectors
have it, floats are read as the standard has them.
-/

set_option autoImplicit false

namespace Beamline
namespace Npy

/-! ## Bytes -/

/-- The bytes of a word in some order: those of the little end first, or the same ones reversed. -/
def ByteOrder.bytes : ByteOrder → Nat → Nat → List UInt8
  | .little, width, word => littleEndian width word
  | .big, width, word => (littleEndian width word).reverse

theorem length_littleEndian (width n : Nat) : (littleEndian width n).length = width := by
  induction width generalizing n with
  | zero => rfl
  | succ width ih => rw [littleEndian, List.length_cons, ih]

theorem ByteOrder.length_bytes (order : ByteOrder) (width word : Nat) :
    (order.bytes width word).length = width := by
  cases order with
  | little => exact length_littleEndian width word
  | big => exact (List.length_reverse ..).trans (length_littleEndian width word)

theorem ofLittleEndian_littleEndian {width n : Nat} (h : n < 2 ^ (8 * width)) :
    ofLittleEndian (littleEndian width n) = n := by
  induction width generalizing n with
  | zero =>
    have : n = 0 := by simpa using h
    rw [this]
    rfl
  | succ width ih =>
    have hrest : n / 256 < 2 ^ (8 * width) := by
      rw [Nat.div_lt_iff_lt_mul (by decide)]
      rw [Nat.mul_succ, Nat.pow_add] at h
      exact h
    have hbyte : (UInt8.ofNat (n % 256)).toNat = n % 256 := by
      rw [UInt8.toNat_ofNat', Nat.mod_mod]
    rw [littleEndian, ofLittleEndian, ih hrest, hbyte]
    omega

/-- A word is read back from its bytes, in its own order, or in either order from a single byte. -/
theorem ByteOrder.word_bytes {order order' : ByteOrder} {width word : Nat}
    (h : word < 2 ^ (8 * width)) (ho : order' = order ∨ width = 1) :
    order'.word (order.bytes width word) = word := by
  have hsame : ∀ o : ByteOrder, o.word (o.bytes width word) = word := by
    intro o
    cases o with
    | little => exact ofLittleEndian_littleEndian h
    | big =>
      show ofLittleEndian (littleEndian width word).reverse.reverse = word
      rw [List.reverse_reverse]
      exact ofLittleEndian_littleEndian h
  rcases ho with rfl | rfl
  · exact hsame order'
  · -- One byte is its own reverse.
    cases order <;> cases order' <;> exact hsame _

namespace Element

theorem mem_all (e : Element) : e ∈ all := by
  cases e <;> decide

/-! ## Descriptors -/

/-- The code of a type: its kind and its width in bytes. The descriptors the program knows are
listed in its own code; these are made from a rule, and compared with that list. -/
def code : Element → List Char
  | float64 => ['f', '8']
  | float32 => ['f', '4']
  | int64 => ['i', '8']
  | int32 => ['i', '4']
  | int16 => ['i', '2']
  | int8 => ['i', '1']
  | uint64 => ['u', '8']
  | uint32 => ['u', '4']
  | uint16 => ['u', '2']
  | uint8 => ['u', '1']

def mark : ByteOrder → Char
  | .little => '<'
  | .big => '>'

/-- The descriptors of a type in a byte order. A single byte has no order: its descriptor has a bar
in the place of the mark, or nothing, or is one letter. -/
inductive Descriptor : Element → ByteOrder → List Char → Prop
  | ordered {e : Element} (order : ByteOrder) (h : e.width ≠ 1) :
      Descriptor e order (mark order :: e.code)
  | barred {e : Element} (order : ByteOrder) (h : e.width = 1) : Descriptor e order ('|' :: e.code)
  | bare {e : Element} (order : ByteOrder) (h : e.width = 1) : Descriptor e order e.code
  | signedLetter (order : ByteOrder) : Descriptor int8 order ['b']
  | unsignedLetter (order : ByteOrder) : Descriptor uint8 order ['B']

/-- The descriptor that programs write. -/
def usualDescriptor (e : Element) (order : ByteOrder) : List Char :=
  if e.width = 1 then '|' :: e.code else mark order :: e.code

theorem descriptor_usualDescriptor (e : Element) (order : ByteOrder) :
    Descriptor e order (e.usualDescriptor order) := by
  unfold usualDescriptor
  split
  · next h => exact .barred order h
  · next h => exact .ordered order h

/-- **No two types share a descriptor.** There are few enough of them to be compared one by one. -/
theorem descriptors_disjoint : ∀ e ∈ all, ∀ e' ∈ all, ∀ p ∈ e.descriptors, ∀ p' ∈ e'.descriptors,
    p.1 = p'.1 → e = e' := by
  decide

theorem exists_of_order? {e : Element} {d : Literal} {order : ByteOrder}
    (h : e.order? d = some order) :
    ∃ cs, d = .string cs ∧ (String.ofList cs, order) ∈ e.descriptors := by
  cases d with
  | string cs =>
    obtain ⟨before, after, hsplit, -⟩ := List.lookup_eq_some_iff.mp h
    exact ⟨cs, rfl, by rw [hsplit]; simp⟩
  | _ => cases h

/-- A descriptor belongs to at most one element type. The order of trying the types is of no
consequence because of this alone. -/
theorem eq_of_order? {e e' : Element} {d : Literal} {order order' : ByteOrder}
    (h : e.order? d = some order) (h' : e'.order? d = some order') : e = e' := by
  obtain ⟨cs, rfl, hmem⟩ := exists_of_order? h
  obtain ⟨cs', hcs, hmem'⟩ := exists_of_order? h'
  cases hcs
  exact descriptors_disjoint e (mem_all e) e' (mem_all e') _ hmem _ hmem' rfl

/-- A type's descriptor is understood as the type's own. For a single byte the order that comes back
need not be the one it was written in, and it makes no difference. -/
theorem Descriptor.order?_eq {e : Element} {order : ByteOrder} {cs : List Char}
    (h : Descriptor e order cs) :
    ∃ order', e.order? (.string cs) = some order' ∧ (order' = order ∨ e.width = 1) := by
  cases h with
  | ordered _ hw =>
    cases e <;> cases order <;> first | exact ⟨_, rfl, Or.inl rfl⟩ | exact absurd rfl hw
  | barred _ hw | bare _ hw =>
    cases e <;> first | exact ⟨_, rfl, Or.inr rfl⟩ | exact absurd hw (by decide)
  | signedLetter | unsignedLetter => exact ⟨_, rfl, Or.inr rfl⟩

/-! ## Words -/

/-- What a word of an element type stands for. It is an exact number, as a file may hold integers
that no binary64 value is equal to. -/
def exact (e : Element) (word : Nat) : Exact :=
  match e with
  | float64 => FloatFormat.binary64.exact word
  | float32 => FloatFormat.binary32.exact word
  | int64 | int32 | int16 | int8 => Exact.ofInt (BitVec.ofNat (8 * e.width) word).toInt
  | uint64 | uint32 | uint16 | uint8 => Exact.ofInt (BitVec.ofNat (8 * e.width) word).toNat

def IsFloat (e : Element) : Prop := e = float64 ∨ e = float32

theorem width_pos (e : Element) : 0 < e.width := by
  cases e <;> decide

theorem width_le (e : Element) : e.width ≤ 8 := by
  cases e <;> decide

theorem signedWord_eq_toInt {width word : Nat} (hw : 0 < width) (h : word < 2 ^ (8 * width)) :
    signedWord width word = (BitVec.ofNat (8 * width) word).toInt := by
  have hpow : 2 ^ (8 * width) = 2 * 2 ^ (8 * width - 1) := by
    rw [← Nat.pow_succ']
    congr 1
    omega
  unfold signedWord
  rw [BitVec.toInt_eq_toNat_cond, BitVec.toNat_ofNat, Nat.mod_eq_of_lt h]
  by_cases hlt : word < 2 ^ (8 * width - 1)
  · rw [if_pos hlt, if_pos (by omega)]
  · rw [if_neg hlt, if_neg (by omega)]

theorem natAbs_signedWord_lt {width word : Nat} (h : word < 2 ^ (8 * width)) :
    (signedWord width word).natAbs < 2 ^ (8 * width) := by
  have hpos : 0 < 2 ^ (8 * width - 1) := Nat.two_pow_pos _
  unfold signedWord
  split
  · omega
  · omega

/-- An integer's word stands for an integer, and that integer is rounded. With this the eight
integer types are one case in what follows. -/
theorem exists_int {e : Element} (he : ¬ e.IsFloat) {word : Nat} (h : word < 2 ^ (8 * e.width)) :
    ∃ i : ℤ, e.exact word = Exact.ofInt i ∧ e.value word = Binary64.ofInt i ∧
      i.natAbs < 2 ^ (8 * e.width) := by
  have hsigned := signedWord_eq_toInt e.width_pos h
  have hlt := natAbs_signedWord_lt h
  have hunsigned : ((BitVec.ofNat (8 * e.width) word).toNat : ℤ) = word := by
    rw [BitVec.toNat_ofNat, Nat.mod_eq_of_lt h]
  cases e with
  | float64 => exact absurd (Or.inl rfl) he
  | float32 => exact absurd (Or.inr rfl) he
  | int64 | int32 | int16 | int8 =>
    exact ⟨signedWord _ word, congrArg Exact.ofInt hsigned.symm, rfl, hlt⟩
  | uint64 | uint32 | uint16 | uint8 =>
    exact ⟨word, congrArg Exact.ofInt hunsigned, rfl, by rwa [Int.natAbs_natCast]⟩

/-- **Floats are widened exactly.** -/
theorem exact_value_of_isFloat {e : Element} (he : e.IsFloat) (word : Nat) :
    (e.value word).exact = e.exact word := by
  rcases he with rfl | rfl
  · exact FloatFormat.exact_decode FloatFormat.embeds_binary64 word
  · exact FloatFormat.exact_decode FloatFormat.embeds_binary32 word

/-- **What is loaded is the rounding of what is stored.** For floats that is the stored value
itself. -/
theorem isNearest_value (e : Element) {word : Nat} (h : word < 2 ^ (8 * e.width)) :
    (e.value word).IsNearest (e.exact word) := by
  by_cases he : e.IsFloat
  · rw [← exact_value_of_isFloat he]
    exact Binary64.isNearest_exact _
  · obtain ⟨i, hexact, hvalue, hlt⟩ := exists_int he h
    rw [hexact, hvalue]
    refine Binary64.isNearest_ofInt (hlt.trans_le ?_)
    exact Nat.pow_le_pow_right Nat.two_pos (Nat.mul_le_mul_left 8 e.width_le)

/-- **A float, or an integer of at most 53 bits, is loaded as it is.** -/
theorem exact_value {e : Element} {word : Nat} (h : word < 2 ^ (8 * e.width))
    (hsize : e.IsFloat ∨ (e.exact word).WithinSize (2 ^ 53)) :
    (e.value word).exact = e.exact word := by
  by_cases he : e.IsFloat
  · exact exact_value_of_isFloat he word
  · have hnear := isNearest_value e h
    obtain ⟨i, hexact, -, -⟩ := exists_int he h
    have hle : i.natAbs ≤ 2 ^ 53 := by
      have hwithin := hsize.resolve_left he
      rw [hexact] at hwithin
      have hcast : (i.natAbs : ℚ≥0) ≤ 2 ^ 53 := hwithin
      exact_mod_cast hcast
    obtain ⟨y, hy⟩ := Binary64.exists_exact_eq_ofInt hle
    rw [hexact, ← hy] at hnear ⊢
    rw [hnear.eq_of_exact]

/-- **Words that stand for one value are loaded as one value**, whatever their types. Two integers
are rounded by one function; where one word is a float, its value is the exact one, and the rounding
of that is itself. -/
theorem value_eq_of_exact_eq {e e' : Element} {word word' : Nat} (h : word < 2 ^ (8 * e.width))
    (h' : word' < 2 ^ (8 * e'.width)) (hexact : e.exact word = e'.exact word') :
    e.value word = e'.value word' := by
  -- Where one of them is a float, its value is the exact one and the other is its rounding.
  by_cases he : e.IsFloat
  · have hnear := isNearest_value e' h'
    rw [← hexact, ← exact_value_of_isFloat he] at hnear
    exact hnear.eq_of_exact.symm
  by_cases he' : e'.IsFloat
  · have hnear := isNearest_value e h
    rw [hexact, ← exact_value_of_isFloat he'] at hnear
    exact hnear.eq_of_exact
  obtain ⟨i, hi, hvalue, -⟩ := exists_int he h
  obtain ⟨i', hi', hvalue', -⟩ := exists_int he' h'
  rw [hi, hi'] at hexact
  exact hvalue.trans ((Binary64.ofInt_eq_of_exact_eq hexact).trans hvalue'.symm)

end Element
end Npy
end Beamline
