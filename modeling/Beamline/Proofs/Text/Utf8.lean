import Mathlib.Tactic
import Beamline.Text.Utf8
import Beamline.Proofs.Outcome

/-!
# UTF-8 — decoding undoes encoding, and nothing else decodes

`decode` reads bytes by ranges of first and second bytes, `encode` writes characters by arithmetic
on code points. They meet in `Sequence`, the table of byte sequences that stand for a code point:
every character is written as one (`sequence_encode`), every one is some character's
(`encode_of_sequence`), and the decoder takes one off the front or fails (`decodeFrom_sequence`,
`exists_sequence`). So bytes decode to characters exactly when they are those characters' bytes
(`decode_eq_ok_iff`).
-/

set_option autoImplicit false

namespace Beamline
namespace Utf8

/-! ## The sequences -/

/-- A byte after the first. -/
def Tail (b : UInt8) : Prop := 0x80 ≤ b.toNat ∧ b.toNat ≤ 0xBF

/-- The bytes of a code point. Two first bytes in each longer case leave the second one less room:
the low one lest a shorter sequence would do, the high one lest the code point is no character. -/
inductive Sequence : Nat → List UInt8 → Prop
  | one {a : UInt8} (ha : a.toNat < 0x80) : Sequence a.toNat [a]
  | two {a b : UInt8} (low : 0xC2 ≤ a.toNat) (high : a.toNat < 0xE0) (hb : Tail b) :
      Sequence (a.toNat % 32 * 64 + b.toNat % 64) [a, b]
  | three {a b c : UInt8} (low : 0xE0 ≤ a.toNat) (high : a.toNat < 0xF0) (hb : Tail b)
      (least : a.toNat = 0xE0 → 0xA0 ≤ b.toNat) (most : a.toNat = 0xED → b.toNat ≤ 0x9F)
      (hc : Tail c) :
      Sequence ((a.toNat % 16 * 64 + b.toNat % 64) * 64 + c.toNat % 64) [a, b, c]
  | four {a b c d : UInt8} (low : 0xF0 ≤ a.toNat) (high : a.toNat ≤ 0xF4) (hb : Tail b)
      (least : a.toNat = 0xF0 → 0x90 ≤ b.toNat) (most : a.toNat = 0xF4 → b.toNat ≤ 0x8F)
      (hc : Tail c) (hd : Tail d) :
      Sequence (((a.toNat % 8 * 64 + b.toNat % 64) * 64 + c.toNat % 64) * 64 + d.toNat % 64)
        [a, b, c, d]

/-! ## Characters and sequences -/

theorem toNat_ofNat_of_lt {n : Nat} (h : n < 256) : (UInt8.ofNat n).toNat = n := by
  rw [UInt8.toNat_ofNat', Nat.mod_eq_of_lt h]

theorem ofNat_eq {n : Nat} {b : UInt8} (h : n = b.toNat) : UInt8.ofNat n = b := by
  rw [h, UInt8.ofNat_toNat]

theorem Sequence.cast {m n : Nat} {bytes : List UInt8} (h : Sequence m bytes) (e : m = n) :
    Sequence n bytes :=
  e ▸ h

/-- A character is written as a sequence of its code point. The bytes are got by dividing, and the
sequence puts them together again. -/
theorem sequence_encode (c : Char) : Sequence c.toNat (String.utf8EncodeChar c) := by
  obtain ⟨v, hv⟩ : ∃ v, c.toNat = v := ⟨_, rfl⟩
  have hvalid : v < 0xD800 ∨ 0xDFFF < v ∧ v < 0x110000 := by
    rw [← hv]
    exact c.valid
  -- Every byte is written from a remainder, so none is cut off; the rest is arithmetic on `v`.
  have hlast : (UInt8.ofNat (v % 64 + 0x80)).toNat = v % 64 + 0x80 :=
    toNat_ofNat_of_lt (by omega)
  have hsecond : (UInt8.ofNat (v / 64 % 64 + 0x80)).toNat = v / 64 % 64 + 0x80 :=
    toNat_ofNat_of_lt (by omega)
  have hthird : (UInt8.ofNat (v / 4096 % 64 + 0x80)).toNat = v / 4096 % 64 + 0x80 :=
    toNat_ofNat_of_lt (by omega)
  have hval : c.val.toNat = v := hv
  unfold String.utf8EncodeChar
  simp only [hval]
  rw [hv]
  split
  · have ha : (UInt8.ofNat v).toNat = v := toNat_ofNat_of_lt (by omega)
    exact (Sequence.one (by omega)).cast ha
  · split
    · have ha : (UInt8.ofNat (v / 64 % 32 + 0xC0)).toNat = v / 64 % 32 + 0xC0 :=
        toNat_ofNat_of_lt (by omega)
      refine (Sequence.two ?_ ?_ ⟨?_, ?_⟩).cast ?_ <;> omega
    · split
      · have ha : (UInt8.ofNat (v / 4096 % 16 + 0xE0)).toNat = v / 4096 % 16 + 0xE0 :=
          toNat_ofNat_of_lt (by omega)
        refine (Sequence.three ?_ ?_ ⟨?_, ?_⟩ ?_ ?_ ⟨?_, ?_⟩).cast ?_ <;> omega
      · have ha : (UInt8.ofNat (v / 262144 % 8 + 0xF0)).toNat = v / 262144 % 8 + 0xF0 :=
          toNat_ofNat_of_lt (by omega)
        refine (Sequence.four ?_ ?_ ⟨?_, ?_⟩ ?_ ?_ ⟨?_, ?_⟩ ⟨?_, ?_⟩).cast ?_ <;> omega

/-- No sequence stands for a surrogate or a number too large for a character. That is what the
bounds on second bytes are for. -/
theorem Sequence.isValidChar {n : Nat} {bytes : List UInt8} (h : Sequence n bytes) :
    n.isValidChar := by
  unfold Nat.isValidChar
  cases h with
  | one => omega
  | two _ _ hb =>
    unfold Tail at hb
    omega
  | three _ _ hb _ _ hc =>
    unfold Tail at hb hc
    omega
  | four _ _ hb _ _ hc hd =>
    unfold Tail at hb hc hd
    omega

/-- A sequence is the writing of a character. It is the only one, as the other ranges for second
bytes exclude longer sequences. -/
theorem encode_of_sequence {n : Nat} {bytes : List UInt8} (h : Sequence n bytes) :
    String.utf8EncodeChar (Char.ofNat n) = bytes := by
  have hval : (Char.ofNat n).val.toNat = n := by
    rw [Char.ofNat, dif_pos h.isValidChar]
    rfl
  unfold String.utf8EncodeChar
  simp only [hval]
  cases h with
  | one ha => rw [if_pos (by omega), UInt8.ofNat_toNat]
  | two low high hb =>
    unfold Tail at hb
    rw [if_neg (by omega), if_pos (by omega), ofNat_eq, ofNat_eq] <;> omega
  | three low high hb least most hc =>
    unfold Tail at hb hc
    rw [if_neg (by omega), if_neg (by omega), if_pos (by omega), ofNat_eq, ofNat_eq, ofNat_eq] <;>
      omega
  | four low high hb least most hc hd =>
    unfold Tail at hb hc hd
    rw [if_neg (by omega), if_neg (by omega), if_neg (by omega), ofNat_eq, ofNat_eq, ofNat_eq,
      ofNat_eq] <;> omega

/-! ## The decoder -/

/-- A second byte that a first byte of a longer sequence admits. -/
structure Second (a b : UInt8) : Prop where
  low : 0xC2 ≤ a.toNat
  high : a.toNat ≤ 0xF4
  tail : Tail b
  least : (a.toNat = 0xE0 → 0xA0 ≤ b.toNat) ∧ (a.toNat = 0xF0 → 0x90 ≤ b.toNat)
  most : (a.toNat = 0xED → b.toNat ≤ 0x9F) ∧ (a.toNat = 0xF4 → b.toNat ≤ 0x8F)

/-- The ranges of the decoder are the rules of the sequences. The decoder has one table of ranges by
first byte; from here on only the rules are looked at. -/
theorem second_iff {a b : UInt8} :
    Second a b ↔ ∃ first last, secondRange? a = some (first, last) ∧ ¬ (b < first ∨ last < b) := by
  have hrules : Second a b ↔ (0xC2 ≤ a.toNat ∧ a.toNat ≤ 0xF4) ∧ (0x80 ≤ b.toNat ∧ b.toNat ≤ 0xBF) ∧
      ((a.toNat = 0xE0 → 0xA0 ≤ b.toNat) ∧ (a.toNat = 0xF0 → 0x90 ≤ b.toNat)) ∧
      ((a.toNat = 0xED → b.toNat ≤ 0x9F) ∧ (a.toNat = 0xF4 → b.toNat ≤ 0x8F)) :=
    ⟨fun h => ⟨⟨h.low, h.high⟩, h.tail, h.least, h.most⟩,
      fun h => ⟨h.1.1, h.1.2, h.2.1, h.2.2.1, h.2.2.2⟩⟩
  rw [hrules]
  unfold secondRange?
  simp only [UInt8.lt_iff_toNat_lt, ← UInt8.toNat_inj, UInt8.reduceToNat]
  repeat' split
  all_goals
    simp
    omega

theorem isContinuation_iff {b : UInt8} : isContinuation b = true ↔ Tail b := by
  unfold isContinuation Tail
  simp [UInt8.le_iff_toNat_le]

/-- The decoder takes a sequence off the front, whatever follows it. -/
theorem decodeFrom_sequence {n : Nat} {bytes : List UInt8} (h : Sequence n bytes) (i : Nat)
    (rest : List UInt8) :
    decodeFrom i (bytes ++ rest) =
      (decodeFrom (i + bytes.length) rest).map (Char.ofNat n :: ·) := by
  cases h with
  | @one a ha => simp [decodeFrom, UInt8.lt_iff_toNat_lt, ha]
  | @two a b least most hb =>
    have hsecond : Second a b := ⟨least, by omega, hb, by omega, by omega⟩
    obtain ⟨first, last, hrange, hin⟩ := second_iff.mp hsecond
    simp only [UInt8.lt_iff_toNat_lt] at hin
    have hge : ¬ a.toNat < 0x80 := by omega
    simp [decodeFrom, UInt8.lt_iff_toNat_lt, hge, hrange, hin, most, low]
  | @three a b c least most hb hleast hmost hc =>
    have hsecond : Second a b :=
      ⟨by omega, by omega, hb, ⟨hleast, by omega⟩, ⟨hmost, by omega⟩⟩
    obtain ⟨first, last, hrange, hin⟩ := second_iff.mp hsecond
    simp only [UInt8.lt_iff_toNat_lt] at hin
    have hge : ¬ a.toNat < 0x80 := by omega
    have hge' : ¬ a.toNat < 0xE0 := by omega
    simp [decodeFrom, UInt8.lt_iff_toNat_lt, hge, hge', hrange, hin, most,
      isContinuation_iff.mpr hc, low]
  | @four a b c d least most hb hleast hmost hc hd =>
    have hsecond : Second a b :=
      ⟨by omega, by omega, hb, ⟨by omega, hleast⟩, ⟨by omega, hmost⟩⟩
    obtain ⟨first, last, hrange, hin⟩ := second_iff.mp hsecond
    simp only [UInt8.lt_iff_toNat_lt] at hin
    have hge : ¬ a.toNat < 0x80 := by omega
    have hge' : ¬ a.toNat < 0xE0 := by omega
    have hge'' : ¬ a.toNat < 0xF0 := by omega
    simp [decodeFrom, UInt8.lt_iff_toNat_lt, hge, hge', hge'', hrange, hin,
      isContinuation_iff.mpr hc, isContinuation_iff.mpr hd, low]

/-- What the decoder reads, it reads sequence by sequence. This is the other direction: it takes
nothing off that is no sequence. -/
theorem exists_sequence {i : Nat} {a : UInt8} {bytes : List UInt8} {cs : List Char}
    (h : decodeFrom i (a :: bytes) = .ok cs) :
    ∃ n front rest ds, Sequence n front ∧ a :: bytes = front ++ rest ∧
      decodeFrom (i + front.length) rest = .ok ds ∧ cs = Char.ofNat n :: ds := by
  unfold decodeFrom at h
  split at h
  · next hlt =>
    obtain ⟨ds, hrest, rfl⟩ := map_eq_ok_iff.mp h
    exact ⟨_, [a], bytes, ds, .one (UInt8.lt_iff_toNat_lt.mp hlt), rfl, hrest, rfl⟩
  next hge =>
  split at h
  · cases h
  next first last hrange =>
  split at h
  · cases h
  next b rest =>
  split at h
  · cases h
  next hin =>
  -- The first two bytes are good from here on, and the first one says how many more there are.
  obtain ⟨hlow, hhigh, hb, hleast, hmost⟩ := second_iff.mpr ⟨first, last, hrange, hin⟩
  split at h
  · next hlt =>
    obtain ⟨ds, hrest, rfl⟩ := map_eq_ok_iff.mp h
    exact ⟨_, [a, b], rest, ds, .two hlow (UInt8.lt_iff_toNat_lt.mp hlt) hb, rfl, hrest, rfl⟩
  next hge' =>
  split at h
  · cases h
  next c rest =>
  split at h
  · cases h
  next hc =>
  have hc : Tail c := isContinuation_iff.mp (by simpa using hc)
  have hlow : 0xE0 ≤ a.toNat := by simpa [UInt8.lt_iff_toNat_lt] using hge'
  split at h
  · next hlt =>
    obtain ⟨ds, hrest, rfl⟩ := map_eq_ok_iff.mp h
    exact ⟨_, [a, b, c], rest, ds,
      .three hlow (UInt8.lt_iff_toNat_lt.mp hlt) hb hleast.1 hmost.1 hc, rfl, hrest, rfl⟩
  next hge'' =>
  split at h
  · cases h
  next d rest =>
  split at h
  · cases h
  next hd =>
  have hd : Tail d := isContinuation_iff.mp (by simpa using hd)
  have hlow : 0xF0 ≤ a.toNat := by simpa [UInt8.lt_iff_toNat_lt] using hge''
  obtain ⟨ds, hrest, rfl⟩ := map_eq_ok_iff.mp h
  exact ⟨_, [a, b, c, d], rest, ds, .four hlow hhigh hb hleast.2 hmost.2 hc hd, rfl, hrest, rfl⟩

theorem decodeFrom_eq_ok_iff {i : Nat} {bytes : List UInt8} {cs : List Char} :
    decodeFrom i bytes = .ok cs ↔ bytes = encode cs := by
  constructor
  · intro h
    induction hlen : bytes.length using Nat.strongRecOn generalizing i bytes cs with
    | ind length ih =>
      cases bytes with
      | nil =>
        cases h
        rfl
      | cons a bytes =>
        obtain ⟨n, front, rest, ds, hseq, hsplit, hrest, rfl⟩ := exists_sequence h
        -- A sequence has at least one byte, so what is left is shorter.
        have hpos : 0 < front.length := by cases hseq <;> simp
        rw [hsplit, List.length_append] at hlen
        rw [hsplit, ih rest.length (by omega) hrest rfl]
        show front ++ encode ds = String.utf8EncodeChar (Char.ofNat n) ++ encode ds
        rw [encode_of_sequence hseq]
  · rintro rfl
    induction cs generalizing i with
    | nil => rfl
    | cons c cs ih =>
      show decodeFrom i (String.utf8EncodeChar c ++ encode cs) = _
      rw [decodeFrom_sequence (sequence_encode c), ih, Char.ofNat_toNat]
      rfl

/-- **Bytes decode to characters exactly when they are the bytes of those characters.** The position
is counted for faults only. -/
theorem decode_eq_ok_iff {bytes : List UInt8} {cs : List Char} :
    decode bytes = .ok cs ↔ bytes = encode cs :=
  decodeFrom_eq_ok_iff

theorem decode_encode (cs : List Char) : decode (encode cs) = .ok cs := decode_eq_ok_iff.mpr rfl

theorem encode_injective {cs ds : List Char} (h : encode cs = encode ds) : cs = ds := by
  have hboth : decode (encode cs) = decode (encode ds) := congrArg decode h
  rw [decode_encode, decode_encode] at hboth
  exact Except.ok.inj hboth

theorem encode_append (cs ds : List Char) : encode (cs ++ ds) = encode cs ++ encode ds :=
  List.flatMap_append

/-- The bytes of ASCII text are its code points. -/
theorem encode_ascii {cs : List Char} (h : ∀ c ∈ cs, c.toNat < 0x80) :
    encode cs = cs.map fun c => UInt8.ofNat c.toNat := by
  induction cs with
  | nil => rfl
  | cons c cs ih =>
    have hc : c.val.toNat < 0x80 := h c List.mem_cons_self
    show String.utf8EncodeChar c ++ encode cs = _
    rw [ih fun d hd => h d (List.mem_cons_of_mem c hd)]
    unfold String.utf8EncodeChar
    rw [if_pos (by omega)]
    rfl

end Utf8
end Beamline
