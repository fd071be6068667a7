import Mathlib.Data.List.TakeWhile
import Mathlib.Tactic
import Beamline.Text.Blank
import Beamline.Proofs.Text.Utf8

/-!
# Blanks — trimming bytes and trimming characters

A cell is trimmed twice, once as bytes and once as characters. That only makes sense if the first
trimming neither makes text of what was none nor takes anything away that the second would keep. The
first holds because blank bytes are whole characters, so they can neither be what was wrong with a
cell nor what was missing (`exists_decode_of_trimBytes`); the second because blank bytes are blank
characters (`decode_trimBytes`). So a cell may be judged as it stands.
-/

set_option autoImplicit false

namespace Beamline

/-! ## Trimming -/

namespace Text

section

variable {α : Type} {blank : α → Bool}

/-- Trimming takes something blank off either end, and nothing else. This is all that is ever needed
of trimming: the lemmas below put it together again. -/
theorem exists_trimWith (blank : α → Bool) (xs : List α) :
    ∃ front back, xs = front ++ trimWith blank xs ++ back ∧ (∀ x ∈ front, blank x = true) ∧
      ∀ x ∈ back, blank x = true := by
  have hfront := List.takeWhile_append_dropWhile (p := blank) (l := xs)
  have hback := List.takeWhile_append_dropWhile (p := blank) (l := (xs.dropWhile blank).reverse)
  refine ⟨xs.takeWhile blank, ((xs.dropWhile blank).reverse.takeWhile blank).reverse, ?_, ?_, ?_⟩
  · have hmiddle := congrArg List.reverse hback
    rw [List.reverse_append, List.reverse_reverse] at hmiddle
    rw [List.append_assoc]
    unfold trimWith
    rw [hmiddle, hfront]
  · intro x hx
    exact List.mem_takeWhile_imp hx
  · intro x hx
    exact List.mem_takeWhile_imp (List.mem_reverse.mp hx)

/-- Blanks at the ends do not count. In the middle nothing is known, so what is left may be all
blank, and then trimming goes on into the blanks at the back. -/
theorem trimWith_append {front xs back : List α} (hfront : ∀ x ∈ front, blank x = true)
    (hback : ∀ x ∈ back, blank x = true) :
    trimWith blank (front ++ xs ++ back) = trimWith blank xs := by
  have hend : ∀ ys : List α, (ys ++ back).reverse.dropWhile blank = ys.reverse.dropWhile blank := by
    intro ys
    rw [List.reverse_append, List.dropWhile_append_of_pos]
    intro x hx
    exact hback x (List.mem_reverse.mp hx)
  unfold trimWith
  rw [List.append_assoc, List.dropWhile_append_of_pos hfront, List.dropWhile_append]
  split
  · next h =>
    rw [List.isEmpty_iff] at h
    rw [h, List.dropWhile_eq_nil_iff.mpr hback]
  · rw [hend]

/-- Where there is nothing blank there is nothing to trim. Literals are such texts. -/
theorem trimWith_eq_self {xs : List α} (h : ∀ x ∈ xs, blank x = false) :
    trimWith blank xs = xs := by
  obtain ⟨front, back, hxs, hfront, hback⟩ := exists_trimWith blank xs
  have hnil : ∀ ys : List α, (∀ x ∈ ys, x ∈ xs) → (∀ x ∈ ys, blank x = true) → ys = [] := by
    intro ys hmem hblank
    refine List.eq_nil_iff_forall_not_mem.mpr fun x hx => ?_
    have hboth := h x (hmem x hx)
    rw [hblank x hx] at hboth
    cases hboth
  have hf : front = [] := hnil front (fun x hx => by rw [hxs]; simp [hx]) hfront
  have hb : back = [] := hnil back (fun x hx => by rw [hxs]; simp [hx]) hback
  rw [hf, hb, List.nil_append, List.append_nil] at hxs
  exact hxs.symm

end

end Text

/-! ## Blank bytes among others -/

namespace Utf8

/-- A character whose first byte is ASCII is that byte alone. A blank byte at the front of a cell is
one, so cutting it off cuts between characters. -/
theorem eq_singleton_of_head {c : Char} {a : UInt8} {rest : List UInt8}
    (h : String.utf8EncodeChar c = a :: rest) (ha : a.toNat < 0x80) :
    rest = [] ∧ c.toNat = a.toNat := by
  have hseq := sequence_encode c
  rw [h] at hseq
  obtain ⟨n, hn⟩ : ∃ n, c.toNat = n := ⟨_, rfl⟩
  rw [hn] at hseq ⊢
  cases hseq with
  | one => exact ⟨rfl, rfl⟩
  | two low => omega
  | three low => omega
  | four low => omega

/-- Every further byte of a character is no ASCII byte. A blank byte at the end of a cell is
therefore a first byte, and cutting before it cuts between characters too. -/
theorem not_ascii_of_tail {c : Char} {front back : List UInt8} {b : UInt8}
    (h : String.utf8EncodeChar c = front ++ b :: back) (hfront : front ≠ []) :
    0x80 ≤ b.toNat := by
  have hseq := sequence_encode c
  obtain ⟨a, front, rfl⟩ := List.exists_cons_of_ne_nil hfront
  rw [h] at hseq
  have hmem : ∀ {n : Nat} {bytes : List UInt8}, Sequence n (a :: bytes) → ∀ b ∈ bytes, Tail b := by
    intro n bytes hs
    cases hs with
    | one => simp
    | two _ _ hb => simpa using hb
    | three _ _ hb _ _ hc => simpa using ⟨hb, hc⟩
    | four _ _ hb _ _ hc hd => simpa using ⟨hb, hc, hd⟩
  exact (hmem hseq b (by simp)).1

/-- A text whose first byte is ASCII starts with that character. -/
theorem exists_of_encode_cons {cs : List Char} {a : UInt8} {rest : List UInt8}
    (h : encode cs = a :: rest) (ha : a.toNat < 0x80) :
    ∃ ds, cs = Char.ofNat a.toNat :: ds ∧ rest = encode ds := by
  cases cs with
  | nil => cases h
  | cons c ds =>
    have hsplit : String.utf8EncodeChar c ++ encode ds = a :: rest := h
    have hne : String.utf8EncodeChar c ≠ [] := by
      refine List.ne_nil_of_length_pos ?_
      rw [String.length_utf8EncodeChar]
      exact c.utf8Size_pos
    obtain ⟨b, more, hc⟩ := List.exists_cons_of_ne_nil hne
    rw [hc, List.cons_append, List.cons.injEq] at hsplit
    obtain ⟨rfl, hrest⟩ := hsplit
    obtain ⟨rfl, hcode⟩ := eq_singleton_of_head hc ha
    refine ⟨ds, ?_, hrest.symm⟩
    rw [← hcode, Char.ofNat_toNat]

/-- A text can be cut before an ASCII byte, and both parts are texts. By induction on the
characters: the cut is in none of them. -/
theorem exists_of_encode_append {cs : List Char} {front back : List UInt8} {b : UInt8}
    (h : encode cs = front ++ b :: back) (hb : b.toNat < 0x80) :
    ∃ ds es, cs = ds ++ es ∧ front = encode ds ∧ b :: back = encode es := by
  induction cs generalizing front with
  | nil => simp [encode] at h
  | cons c cs ih =>
    cases hfront : front with
    | nil => exact ⟨[], c :: cs, rfl, rfl, by rw [h, hfront]; rfl⟩
    | cons a front' =>
      have hsplit : String.utf8EncodeChar c ++ encode cs = front ++ b :: back := h
      rcases List.append_eq_append_iff.mp hsplit with ⟨more, hmore, hrest⟩ | ⟨more, hmore, hrest⟩
      · obtain ⟨ds, es, rfl, hds, hes⟩ := ih hrest
        refine ⟨c :: ds, es, rfl, ?_, hes⟩
        rw [← hfront, hmore, hds]
        rfl
      · cases more with
        | nil =>
          rw [List.append_nil] at hmore
          refine ⟨[c], cs, rfl, ?_, hrest⟩
          rw [← hfront, ← hmore]
          simp [encode]
        | cons d more =>
          -- The character would go on past the cut, with an ASCII byte.
          rw [List.cons_append, List.cons.injEq] at hrest
          obtain ⟨rfl, -⟩ := hrest
          have hne : front ≠ [] := by rw [hfront]; exact List.cons_ne_nil _ _
          have := not_ascii_of_tail hmore hne
          omega

end Utf8

/-! ## Cells -/

namespace Text

theorem ascii_of_isBlankByte {b : UInt8} (h : isBlankByte b = true) : b.toNat < 0x80 := by
  unfold isBlankByte at h
  simp only [Bool.or_eq_true, beq_iff_eq] at h
  rcases h with (((rfl | rfl) | rfl) | rfl) | rfl <;> decide

theorem isBlank_of_isBlankByte {b : UInt8} (h : isBlankByte b = true) :
    isBlank (Char.ofNat b.toNat) = true := by
  unfold isBlankByte at h
  simp only [Bool.or_eq_true, beq_iff_eq] at h
  rcases h with (((rfl | rfl) | rfl) | rfl) | rfl <;> decide

/-- Blank bytes are the bytes of blank characters. So the trimmed bytes can be put back as
characters, which is how the two ways of trimming are compared. -/
theorem encode_blanks {bytes : List UInt8} (h : ∀ b ∈ bytes, isBlankByte b = true) :
    Utf8.encode (bytes.map fun b => Char.ofNat b.toNat) = bytes := by
  induction bytes with
  | nil => rfl
  | cons b bytes ih =>
    have hb := ascii_of_isBlankByte (h b List.mem_cons_self)
    have hchar := Utf8.encode_of_sequence (.one hb)
    show String.utf8EncodeChar _ ++ Utf8.encode (bytes.map _) = _
    rw [hchar, ih fun c hc => h c (List.mem_cons_of_mem b hc)]
    rfl

/-- What follows blank bytes is text if the whole is. -/
theorem exists_of_encode_blanks {cs : List Char} {front rest : List UInt8}
    (hfront : ∀ b ∈ front, isBlankByte b = true) (h : Utf8.encode cs = front ++ rest) :
    ∃ ds, cs = (front.map fun b => Char.ofNat b.toNat) ++ ds ∧ rest = Utf8.encode ds := by
  induction front generalizing cs with
  | nil => exact ⟨cs, rfl, h.symm⟩
  | cons b front ih =>
    obtain ⟨ds, rfl, hrest⟩ :=
      Utf8.exists_of_encode_cons h (ascii_of_isBlankByte (hfront b List.mem_cons_self))
    obtain ⟨es, rfl, hes⟩ := ih (fun c hc => hfront c (List.mem_cons_of_mem b hc)) hrest.symm
    exact ⟨es, rfl, hes⟩

theorem isBlank_of_mem_map {bytes : List UInt8} (h : ∀ b ∈ bytes, isBlankByte b = true) :
    ∀ c ∈ bytes.map (fun b => Char.ofNat b.toNat), isBlank c = true := by
  intro c hc
  obtain ⟨b, hb, rfl⟩ := List.mem_map.mp hc
  exact isBlank_of_isBlankByte (h b hb)

/-- **Trimming a cell as bytes first changes nothing**: it is text if it was, and trimming it as
text gives what trimming the whole as text gives. -/
theorem decode_trimBytes {bytes : List UInt8} {cs : List Char} (h : Utf8.decode bytes = .ok cs) :
    ∃ ds, Utf8.decode (trimBytes bytes) = .ok ds ∧ trim ds = trim cs := by
  obtain rfl := Utf8.decode_eq_ok_iff.mp h
  obtain ⟨front, back, hbytes, hfront, hback⟩ := exists_trimWith isBlankByte (Utf8.encode cs)
  rw [List.append_assoc] at hbytes
  obtain ⟨ds, hcs, hds⟩ := exists_of_encode_blanks hfront hbytes
  -- Cut before the first blank byte at the end, which no character can span.
  have hmiddle : ∃ es, trimBytes (Utf8.encode cs) = Utf8.encode es ∧
      ds = es ++ back.map fun b => Char.ofNat b.toNat := by
    cases hcase : back with
    | nil =>
      rw [hcase, List.append_nil] at hds
      exact ⟨ds, hds, (List.append_nil ds).symm⟩
    | cons b rest =>
      rw [hcase] at hback hds
      obtain ⟨es, fs, rfl, hes, hfs⟩ := Utf8.exists_of_encode_append hds.symm
        (ascii_of_isBlankByte (hback b List.mem_cons_self))
      refine ⟨es, hes, congrArg (es ++ ·) (Utf8.encode_injective ?_)⟩
      rw [encode_blanks hback, hfs]
  obtain ⟨es, hes, rfl⟩ := hmiddle
  refine ⟨es, Utf8.decode_eq_ok_iff.mpr hes, ?_⟩
  unfold trim
  rw [hcs, ← List.append_assoc,
    trimWith_append (isBlank_of_mem_map hfront) (isBlank_of_mem_map hback)]

/-- A cell that is text once it is trimmed was text before. With `decode_trimBytes` it follows that
a cell is refused for its bytes exactly when it is no text as it stands. -/
theorem exists_decode_of_trimBytes {bytes : List UInt8} {ds : List Char}
    (h : Utf8.decode (trimBytes bytes) = .ok ds) : ∃ cs, Utf8.decode bytes = .ok cs := by
  obtain ⟨front, back, hbytes, hfront, hback⟩ := exists_trimWith isBlankByte bytes
  have htrim : trimWith isBlankByte bytes = Utf8.encode ds := Utf8.decode_eq_ok_iff.mp h
  rw [htrim] at hbytes
  refine ⟨(front.map fun b => Char.ofNat b.toNat) ++ ds ++ back.map fun b => Char.ofNat b.toNat,
    Utf8.decode_eq_ok_iff.mpr ?_⟩
  rw [Utf8.encode_append, Utf8.encode_append, encode_blanks hfront, encode_blanks hback]
  exact hbytes

end Text
end Beamline
