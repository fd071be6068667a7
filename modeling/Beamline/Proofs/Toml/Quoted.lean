import Mathlib.Tactic
import Beamline.Toml.Token

/-!
# Quoted texts — how what a string holds may be written

Every character can stand for itself between quotes, or be escaped, as far as the quotes allow it;
strings over several lines may also hold quotes, and line ends that are written and not meant
(`Content`). The scanner finds what was meant (`foldl_content`), and there is no text that could not
be written between quotes (`exists_content`).
-/

set_option autoImplicit false

namespace Beamline
namespace Toml

/-- A character that is skipped after a backslash and a line end. Carriage returns are not among
them: line ends have been joined before a text is scanned. -/
def IsSpace (c : Char) : Prop := isBlank c = true ∨ c = '\n'

/-- What a string holds, and a way to write that between quotes. Escapes, and line ends that are not
meant, are for double quotes only. The rules for quotes and for a line end that is not meant look at
what stands behind, as the scanner does. -/
inductive Content (q : Quote) (multiline : Bool) : List Char → List Char → Prop where
  | nil : Content q multiline [] []
  | plain {c : Char} {cs text : List Char} (hc : inString c = true) (hquote : c ≠ q.char)
      (hslash : q = .basic → c ≠ '\\') (h : Content q multiline cs text) :
      Content q multiline (c :: cs) (c :: text)
  | escape {c d : Char} {cs text : List Char} (hq : q = .basic) (hd : Scan.escaped? d = some c)
      (h : Content q multiline cs text) : Content q multiline (c :: cs) ('\\' :: d :: text)
  /-- A character by its number, in four or eight digits. -/
  | code {letter : Char} {digits cs text : List Char} (hq : q = .basic)
      (hlength : letter = 'u' ∧ digits.length = 4 ∨ letter = 'U' ∧ digits.length = 8)
      (hdigits : ∀ d ∈ digits, Text.isDigit 16 d = true)
      (hvalid : (Text.numberOf 16 digits).isValidChar) (h : Content q multiline cs text) :
      Content q multiline (Char.ofNat (Text.numberOf 16 digits) :: cs)
        ('\\' :: letter :: digits ++ text)
  | lineEnd {cs text : List Char} (hmultiline : multiline = true)
      (h : Content q multiline cs text) :
      Content q multiline ('\n' :: cs) ('\n' :: text)
  /-- One or two quotes, and no third. -/
  | quotes {count : Nat} {c : Char} {cs text : List Char} (hmultiline : multiline = true)
      (hcount : count = 1 ∨ count = 2) (hc : c ≠ q.char) (h : Content q multiline cs (c :: text)) :
      Content q multiline (List.replicate count q.char ++ cs)
        (List.replicate count q.char ++ c :: text)
  /-- A line end that is not meant, and the space around it. -/
  | continued {blanks space cs text : List Char} (hmultiline : multiline = true) (hq : q = .basic)
      (hblanks : ∀ c ∈ blanks, isBlank c = true) (hspace : ∀ c ∈ space, IsSpace c)
      (hnext : ∀ c, text.head? = some c → ¬ IsSpace c) (h : Content q multiline cs text) :
      Content q multiline cs ('\\' :: blanks ++ '\n' :: space ++ text)

/-! Whatever the characters, there is a way to write them: by their numbers, if need be. -/

theorem digit?_digitChar_of_lt {d : Nat} (h : d < 16) : Text.digit? 16 d.digitChar = some d := by
  interval_cases d <;> rfl

/-- A number has as many digits to base 16 as one likes, if it is not too large for them. -/
theorem exists_hexDigits (count : Nat) {n : Nat} (h : n < 16 ^ count) :
    ∃ digits : List Char, digits.length = count ∧ (∀ d ∈ digits, Text.isDigit 16 d = true) ∧
      Text.numberOf 16 digits = n := by
  induction count generalizing n with
  | zero =>
    obtain rfl : n = 0 := by simpa using h
    exact ⟨[], rfl, by simp, rfl⟩
  | succ count ih =>
    obtain ⟨digits, hlength, hdigits, hnumber⟩ := ih (n := n / 16) (by rw [pow_succ] at h; omega)
    have hlast := digit?_digitChar_of_lt (Nat.mod_lt n (by decide : 16 > 0))
    refine ⟨digits ++ [(n % 16).digitChar], by simp [hlength], ?_, ?_⟩
    · intro d hd
      rcases List.mem_append.mp hd with hd | hd
      · exact hdigits d hd
      · rw [List.mem_singleton.mp hd, Text.isDigit, hlast]
        rfl
    · have hone : Text.numberOf 16 [(n % 16).digitChar] = n % 16 := by
        simp [Text.numberOf, hlast]
      rw [Text.numberOf_append, hnumber, hone, List.length_singleton, pow_one]
      omega

/-- Any characters can be written between double quotes, by their numbers if need be. The text has
no carriage return, so it can stand in a document as it is. -/
theorem exists_content (multiline : Bool) (cs : List Char) :
    ∃ text, Content .basic multiline cs text ∧ '\r' ∉ text := by
  induction cs with
  | nil => exact ⟨[], .nil, List.not_mem_nil⟩
  | cons c cs ih =>
    obtain ⟨text, h, hreturn⟩ := ih
    have hvalid : c.toNat.isValidChar := c.valid
    have hlt : c.toNat < 16 ^ 8 := by
      rcases hvalid with hvalid | hvalid <;> omega
    obtain ⟨digits, hlength, hdigits, hnumber⟩ := exists_hexDigits 8 hlt
    have hcode : Content .basic multiline _ ('\\' :: 'U' :: digits ++ text) :=
      .code rfl (Or.inr ⟨rfl, hlength⟩) hdigits (hnumber ▸ hvalid) h
    rw [hnumber, Char.ofNat_toNat] at hcode
    refine ⟨_, hcode, ?_⟩
    have hnot : '\r' ∉ digits := by
      intro hmem
      exact absurd (hdigits _ hmem) (by decide)
    simp [hreturn, hnot]

namespace Scan

variable {q : Quote} {multiline : Bool} {done : List Token} {acc cs text rest : List Char}
  {c d : Char}

theorem quote_ne_newline (q : Quote) : q.char ≠ '\n' := by cases q <;> decide

theorem newline_not_inString : inString '\n' = false := by decide

theorem inside_plain (hc : inString c = true) (hquote : c ≠ q.char)
    (hslash : q = .basic → c ≠ '\\') :
    inside done q multiline false acc c = ⟨done, .inside q multiline false (c :: acc)⟩ := by
  have hline : c ≠ '\n' := by
    rintro rfl
    rw [newline_not_inString] at hc
    cases hc
  have hback : ¬ (q = .basic ∧ c = '\\') := fun h => hslash h.1 h.2
  rw [inside, if_neg hline, if_neg hquote, if_neg hback, if_pos hc]

theorem inside_backslash : inside done .basic multiline false acc '\\' =
    ⟨done, .escape multiline acc⟩ := rfl

theorem escape_escaped (h : escaped? d = some c) :
    escape done multiline acc d = ⟨done, .inside .basic multiline false (c :: acc)⟩ := by
  rw [escape, h]

/-- The digits of a numeric escape are read one after another. The scanner counts them down, and
checks the number at the last one only; before that it need not be a character yet. -/
theorem foldl_code {digits : List Char} {value : Nat}
    (hdigits : ∀ d ∈ digits, Text.isDigit 16 d = true) (hne : digits ≠ [])
    (hvalid : (digits.foldl (fun n d => 16 * n + (Text.digit? 16 d).getD 0) value).isValidChar) :
    digits.foldl step ⟨done, .code multiline digits.length value acc⟩ =
      ⟨done, .inside .basic multiline false
        (Char.ofNat
          (digits.foldl (fun n d => 16 * n + (Text.digit? 16 d).getD 0) value) :: acc)⟩ := by
  induction digits generalizing value with
  | nil => exact absurd rfl hne
  | cons d digits ih =>
    obtain ⟨hd, hrest⟩ := List.forall_mem_cons.mp hdigits
    obtain ⟨n, hn⟩ := Option.isSome_iff_exists.mp hd
    have hhex : Text.hexDigit? d = some n := (Option.filter_eq_some_iff.mp hn).1
    rw [List.foldl_cons] at hvalid ⊢
    rw [hn, Option.getD_some] at hvalid
    have hstep : step ⟨done, .code multiline (d :: digits).length value acc⟩ d =
        code done multiline (d :: digits).length value acc d := rfl
    rw [hstep, code, hhex]
    dsimp only
    cases digits with
    | nil =>
      have hone : (16 * value + n).isValidChar := hvalid
      simp [hone, hn]
    | cons e digits =>
      rw [if_pos (by simp), List.foldl_cons (a := d), hn, Option.getD_some]
      exact ih hrest (by simp) hvalid

/-- A character that is given by its number is read as that character, in four digits or in
eight. -/
theorem foldl_numbered {letter : Char} {digits : List Char}
    (hlength : letter = 'u' ∧ digits.length = 4 ∨ letter = 'U' ∧ digits.length = 8)
    (hdigits : ∀ d ∈ digits, Text.isDigit 16 d = true)
    (hvalid : (Text.numberOf 16 digits).isValidChar) :
    ('\\' :: letter :: digits).foldl step ⟨done, .inside .basic multiline false acc⟩ =
      ⟨done, .inside .basic multiline false (Char.ofNat (Text.numberOf 16 digits) :: acc)⟩ := by
  have hslash : step ⟨done, .inside .basic multiline false acc⟩ '\\' =
      ⟨done, .escape multiline acc⟩ :=
    inside_backslash
  have hletter : step ⟨done, .escape multiline acc⟩ letter =
      ⟨done, .code multiline digits.length 0 acc⟩ := by
    rcases hlength with ⟨rfl, hlength⟩ | ⟨rfl, hlength⟩
    · rw [hlength]
      rfl
    · rw [hlength]
      rfl
  have hne : digits ≠ [] := by
    rintro rfl
    simp at hlength
  rw [List.foldl_cons, List.foldl_cons, hslash, hletter]
  exact foldl_code hdigits hne hvalid

/-- The space after a line end that is not meant is skipped, further line ends included. -/
theorem foldl_afterLineEnd {space : List Char} (hspace : ∀ c ∈ space, IsSpace c) :
    space.foldl step ⟨done, .afterLineEnd acc⟩ = ⟨done, .afterLineEnd acc⟩ := by
  induction space with
  | nil => rfl
  | cons c space ih =>
    obtain ⟨hc, hrest⟩ := List.forall_mem_cons.mp hspace
    have hstep : step ⟨done, .afterLineEnd acc⟩ c = ⟨done, .afterLineEnd acc⟩ := by
      rcases hc with hc | rfl
      · simp [step, hc]
      · simp [step]
    rw [List.foldl_cons, hstep]
    exact ih hrest

theorem foldl_beforeLineEnd {blanks : List Char} (hblanks : ∀ c ∈ blanks, isBlank c = true) :
    blanks.foldl step ⟨done, .beforeLineEnd acc⟩ = ⟨done, .beforeLineEnd acc⟩ := by
  induction blanks with
  | nil => rfl
  | cons c blanks ih =>
    obtain ⟨hc, hrest⟩ := List.forall_mem_cons.mp hblanks
    have hstep : step ⟨done, .beforeLineEnd acc⟩ c = ⟨done, .beforeLineEnd acc⟩ := by
      simp [step, hc]
    rw [List.foldl_cons, hstep]
    exact ih hrest

/-- Space is no escape, so behind a backslash it can only be a line end that is not meant. -/
theorem escaped?_eq_none_of_isSpace (h : IsSpace c) : escaped? c = none ∧ c ≠ 'u' ∧ c ≠ 'U' := by
  have hspace : c = ' ' ∨ c = '\t' ∨ c = '\n' := by
    rcases h with h | h
    · simp only [isBlank, Bool.or_eq_true, beq_iff_eq] at h
      tauto
    · exact Or.inr (Or.inr h)
  rcases hspace with rfl | rfl | rfl <;> decide

/-- A line end that is not meant leads to the space after it. -/
theorem foldl_lineEnd {blanks : List Char} (hblanks : ∀ c ∈ blanks, isBlank c = true) :
    (blanks ++ ['\n']).foldl step ⟨done, .escape true acc⟩ = ⟨done, .afterLineEnd acc⟩ := by
  cases blanks with
  | nil => rfl
  | cons c blanks =>
    obtain ⟨hc, hrest⟩ := List.forall_mem_cons.mp hblanks
    obtain ⟨hescaped, hu, hU⟩ := escaped?_eq_none_of_isSpace (Or.inl hc)
    have hstep : step ⟨done, .escape true acc⟩ c = ⟨done, .beforeLineEnd acc⟩ := by
      simp [step, escape, hescaped, hu, hU, hc]
    rw [List.cons_append, List.foldl_cons, hstep, List.foldl_append, foldl_beforeLineEnd hrest]
    rfl

/-- A backslash, a line end and the space around that are skipped. -/
theorem foldl_continued {blanks space : List Char} (hblanks : ∀ c ∈ blanks, isBlank c = true)
    (hspace : ∀ c ∈ space, IsSpace c) :
    ('\\' :: blanks ++ '\n' :: space).foldl step ⟨done, .inside .basic true false acc⟩ =
      ⟨done, .afterLineEnd acc⟩ := by
  have hslash : step ⟨done, .inside .basic true false acc⟩ '\\' = ⟨done, .escape true acc⟩ :=
    inside_backslash
  have hshape : '\\' :: blanks ++ '\n' :: space = '\\' :: (blanks ++ ['\n'] ++ space) := by simp
  rw [hshape, List.foldl_cons, hslash, List.foldl_append, foldl_lineEnd hblanks,
    foldl_afterLineEnd hspace]

/-- After the space, the string goes on as if it had not been interrupted. What comes next must not
be space, and there must be something: at the end of a text the string is not closed. -/
theorem foldl_afterLineEnd_append (hnext : ∀ c, text.head? = some c → ¬ IsSpace c)
    (hne : text ≠ []) :
    text.foldl step ⟨done, .afterLineEnd acc⟩ =
      text.foldl step ⟨done, .inside .basic true false acc⟩ := by
  cases text with
  | nil => exact absurd rfl hne
  | cons c text =>
    have hspace := hnext c rfl
    unfold IsSpace at hspace
    rw [not_or] at hspace
    have hstep : step ⟨done, .afterLineEnd acc⟩ c =
        step ⟨done, .inside .basic true false acc⟩ c := by
      simp [step, hspace.1, hspace.2]
    rw [List.foldl_cons, List.foldl_cons, hstep]

/-- Quotes inside a string over several lines are counted. Three of them close it, and what was
counted before is content; so up to three are followed here, the last of them in `Toml/Token`. -/
theorem foldl_quotes {count : Nat} (hcount : count ≤ 2) :
    (List.replicate (count + 1) q.char).foldl step ⟨done, .inside q true multiline acc⟩ =
      ⟨done, .closing q (count + 1) acc⟩ := by
  have hopen : ∀ fresh, step ⟨done, .inside q true fresh acc⟩ q.char =
      ⟨done, .closing q 1 acc⟩ := by
    intro fresh
    simp [step, inside, quote_ne_newline]
  have hnext : ∀ n, n < 4 →
      step ⟨done, .closing q n acc⟩ q.char = ⟨done, .closing q (n + 1) acc⟩ := by
    intro n hn
    simp [step, closing, hn]
  interval_cases count
  · simp [List.replicate, hopen]
  · simp [List.replicate, hopen, hnext]
  · simp [List.replicate, hopen, hnext]

/-- One or two quotes were content, if no third follows. They are put in only when the next
character is seen. -/
theorem step_closing {count : Nat} (hcount : count = 1 ∨ count = 2) (hc : c ≠ q.char) :
    step ⟨done, .closing q count acc⟩ c =
      step ⟨done, .inside q true false (List.replicate count q.char ++ acc)⟩ c := by
  rcases hcount with rfl | rfl
  · simp [step, closing, hc]
  · simp [step, closing, hc]

/-- **What stands between quotes is read as it was meant**, up to the quotes that end it. The
induction is on how it was written, with any content before it. That a quote follows is needed where
the scanner looks ahead, and for nothing else. -/
theorem foldl_content (h : Content q multiline cs text) (hrest : rest.head? = some q.char) :
    (text ++ rest).foldl step ⟨done, .inside q multiline false acc⟩ =
      rest.foldl step ⟨done, .inside q multiline false (cs.reverse ++ acc)⟩ := by
  induction h generalizing acc with
  | nil => rfl
  | plain hc hquote hslash _ ih =>
    have hstep : step ⟨done, .inside q multiline false acc⟩ _ = _ := inside_plain hc hquote hslash
    rw [List.cons_append, List.foldl_cons, hstep, ih]
    simp
  | escape hq hd _ ih =>
    subst hq
    have hstep : step ⟨done, .escape multiline acc⟩ _ = _ := escape_escaped hd
    rw [List.cons_append, List.cons_append, List.foldl_cons, List.foldl_cons]
    have hslash : step ⟨done, .inside .basic multiline false acc⟩ '\\' =
        ⟨done, .escape multiline acc⟩ := inside_backslash
    rw [hslash, hstep, ih]
    simp
  | code hq hlength hdigits hvalid _ ih =>
    subst hq
    rw [List.append_assoc, List.foldl_append, foldl_numbered hlength hdigits hvalid, ih]
    simp
  | lineEnd hmultiline _ ih =>
    subst hmultiline
    have hstep : step ⟨done, .inside q true false acc⟩ '\n' =
        ⟨done, .inside q true false ('\n' :: acc)⟩ := rfl
    rw [List.cons_append, List.foldl_cons, hstep, ih]
    simp
  | @quotes count c cs text hmultiline hcount hc _ ih =>
    subst hmultiline
    obtain ⟨less, rfl⟩ : ∃ less, count = less + 1 := Nat.exists_eq_succ_of_ne_zero (by omega)
    rw [List.append_assoc, List.foldl_append, foldl_quotes (by omega), List.cons_append,
      List.foldl_cons, step_closing hcount hc, ← List.foldl_cons, ← List.cons_append, ih]
    simp
  | @continued blanks space cs text hmultiline hq hblanks hspace hnext _ ih =>
    subst hmultiline hq
    -- What is left may be nothing, and then it is the closing quote that ends the space.
    have hfollows : ∀ c, (text ++ rest).head? = some c → ¬ IsSpace c := by
      cases text with
      | nil =>
        intro c hc
        rw [List.nil_append, hrest] at hc
        cases hc
        unfold IsSpace
        decide
      | cons d text => exact hnext
    have hne : text ++ rest ≠ [] := by
      rintro heq
      rw [List.append_eq_nil_iff] at heq
      rw [heq.2] at hrest
      cases hrest
    rw [List.append_assoc, List.foldl_append, foldl_continued hblanks hspace,
      foldl_afterLineEnd_append hfollows hne, ih]

end Scan

end Toml
end Beamline
