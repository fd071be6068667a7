import Mathlib.Tactic
import Beamline.Proofs.Toml.Quoted

/-!
# Texts of tokens — how a settings file may be written

`Written ts cs` says that a text is the tokens put one after another, each in one of its ways
(`Lexeme`), and each ended by what follows it (`Token.Ends`): a word by a character that no word
has, a comment by the end of its line. The scanner takes such a text apart again
(`tokens?_of_written`).
-/

set_option autoImplicit false

namespace Beamline
namespace Toml

/-- A token and a way to write it. Words, blanks and marks are written as they are; a comment can
say anything, since the token keeps none of it, and a string is written in any of the ways of its
`Content`. -/
inductive Lexeme : Token → List Char → Prop where
  | newline : Lexeme .newline ['\n']
  | blank {cs : List Char} (hne : cs ≠ []) (h : ∀ c ∈ cs, isBlank c = true) : Lexeme (.blank cs) cs
  | comment {cs : List Char} (h : ∀ c ∈ cs, inComment c = true) : Lexeme .comment ('#' :: cs)
  | mark {c : Char} (h : c ∈ marks) : Lexeme (.mark c) [c]
  | word {cs : List Char} (hne : cs ≠ []) (h : ∀ c ∈ cs, isKeyChar c = true) : Lexeme (.word cs) cs
  | line {q : Quote} {cs text : List Char} (h : Content q false cs text) :
      Lexeme (.text cs false) (q.char :: text ++ [q.char])
  /-- Over several lines, where a line end right after the opening is not meant, and up to two
  quotes may stand right before the closing. -/
  | lines {q : Quote} {opening cs text : List Char} {count : Nat} (h : Content q true cs text)
      (hopening : opening = ['\n'] ∨ opening = [] ∧ text.head? ≠ some '\n') (hcount : count ≤ 2) :
      Lexeme (.text (cs ++ List.replicate count q.char) true)
        (List.replicate 3 q.char ++ opening ++ text ++ List.replicate (count + 3) q.char)

/-- What may follow a token, for it to end there. A string may not be followed by a quote: two
quotes are an empty string, and a third one would open one over several lines. -/
def Token.Ends : Token → List Char → Prop
  | _, [] => True
  | .blank _, c :: _ => isBlank c = false
  | .comment, c :: _ => c = '\n'
  | .word _, c :: _ => isKeyChar c = false
  | .text _ _, c :: _ => c ≠ Quote.basic.char ∧ c ≠ Quote.literal.char
  | _, _ => True

/-- A text that is some tokens, one after another. -/
inductive Written : List Token → List Char → Prop where
  | nil : Written [] []
  | cons {t : Token} {ts : List Token} {front back : List Char} (h : Lexeme t front)
      (hends : t.Ends back) (hback : Written ts back) : Written (t :: ts) (front ++ back)

namespace Scan

variable {q : Quote} {done : List Token} {acc cs text rest : List Char} {c : Char} {t : Token}

/-- A token that is still open is complete if the next character does not belong to it, and also if
there is none. Blanks, words, comments and strings that may have to take in another quote all end in
this way, so it is said once, of any state. -/
theorem finish_foldl_eq {mode : Mode} (hfinish : finish ⟨done, mode⟩ = some (t :: done).reverse)
    (hstep : ∀ c cs, rest = c :: cs → step ⟨done, mode⟩ c = plain (t :: done) c) :
    (rest.foldl step ⟨done, mode⟩).finish = (rest.foldl step ⟨t :: done, .plain⟩).finish := by
  cases rest with
  | nil => exact hfinish
  | cons c cs =>
    rw [List.foldl_cons, List.foldl_cons, hstep c cs rfl]
    rfl

theorem foldl_blank (h : ∀ c ∈ cs, isBlank c = true) :
    cs.foldl step ⟨done, .blank acc⟩ = ⟨done, .blank (cs.reverse ++ acc)⟩ := by
  induction cs generalizing acc with
  | nil => rfl
  | cons c cs ih =>
    obtain ⟨hc, hrest⟩ := List.forall_mem_cons.mp h
    have hstep : step ⟨done, .blank acc⟩ c = ⟨done, .blank (c :: acc)⟩ := by simp [step, hc]
    rw [List.foldl_cons, hstep, ih hrest]
    simp

theorem foldl_word (h : ∀ c ∈ cs, isKeyChar c = true) :
    cs.foldl step ⟨done, .word acc⟩ = ⟨done, .word (cs.reverse ++ acc)⟩ := by
  induction cs generalizing acc with
  | nil => rfl
  | cons c cs ih =>
    obtain ⟨hc, hrest⟩ := List.forall_mem_cons.mp h
    have hstep : step ⟨done, .word acc⟩ c = ⟨done, .word (c :: acc)⟩ := by simp [step, hc]
    rw [List.foldl_cons, hstep, ih hrest]
    simp

theorem foldl_comment (h : ∀ c ∈ cs, inComment c = true) :
    cs.foldl step ⟨done, .comment⟩ = ⟨done, .comment⟩ := by
  induction cs with
  | nil => rfl
  | cons c cs ih =>
    obtain ⟨hc, hrest⟩ := List.forall_mem_cons.mp h
    have hline : c ≠ '\n' := by
      rintro rfl
      exact absurd hc (by decide)
    have hstep : step ⟨done, .comment⟩ c = ⟨done, .comment⟩ := by simp [step, hline, hc]
    rw [List.foldl_cons, hstep]
    exact ih hrest

theorem plain_of_isBlank (h : isBlank c = true) : plain done c = ⟨done, .blank [c]⟩ := by
  have hline : c ≠ '\n' := by
    rintro rfl
    exact absurd h (by decide)
  simp [plain, hline, h]

theorem plain_of_mem_marks (h : c ∈ marks) : plain done c = ⟨.mark c :: done, .plain⟩ := by
  simp only [marks, List.mem_cons, List.not_mem_nil, or_false] at h
  rcases h with rfl | rfl | rfl | rfl | rfl | rfl | rfl | rfl | rfl <;> rfl

/-- A character of a word is none of those that are tried before words. -/
theorem plain_of_isKeyChar (h : isKeyChar c = true) : plain done c = ⟨done, .word [c]⟩ := by
  have hne : ∀ d : Char, isKeyChar d = false → c ≠ d := by
    rintro d hd rfl
    rw [hd] at h
    cases h
  have hblank : isBlank c = false := by
    simp [isBlank, hne ' ' (by decide), hne '\t' (by decide)]
  have hmarks : marks.contains c = false := by
    simp [marks, hne '=' (by decide), hne '.' (by decide), hne ',' (by decide), hne ':' (by decide),
      hne '+' (by decide), hne '\x7b' (by decide), hne '\x7d' (by decide), hne '[' (by decide),
      hne ']' (by decide)]
  rw [plain, if_neg (hne '\n' (by decide)), hblank, if_neg (by simp), if_neg (hne '#' (by decide)),
    hmarks, if_neg (by simp), if_neg (hne Quote.basic.char (by decide)),
    if_neg (hne Quote.literal.char (by decide)), if_pos h]

theorem step_quote : step ⟨done, .plain⟩ q.char = ⟨done, .opened q⟩ := by
  cases q <;> rfl

/-- After a quote, what is no quote is the first character of a string on one line. -/
theorem step_opened (hc : c ≠ q.char) :
    step ⟨done, .opened q⟩ c = step ⟨done, .inside q false false []⟩ c := by
  simp [step, hc]

/-- After three quotes, the first character is read as any other, if it is no line end. -/
theorem step_fresh (hc : c ≠ '\n') :
    step ⟨done, .inside q true true acc⟩ c = step ⟨done, .inside q true false acc⟩ c := by
  simp [step, inside, hc]

theorem foldl_opening : (List.replicate 3 q.char).foldl step ⟨done, .plain⟩ =
    ⟨done, .inside q true true []⟩ := by
  cases q <;> rfl

/-- On one line, nothing is written of nothing only, and a quote is nowhere written as it is. Two
quotes are therefore the empty string, and no other string begins with two. -/
theorem line_content (h : Content q false cs text) :
    (text = [] → cs = []) ∧ ∀ c, text.head? = some c → c ≠ q.char := by
  cases h with
  | nil => exact ⟨fun _ => rfl, by rintro c ⟨⟩⟩
  | plain _ hquote => exact ⟨by rintro ⟨⟩, by rintro c ⟨⟩; exact hquote⟩
  | escape hq => exact ⟨by rintro ⟨⟩, by rintro c ⟨⟩; subst hq; decide⟩
  | code hq => exact ⟨by rintro ⟨⟩, by rintro c ⟨⟩; subst hq; decide⟩
  | lineEnd hmultiline => cases hmultiline
  | quotes hmultiline => cases hmultiline
  | continued hmultiline => cases hmultiline

/-- A string on one line ends with its quote. The empty string is a case by itself, as only what
follows tells it from the opening of a string over several lines. -/
theorem finish_line (h : Content q false cs text) (hends : (Token.text cs false).Ends rest) :
    ((q.char :: text ++ [q.char] ++ rest).foldl step ⟨done, .plain⟩).finish =
      (rest.foldl step ⟨.text cs false :: done, .plain⟩).finish := by
  rw [List.cons_append, List.cons_append, List.foldl_cons, step_quote]
  cases text with
  | nil =>
    obtain rfl := (line_content h).1 rfl
    have htwice : step ⟨done, .opened q⟩ q.char = ⟨done, .openedTwice q⟩ := by simp [step]
    rw [List.nil_append, List.singleton_append, List.foldl_cons, htwice]
    refine finish_foldl_eq rfl ?_
    rintro c cs rfl
    have hne : c ≠ q.char := by
      cases q
      · exact hends.1
      · exact hends.2
    simp [step, hne]
  | cons c text =>
    have hne : c ≠ q.char := (line_content h).2 c rfl
    have hclose : step ⟨done, .inside q false false cs.reverse⟩ q.char =
        ⟨.text cs false :: done, .plain⟩ := by
      simp [step, inside, quote_ne_newline, emit]
    rw [List.append_assoc, List.cons_append, List.foldl_cons, step_opened hne, ← List.foldl_cons,
      ← List.cons_append, foldl_content h rfl, List.singleton_append, List.foldl_cons,
      List.append_nil, hclose]

/-- Right after three quotes a line end is not meant; but for that, the string is read from the same
state. -/
theorem foldl_opening_append {opening : List Char}
    (hopening : opening = ['\n'] ∨ opening = [] ∧ ∀ c, rest.head? = some c → c ≠ '\n')
    (hne : rest ≠ []) :
    (List.replicate 3 q.char ++ (opening ++ rest)).foldl step ⟨done, .plain⟩ =
      rest.foldl step ⟨done, .inside q true false []⟩ := by
  rw [List.foldl_append, foldl_opening]
  rcases hopening with rfl | ⟨rfl, hfirst⟩
  · rfl
  · obtain ⟨c, more, rfl⟩ := List.exists_cons_of_ne_nil hne
    rw [List.nil_append, List.foldl_cons, List.foldl_cons, step_fresh (hfirst c rfl)]

/-- Three quotes close a string over several lines, and one or two before them belong to it. With
two, the string is complete at once, since there is no sixth quote that could still be its own;
otherwise the next character has to be seen. -/
theorem finish_closing {count : Nat} (hcount : count ≤ 2)
    (hne : ∀ c more, rest = c :: more → c ≠ q.char) :
    ((List.replicate (count + 3) q.char ++ rest).foldl step
      ⟨done, .inside q true false acc⟩).finish =
      (rest.foldl step
        ⟨.text (acc.reverse ++ List.replicate count q.char) true :: done, .plain⟩).finish := by
  have hthree : (List.replicate 3 q.char).foldl step ⟨done, .inside q true false acc⟩ =
      ⟨done, .closing q 3 acc⟩ := foldl_quotes (by decide)
  have hfour : step ⟨done, .closing q 3 acc⟩ q.char = ⟨done, .closing q 4 acc⟩ := by
    simp [step, closing]
  rw [Nat.add_comm, List.replicate_add, List.append_assoc, List.foldl_append, hthree]
  interval_cases count
  · rw [List.replicate_zero, List.nil_append, List.append_nil]
    refine finish_foldl_eq ?_ ?_
    · simp [finish]
    · intro c more hrest
      simp [step, closing, hne c more hrest]
  · rw [List.replicate_one, List.singleton_append, List.foldl_cons, hfour]
    refine finish_foldl_eq ?_ ?_
    · simp [finish]
    · intro c more hrest
      simp [step, closing, hne c more hrest]
  · have hfive : step ⟨done, .closing q 4 acc⟩ q.char =
        ⟨.text (acc.reverse ++ List.replicate 2 q.char) true :: done, .plain⟩ := by
      simp [step, closing, emit, List.replicate]
    rw [List.replicate_succ, List.replicate_one, List.cons_append, List.singleton_append,
      List.foldl_cons, List.foldl_cons, hfour, hfive]
    rfl

/-- A string over several lines ends with three quotes, or a quote or two more. -/
theorem finish_lines {opening : List Char} {count : Nat} (h : Content q true cs text)
    (hopening : opening = ['\n'] ∨ opening = [] ∧ text.head? ≠ some '\n') (hcount : count ≤ 2)
    (hends : (Token.text (cs ++ List.replicate count q.char) true).Ends rest) :
    ((List.replicate 3 q.char ++ opening ++ text ++ List.replicate (count + 3) q.char ++ rest).foldl
      step
        ⟨done, .plain⟩).finish =
      (rest.foldl step
        ⟨.text (cs ++ List.replicate count q.char) true :: done, .plain⟩).finish := by
  let closed := List.replicate (count + 3) q.char ++ rest
  have hhead : closed.head? = some q.char := by simp [closed, List.replicate_succ]
  have hopening' : opening = ['\n'] ∨ opening = [] ∧ ∀ c, (text ++ closed).head? = some c →
      c ≠ '\n' := by
    refine hopening.imp_right fun ⟨hnil, hfirst⟩ => ⟨hnil, fun c hc heq => ?_⟩
    cases text with
    | nil =>
      rw [List.nil_append, hhead] at hc
      exact quote_ne_newline q ((Option.some.inj hc).trans heq)
    | cons d text => exact hfirst (hc.trans (congrArg some heq))
  have hne : text ++ closed ≠ [] := by simp [closed, List.replicate_succ]
  have hquote : ∀ c more, rest = c :: more → c ≠ q.char := by
    rintro c more rfl
    cases q
    · exact hends.1
    · exact hends.2
  have hall :
      List.replicate 3 q.char ++ opening ++ text ++ List.replicate (count + 3) q.char ++ rest =
      List.replicate 3 q.char ++ (opening ++ (text ++ closed)) := by simp [closed]
  rw [hall, foldl_opening_append hopening' hne, foldl_content h hhead, List.append_nil,
    finish_closing hcount hquote, List.reverse_reverse]

/-- **A token is read back**, whatever follows it, if it ends there. The states are compared after
all of the text has been read, because some tokens are put in only by the character behind them. -/
theorem finish_lexeme (h : Lexeme t text) (hends : t.Ends rest) :
    ((text ++ rest).foldl step ⟨done, .plain⟩).finish =
      (rest.foldl step ⟨t :: done, .plain⟩).finish := by
  cases h with
  | newline => rfl
  | blank hne h =>
    obtain ⟨c, cs, rfl⟩ := List.exists_cons_of_ne_nil hne
    obtain ⟨hc, hcs⟩ := List.forall_mem_cons.mp h
    have hstep : step ⟨done, .plain⟩ c = ⟨done, .blank [c]⟩ := plain_of_isBlank hc
    rw [List.cons_append, List.foldl_cons, hstep, List.foldl_append, foldl_blank hcs]
    refine finish_foldl_eq ?_ ?_
    · simp [finish]
    · rintro d ds rfl
      have hd : isBlank d = false := hends
      simp [step, hd]
  | comment h =>
    have hstep : step ⟨done, .plain⟩ '#' = ⟨done, .comment⟩ := rfl
    rw [List.cons_append, List.foldl_cons, hstep, List.foldl_append, foldl_comment h]
    refine finish_foldl_eq rfl ?_
    rintro d ds rfl
    have hd : d = '\n' := hends
    subst hd
    rfl
  | mark h =>
    have hstep : step ⟨done, .plain⟩ _ = _ := plain_of_mem_marks h
    rw [List.singleton_append, List.foldl_cons, hstep]
  | word hne h =>
    obtain ⟨c, cs, rfl⟩ := List.exists_cons_of_ne_nil hne
    obtain ⟨hc, hcs⟩ := List.forall_mem_cons.mp h
    have hstep : step ⟨done, .plain⟩ c = ⟨done, .word [c]⟩ := plain_of_isKeyChar hc
    rw [List.cons_append, List.foldl_cons, hstep, List.foldl_append, foldl_word hcs]
    refine finish_foldl_eq ?_ ?_
    · simp [finish]
    · rintro d ds rfl
      have hd : isKeyChar d = false := hends
      simp [step, hd]
  | line h => exact finish_line h hends
  | lines h hopening hcount => exact finish_lines h hopening hcount hends

/-- **A text of tokens is taken apart again.** -/
theorem finish_written {ts : List Token} (h : Written ts text) :
    (text.foldl step ⟨done, .plain⟩).finish = some (done.reverse ++ ts) := by
  induction h generalizing done with
  | nil => simp [finish]
  | cons hlexeme hends _ ih =>
    rw [finish_lexeme hlexeme hends, ih]
    simp

end Scan

/-- The same of a whole text, whose line ends are joined and whose mark is dropped before. -/
theorem tokens?_of_written {ts : List Token} {text : List Char}
    (h : Written ts (joinLineEnds (dropMark text))) : tokens? text = some ts :=
  Scan.finish_written h

end Toml
end Beamline
