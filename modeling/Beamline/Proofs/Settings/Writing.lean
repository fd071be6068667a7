import Mathlib.Tactic
import Beamline.Proofs.Settings.Fields
import Beamline.Proofs.Toml.Sections
import Beamline.Proofs.Toml.Writing

/-!
# Writing settings — every choice has a text

Whatever subset of the known keys is to be given, and whatever values that can be written, there is
a text that gives just these (`exists_text`): each part under its header, and a line for each key.
The shortest such text that gives anything has one header and one line (`isText_oneLine`).
-/

set_option autoImplicit false

namespace Beamline
namespace Settings

open Toml (Document Block Lines Written IsLayout)

/-- A document whose parts are all written as tables, if at all. -/
structure Describes (d : Document) : Prop where
  wellformed : d.Wellformed
  usual : ∀ part : Part, d.Usual part.name part.names

/-! ## The document of a choice -/

def Part.all : List Part := [paths, figure, analysis, output]

/-- An entry for each of some keys that is given a value. The keys are those that the settings know;
a choice may give others as well, and they are not written. -/
def entriesOf (g : String → Option Toml.Value) (names : List String) : List Toml.Entry :=
  names.filterMap fun key => (g key).map fun v => ⟨key, [], v⟩

/-- A part under its header. A part that is given nothing has its header all the same, and reads
like one that is missing. -/
def blockOf (g : Given) (part : Part) : Block :=
  ⟨false, part.name, [], entriesOf (g part.name) part.names⟩

/-- All parts under their headers, in the order of the settings, and nothing before the first of
them. -/
def documentOf (g : Given) : Document := ⟨[], Part.all.map (blockOf g)⟩

section

variable {g : Given} {h : String → Option Toml.Value} {names : List String} {key : String}
  {part : Part}

theorem mem_all (part : Part) : part ∈ Part.all := by cases part <;> simp [Part.all]

/-- Each entry is a known key of one part with the value that is chosen for it. That its key has one
part is what keeps the document usual, and its entries apart. -/
theorem mem_entriesOf {e : Toml.Entry} (he : e ∈ entriesOf h names) :
    e.path = [] ∧ e.key ∈ names ∧ h e.key = some e.value := by
  obtain ⟨name, hname, hentry⟩ := List.mem_filterMap.mp he
  obtain ⟨v, hv, rfl⟩ := Option.map_eq_some_iff.mp hentry
  exact ⟨rfl, hname, hv⟩

theorem entriesOf_cons (h : String → Option Toml.Value) (name : String) (names : List String) :
    entriesOf h (name :: names) =
      ((h name).map fun v => (⟨name, [], v⟩ : Toml.Entry)).toList ++ entriesOf h names := by
  unfold entriesOf
  rw [List.filterMap_cons]
  cases (h name).map fun v => (⟨name, [], v⟩ : Toml.Entry) <;> rfl

/-- The entries give each known key what was chosen for it. The induction is on the keys, not on the
entries, since a key without a value leaves no entry. -/
theorem valueOf_entriesOf (h : String → Option Toml.Value) (names : List String) (key : String) :
    Toml.valueOf (entriesOf h names) key = if key ∈ names then h key else none := by
  induction names with
  | nil => rfl
  | cons name names ih =>
    have hfirst : Toml.valueOf ((h name).map fun v => (⟨name, [], v⟩ : Toml.Entry)).toList key =
        if key = name then h key else none := by
      cases hv : h name with
      | none =>
        split
        next heq => rw [heq, hv]; rfl
        next => rfl
      | some v =>
        split
        next heq => simp [Toml.valueOf, Toml.Entry.assignment, Toml.Entry.names, heq, hv]
        next hne =>
          simp [Toml.valueOf, Toml.Entry.assignment, Toml.Entry.names, List.lookup_cons,
            beq_false_of_ne hne]
    rw [entriesOf_cons, Toml.valueOf, List.map_append, List.lookup_append]
    rw [Toml.valueOf] at hfirst ih
    rw [hfirst, ih]
    -- A key that stands twice among the names is given the same value by both.
    by_cases hname : key = name <;> by_cases hmem : key ∈ names <;> simp [hname, hmem] <;> simp_all

theorem apart_entriesOf (h : String → Option Toml.Value) (hnodup : names.Nodup) :
    Toml.Apart (entriesOf h names) := by
  unfold Toml.Apart entriesOf
  rw [List.pairwise_filterMap]
  apply hnodup.imp
  intro name name' hne e he e' he'
  obtain ⟨v, -, rfl⟩ := Option.map_eq_some_iff.mp he
  obtain ⟨v', -, rfl⟩ := Option.map_eq_some_iff.mp he'
  simp [Toml.Separate, Toml.Entry.names, hne, hne.symm]

theorem nodup_names (part : Part) : part.names.Nodup := by cases part <;> decide

theorem name_of_block {b : Block} (hb : b ∈ (documentOf g).blocks) :
    ∃ part : Part, b = blockOf g part := by
  obtain ⟨part, -, rfl⟩ := List.mem_map.mp hb
  exact ⟨part, rfl⟩

/-- Every name that the document gives has two parts, the section's and the key's. So none of them
is a whole section, and none goes inside a key: two of the five things asked for in
`Document.Usual`. -/
theorem length_of_assignment {a : List String × Toml.Value} (ha : a ∈ (documentOf g).assignments) :
    a.1.length = 2 := by
  rcases List.mem_append.mp ha with ha | ha
  · cases ha
  · obtain ⟨b, hb, ha⟩ := List.mem_flatMap.mp ha
    obtain ⟨part, rfl⟩ := name_of_block hb
    obtain ⟨e, he, rfl⟩ := List.mem_map.mp ha
    have hpath := (mem_entriesOf he).1
    simp [Toml.Entry.assignment, Block.names, blockOf, Toml.Entry.names, hpath]

/-- Any choice has such a document, whatever the values are. What they are is asked for where it is
written (`Given.Writable`). -/
theorem describes_documentOf (g : Given) : Describes (documentOf g) where
  wellformed :=
    { top := List.Pairwise.nil
      blocks := by
        intro b hb
        obtain ⟨part, rfl⟩ := name_of_block hb
        exact apart_entriesOf _ (nodup_names part)
      headers := by
        simp [documentOf, Part.all, blockOf, Toml.Opens, Toml.Kinds.Allows, Toml.Kinds.after,
          Block.names, Part.name] }
  usual part :=
    { single := by
        intro b hb _
        obtain ⟨part, rfl⟩ := name_of_block hb
        rfl
      headers := by
        intro b hb key _ hbegins
        obtain ⟨part, rfl⟩ := name_of_block hb
        have hlength := hbegins.length_le
        simp [blockOf, Block.names] at hlength
      braces := by
        intro v hv
        have hlength := length_of_assignment hv
        simp at hlength
      whole := by
        intro a ha key _ hbegins
        exact (hbegins.eq_of_length (length_of_assignment ha).symm).symm
      oneWay := Or.inl (by intro e he; cases he) }

/-- Looking for a key goes past the blocks of the other parts. The parts are any list here, so that
the induction has their tails. -/
theorem lookup_blocksOf (g : Given) (part : Part) (parts : List Part) (key : String) :
    ((parts.map (blockOf g)).flatMap Block.assignments).lookup [part.name, key] =
      if part ∈ parts then Toml.valueOf (entriesOf (g part.name) part.names) key else none := by
  induction parts with
  | nil => rfl
  | cons first parts ih =>
    have hnames : (blockOf g first).names = [part.name] ↔ first = part :=
      ⟨fun heq => Part.name_injective (List.cons.inj heq).1, fun heq => by rw [heq]; rfl⟩
    rw [List.map_cons, Toml.lookup_flatMap_cons, Block.lookup_assignments, ih]
    simp only [hnames, List.mem_cons]
    by_cases hfirst : first = part
    · subst hfirst
      by_cases hmem : first ∈ parts <;> simp [blockOf, hmem]
    · simp [hfirst, Ne.symm hfirst]

/-- The document gives what was chosen. Known keys only: the others are given nothing, whatever was
chosen for them. -/
theorem given_documentOf (g : Given) (part : Part) (hkey : key ∈ part.names) :
    (documentOf g).given part.name key = g part.name key := by
  have htop : ∀ names, (documentOf g).assignments.lookup names =
      ((Part.all.map (blockOf g)).flatMap Block.assignments).lookup names := fun _ => rfl
  rw [Document.given, htop, htop, Toml.lookup_blocks_singleton, lookup_blocksOf,
    if_pos (mem_all part), valueOf_entriesOf, if_pos hkey]
  exact Option.or_none

end

/-! ## Its text -/

/-- A choice that can be written: each known key is given nothing, or a value that a line can end
with. -/
def Given.Writable (g : Given) : Prop :=
  ∀ part : Part, ∀ key ∈ part.names, ∀ v, g part.name key = some v → v.Writable

/-- A name that is a word, and needs no quotes where it stands as a key or in a header. -/
def IsWord (name : String) : Prop := name.toList ≠ [] ∧ ∀ c ∈ name.toList, Toml.isKeyChar c = true

section

variable {g : Given} {es : List Toml.Entry} {bs : List Block} {ts : List Toml.Token}
  {text : List Char} {name : String}

/-- The parts have such names, and so have their keys (`isWord_of_mem`): the whole text is made of
words, marks and ends of lines, but for the values. -/
theorem isWord_name (part : Part) : IsWord part.name := by
  cases part <;> exact ⟨by decide, List.all_eq_true.mp (by decide)⟩

theorem isWord_of_mem {part : Part} (h : name ∈ part.names) : IsWord name := by
  have hall : ∀ name ∈ part.names, name.toList ≠ [] ∧ name.toList.all Toml.isKeyChar = true := by
    cases part <;> decide
  obtain ⟨hne, hkey⟩ := hall name h
  exact ⟨hne, List.all_eq_true.mp hkey⟩

theorem isKey_word (name : String) : Toml.IsKey (.word name.toList) name := by
  have hkey := Toml.IsKey.word name.toList
  rwa [String.ofList_toList] at hkey

/-- There is no carriage return in a word. A text is taken apart after its line ends have been
joined, so one that is to be read as it stands must have none. -/
theorem IsWord.no_return (h : IsWord name) : '\r' ∉ name.toList := by
  intro hmem
  exact absurd (h.2 _ hmem) (by decide)

theorem isLayout_nil : IsLayout [] := by intro t ht; cases ht

/-- Lines with some entries can be written before other lines. The lines that follow are taken along
because a token is only written in front of something that ends it. -/
theorem exists_lines_entries
    (hes : ∀ e ∈ es, e.path = [] ∧ IsWord e.key ∧ e.value.Writable) (hlines : Lines [] bs ts)
    (hwritten : Written ts text) (hreturn : '\r' ∉ text) :
    ∃ ts' text', Lines es bs ts' ∧ Written ts' text' ∧ '\r' ∉ text' := by
  induction es with
  | nil => exact ⟨ts, text, hlines, hwritten, hreturn⟩
  | cons e es ih =>
    obtain ⟨⟨hpath, hword, vts, vtext, hspells, hwrites, hvreturn⟩, hrest⟩ :=
      List.forall_mem_cons.mp hes
    obtain ⟨ts', text', hlines', hwritten', hreturn'⟩ := ih hrest
    obtain ⟨key, path, v⟩ := e
    subst hpath
    have hentry := Toml.Spells.entry (isKey_word key) .nil .none .none hspells
    refine ⟨_, key.toList ++ (['='] ++ (vtext ++ '\n' :: text')),
      .entry isLayout_nil hentry (.plain ts' .none) hlines', ?_, ?_⟩
    · have hnewline : Written (.newline :: ts') ('\n' :: text') :=
        .cons .newline (Toml.newline_ends text') hwritten'
      have hvalue : Written (vts ++ .newline :: ts') (vtext ++ '\n' :: text') :=
        hwrites _ _ hnewline
      exact .cons (.word hword.1 hword.2) rfl
        (.cons (.mark (by decide)) (Toml.mark_ends _ _) hvalue)
    · simp [hword.no_return, hvreturn, hreturn']

/-- Headers and the lines under them, from the last part to the first. The text begins with a
bracket if there is any part, so nothing at its start is taken for a mark of the encoding. -/
theorem exists_lines_blocks (hg : g.Writable) (parts : List Part) :
    ∃ ts text, Lines [] (parts.map (blockOf g)) ts ∧ Written ts text ∧ '\r' ∉ text ∧
      (parts ≠ [] → text.head? = some '[') := by
  induction parts with
  | nil => exact ⟨[], [], .nil isLayout_nil, .nil, List.not_mem_nil, fun hne => absurd rfl hne⟩
  | cons part parts ih =>
    obtain ⟨ts, text, hlines, hwritten, hreturn, -⟩ := ih
    have hentries : ∀ e ∈ entriesOf (g part.name) part.names,
        e.path = [] ∧ IsWord e.key ∧ e.value.Writable := by
      intro e he
      obtain ⟨hpath, hkey, hv⟩ := mem_entriesOf he
      exact ⟨hpath, isWord_of_mem hkey, hg part e.key hkey e.value hv⟩
    obtain ⟨ts', text', hlines', hwritten', hreturn'⟩ :=
      exists_lines_entries hentries hlines hwritten hreturn
    have hword := isWord_name part
    have hheader := Toml.Header.single .none (isKey_word part.name) .nil .none
    refine ⟨_, ['['] ++ (part.name.toList ++ ([']'] ++ (['\n'] ++ text'))),
      .header isLayout_nil hheader (.plain ts' .none) hlines', ?_, ?_, fun _ => rfl⟩
    · have hnewline : Written (.newline :: ts') (['\n'] ++ text') :=
        .cons .newline (Toml.newline_ends text') hwritten'
      exact .cons (.mark (by decide)) (Toml.mark_ends _ _)
        (.cons (.word hword.1 hword.2) rfl
          (.cons (.mark (by decide)) (Toml.mark_ends _ _) hnewline))
    · simp [hword.no_return, hreturn']

theorem joinLineEnds_of_not_mem {cs : List Char} (h : '\r' ∉ cs) : Toml.joinLineEnds cs = cs := by
  induction cs with
  | nil => rfl
  | cons c cs ih =>
    obtain ⟨hne, hrest⟩ := not_or.mp fun hmem => h (List.mem_cons.mpr hmem)
    unfold Toml.joinLineEnds
    split
    next heq => exact absurd (List.cons.inj heq).1.symm hne
    next c' cs' _ heq =>
      obtain ⟨rfl, rfl⟩ := List.cons.inj heq
      rw [ih hrest]
    next heq => cases heq

/-- **Every choice of values that can be written has a document and a text.** What is proved of the
files that describe a choice is so about every choice: each of them has one. -/
theorem exists_text (g : Given) (hg : g.Writable) :
    ∃ d text, Document.IsText d text ∧ Describes d ∧
      ∀ part : Part, ∀ key ∈ part.names, d.given part.name key = g part.name key := by
  obtain ⟨ts, text, hlines, hwritten, hreturn, hhead⟩ := exists_lines_blocks hg Part.all
  have hmark : Toml.dropMark text = text := by
    obtain ⟨rest, rfl⟩ := List.head?_eq_some_iff.mp (hhead (by decide))
    rfl
  refine ⟨documentOf g, text, ⟨ts, hlines, ?_⟩, describes_documentOf g,
    fun part key => given_documentOf g part⟩
  rwa [hmark, joinLineEnds_of_not_mem hreturn]

end

/-! ## One line -/

/-- A document with one line, under a header: the smallest that gives something, and what a faulty
value is best seen in. -/
def oneLine (part : Part) (key : String) (v : Toml.Value) : Document :=
  ⟨[], [⟨false, part.name, [], [⟨key, [], v⟩]⟩]⟩

/-- Its text, if the value is one word. It is written out to be compared with an actual file. -/
def oneLineText (part : Part) (key w : String) : List Char :=
  ['['] ++
    (part.name.toList ++ ([']'] ++ (['\n'] ++ (key.toList ++ (['='] ++ (w.toList ++ ['\n']))))))

section

variable {part : Part} {key : String} {kind : FieldKind} {v : Toml.Value} {w : String}

theorem assignments_oneLine (part : Part) (key : String) (v : Toml.Value) :
    (oneLine part key v).assignments = [([part.name, key], v)] := rfl

theorem describes_oneLine (part : Part) (key : String) (v : Toml.Value) :
    Describes (oneLine part key v) where
  wellformed :=
    { top := .nil
      blocks := List.forall_mem_singleton.mpr (List.pairwise_singleton _ _)
      headers := ⟨Or.inl rfl, trivial⟩ }
  usual other :=
    { single := List.forall_mem_singleton.mpr fun _ => rfl
      headers := List.forall_mem_singleton.mpr fun key _ hbegins =>
        absurd hbegins.length_le (by simp [Toml.Block.names])
      braces := by simp [assignments_oneLine]
      whole := by
        rw [assignments_oneLine]
        exact List.forall_mem_singleton.mpr fun key _ hbegins => (hbegins.eq_of_length rfl).symm
      oneWay := Or.inl fun e he => absurd he List.not_mem_nil }

/-- It gives its key the value, and nothing else to anything. This is said of all names at once,
known or not, since it is what the choice is. -/
theorem given_oneLine (part : Part) (key : String) (v : Toml.Value) :
    (oneLine part key v).given = Given.nothing.set part.name key v := by
  funext sec name
  have hsection : [sec] ≠ [part.name, key] := by simp
  rw [Document.given, assignments_oneLine]
  by_cases hname : sec = part.name ∧ name = key
  · simp [Given.set, hname]
  · -- Neither this name nor the whole of its section is what the line gives.
    have hwhole : [sec, name] ≠ [part.name, key] := by simpa using hname
    simp [Given.set, Given.nothing, hname, List.lookup_cons, beq_false_of_ne hwhole,
      beq_false_of_ne hsection, Toml.insideOf]

/-- The text is one of the document, by the rules of the grammar from left to right: the header, its
end of line, the key, the sign, the value, and an end of line after it. -/
theorem isText_oneLine (hkey : IsWord key) (hword : IsWord w)
    (hvalue : Toml.Spells (.value v) [.word w.toList]) :
    (oneLine part key v).IsText (oneLineText part key w) := by
  have hlayout : Toml.IsLayout [] := isLayout_nil
  have hname := isWord_name part
  have hheader := Toml.Header.single .none (isKey_word part.name) .nil .none
  have hentry := Toml.Spells.entry (isKey_word key) .nil .none .none hvalue
  have hlines := Toml.Lines.header hlayout hheader (.plain _ .none)
    (.entry hlayout hentry (.plain _ .none) (.nil hlayout))
  have hmark : Toml.dropMark (oneLineText part key w) = oneLineText part key w := rfl
  have hreturn : '\r' ∉ oneLineText part key w := by
    simp [oneLineText, hname.no_return, hkey.no_return, hword.no_return]
  have hend : Toml.Written [.newline] ['\n'] := .cons .newline (Toml.newline_ends []) .nil
  have hline : Toml.Written [.word key.toList, .mark '=', .word w.toList, .newline]
      (key.toList ++ (['='] ++ (w.toList ++ ['\n']))) :=
    .cons (.word hkey.1 hkey.2) rfl
      (.cons (.mark (by decide)) (Toml.mark_ends _ _) (.cons (.word hword.1 hword.2) rfl hend))
  refine ⟨_, hlines, ?_⟩
  rw [hmark, joinLineEnds_of_not_mem hreturn]
  exact .cons (.mark (by decide)) (Toml.mark_ends _ _) (.cons (.word hname.1 hname.2) rfl
    (.cons (.mark (by decide)) (Toml.mark_ends _ _) (.cons .newline (Toml.newline_ends _) hline)))

theorem of_set_nothing {sec name sec' name' : String} {v' : Toml.Value}
    (h : Given.nothing.set sec name v sec' name' = some v') :
    sec' = sec ∧ name' = name ∧ v' = v := by
  unfold Given.set at h
  split at h
  next hname => exact ⟨hname.1, hname.2, (Option.some.inj h).symm⟩
  next => cases h

/-- The keys of a part all want values of one kind. It happens to be so for each of the four, and
makes the kind of a key known from its part alone. -/
theorem exists_kind (part : Part) : ∃ kind, ∀ field ∈ part.keys, field.2 = kind := by
  cases part with
  | paths => exact ⟨.text, by simp [Part.keys]⟩
  | figure => exact ⟨.number, by simp [Part.keys]⟩
  | analysis => exact ⟨.count, by simp [Part.keys]⟩
  | output => exact ⟨.flag, by simp [Part.keys]⟩

/-- What gives one key a value of its kind fits. Whether the key is listed once is not looked at:
any other listing would want the same kind (`exists_kind`). -/
theorem fits_set (hkey : (key, kind) ∈ part.keys) (hv : kind.Accepts v) :
    (Given.nothing.set part.name key v).Fits := by
  intro other ⟨name, kind'⟩ hfield v' hv'
  obtain ⟨hpart, rfl, rfl⟩ := of_set_nothing hv'
  obtain rfl := Part.name_injective hpart
  obtain ⟨kind'', hall⟩ := exists_kind other
  obtain rfl : kind = kind'' := hall _ hkey
  obtain rfl : kind' = kind := hall _ hfield
  exact hv

end

end Settings
end Beamline
