import Mathlib.Tactic
import Beamline.Toml.Value

/-!
# Entries — what dotted keys make of a table

A table is written as entries, each a value and the dotted key it is given by. Putting them into the
table one after another succeeds if no key leads to or through another one (`Apart`), in whatever
order they stand (`exists_insertAll`). A key of one part is given its value and nothing else
(`filter_of_insertAll`).
-/

set_option autoImplicit false

namespace Beamline
namespace Toml

/-- A value and the dotted key it is given by. -/
structure Entry where
  key : String
  path : List String
  value : Value

namespace Entry

/-- The parts of the key. -/
def names (e : Entry) : List String := e.key :: e.path

def pair (e : Entry) : String × Value := (e.key, e.value)

end Entry

/-- Names that lead to different places, neither of them inside the other. Both directions are asked
for: no key leads through the value of another one, and no value stands where other keys have made a
table. -/
def Separate (names names' : List String) : Prop := ¬ names <+: names' ∧ ¬ names' <+: names

/-- Entries that a table can be written with. The relation between any two of them is symmetric, so
a table may list them in any order. -/
def Apart (es : List Entry) : Prop := es.Pairwise fun e e' => Separate e.names e'.names

/-- The entries put into a table in the order they stand. The first that finds no place ends it, as
it ends the reading of a text. -/
def insertAll (es : List Entry) (pairs : Pairs) : Option Pairs :=
  es.foldlM (fun pairs e => insertDotted e.value e.key e.path pairs) pairs

/-- The table that some entries make. It is empty where there is none; every use is at entries that
are apart, which make one (`insertAll_eq_tableOf`). -/
def tableOf (es : List Entry) : Pairs := (insertAll es []).getD []

section

variable {pairs inner : Pairs} {key key' next : String} {path path' names names' : List String}
  {v : Value} {es : List Entry} {e : Entry}

/-! ## Room for an entry -/

/-- Whether a value can still be given by a dotted key: every table on the way there is missing, or
made by dotted keys. The last part of the key is not looked at: a value is put last whether its key
is there or not, so that it is new is asked of the entries instead (`Apart`). -/
def Admits (pairs : Pairs) : List String → Prop
  | [] => True
  | [_] => True
  | key :: next :: path =>
    match pairs.lookup key with
    | none => True
    | some (.table .dotted inner) => Admits inner (next :: path)
    | some _ => False

/-- An empty table has room for every key. Each entry starts from it, and so does each table that a
dotted key makes on its way. -/
theorem admits_nil (names : List String) : Admits [] names := by
  match names with
  | [] => trivial
  | [_] => trivial
  | _ :: _ :: _ => trivial

/-- Room one step further down: the reader makes the next table, or goes into one that a dotted key
has made. A table with a header of its own, or in braces, is closed to dotted keys. -/
theorem admits_cons_cons : Admits pairs (key :: next :: path) ↔
    pairs.lookup key = none ∨
      ∃ inner, pairs.lookup key = some (.table .dotted inner) ∧ Admits inner (next :: path) := by
  rw [Admits]
  split
  next hnone => simp [hnone]
  next inner hinner => simp [hinner]
  next v hother hv =>
    simp only [hv, false_iff, not_or, not_exists, not_and, reduceCtorEq, not_false_eq_true,
      true_and]
    rintro inner ⟨⟩
    exact absurd rfl (hother inner)

/-- All that putting in an entry can do: a pair is put last, or a table that a dotted key made is
extended where it stands. Every fact about the table afterwards is a case analysis on this. -/
theorem insertDotted_cases {after : Pairs} (h : insertDotted v key path pairs = some after) :
    (path = [] ∧ after = pairs ++ [(key, v)]) ∨
      ∃ next more, path = next :: more ∧
        ((pairs.lookup key = none ∧ ∃ inner, insertDotted v next more [] = some inner ∧
            after = pairs ++ [(key, .table .dotted inner)]) ∨
          ∃ old inner, pairs.lookup key = some (.table .dotted old) ∧
            insertDotted v next more old = some inner ∧
            after = pairs.replaceFirst (fun pair => pair.1 == key) (.table .dotted inner)) := by
  cases path with
  | nil => exact Or.inl ⟨rfl, (Option.some.inj h).symm⟩
  | cons next more =>
    refine Or.inr ⟨next, more, rfl, ?_⟩
    rw [insertDotted] at h
    split at h
    next hnone =>
      obtain ⟨inner, hinner, rfl⟩ := Option.map_eq_some_iff.mp h
      exact Or.inl ⟨hnone, inner, hinner, rfl⟩
    next old hold =>
      obtain ⟨inner, hinner, rfl⟩ := Option.map_eq_some_iff.mp h
      exact Or.inr ⟨old, inner, hold, hinner, rfl⟩
    next => cases h

/-- Room is enough: a key that a table has room for is put into it. The induction is on the rest of
the key, with an empty table wherever the way is not there yet. -/
theorem insertDotted_of_admits (h : Admits pairs (key :: path)) :
    ∃ after, insertDotted v key path pairs = some after := by
  induction path generalizing pairs key with
  | nil => exact ⟨_, rfl⟩
  | cons next path ih =>
    rcases admits_cons_cons.mp h with hnone | ⟨inner, hinner, hadmits⟩
    · obtain ⟨after, hafter⟩ := ih (admits_nil (next :: path))
      exact ⟨_, by rw [insertDotted, hnone, hafter]; rfl⟩
    · obtain ⟨after, hafter⟩ := ih hadmits
      exact ⟨_, by rw [insertDotted, hinner]; simp only [hafter]; rfl⟩

/-! ## Looking at another key, or at the same -/

theorem lookup_append_of_ne (h : key' ≠ key) (v : Value) :
    (pairs ++ [(key, v)]).lookup key' = pairs.lookup key' := by
  rw [List.lookup_append]
  simp [List.lookup_cons, beq_false_of_ne h]

/-- It is found under its own key, if that was not there before: a look-up stops at the first pair,
so an older one would hide it. -/
theorem lookup_append_of_none (h : pairs.lookup key = none) (v : Value) :
    (pairs ++ [(key, v)]).lookup key = some v := by
  rw [List.lookup_append, h]
  simp

theorem lookup_replaceFirst_of_ne (h : key' ≠ key) (v : Value) :
    (pairs.replaceFirst (fun pair => pair.1 == key) v).lookup key' = pairs.lookup key' := by
  induction pairs with
  | nil => rfl
  | cons pair pairs ih =>
    obtain ⟨name, old⟩ := pair
    by_cases hname : name = key
    · subst hname
      simp [Pairs.replaceFirst, List.lookup_cons, beq_false_of_ne h]
    · simp [Pairs.replaceFirst, List.lookup_cons, hname, ih]

theorem lookup_replaceFirst (h : pairs.lookup key ≠ none) (v : Value) :
    (pairs.replaceFirst (fun pair => pair.1 == key) v).lookup key = some v := by
  induction pairs with
  | nil => exact absurd rfl h
  | cons pair pairs ih =>
    obtain ⟨name, old⟩ := pair
    by_cases hname : name = key
    · subst hname
      simp [Pairs.replaceFirst]
    · have hne : (key == name) = false := beq_false_of_ne (Ne.symm hname)
      rw [List.lookup_cons, hne] at h
      simp [Pairs.replaceFirst, List.lookup_cons, hname, hne, ih h]

/-! ## Entries one after another -/

/-- An entry leaves room for the keys that do not lead through its own. This is what one entry
preserves; putting in many is an induction on it. Where both keys begin alike, the rest of them is
separate inside the table that they share, and the claim is that of the shorter keys. -/
theorem Admits.insertDotted {after : Pairs} (h : Admits pairs names')
    (hseparate : ¬ (key :: path) <+: names') (hafter : insertDotted v key path pairs = some after) :
    Admits after names' := by
  induction path generalizing pairs after key names' with
  | nil =>
    obtain rfl : pairs ++ [(key, v)] = after := Option.some.inj hafter
    match names' with
    | [] => trivial
    | [_] => trivial
    | key' :: next' :: path' =>
      have hne : key' ≠ key := by
        rintro rfl
        exact hseparate (List.cons_prefix_cons.mpr ⟨rfl, List.nil_prefix⟩)
      rw [admits_cons_cons, lookup_append_of_ne hne]
      exact admits_cons_cons.mp h
  | cons next path ih =>
    match names' with
    | [] => trivial
    | [_] => trivial
    | key' :: next' :: path' =>
      -- Only where the keys begin alike does the entry change what the other one finds.
      rw [admits_cons_cons] at h ⊢
      obtain ⟨⟨⟩, -⟩ | ⟨_, _, ⟨⟩, ⟨hnone, inner, hinner, rfl⟩ | ⟨old, inner, hold, hinner, rfl⟩⟩ :=
        insertDotted_cases hafter
      · by_cases hkey : key' = key
        · subst hkey
          have hinside : ¬ (next :: path) <+: (next' :: path') := fun hbegins =>
            hseparate (List.cons_prefix_cons.mpr ⟨rfl, hbegins⟩)
          exact Or.inr ⟨inner, lookup_append_of_none hnone _,
            ih (admits_nil _) hinside hinner⟩
        · rwa [lookup_append_of_ne hkey]
      · by_cases hkey : key' = key
        · subst hkey
          have hinside : ¬ (next :: path) <+: (next' :: path') := fun hbegins =>
            hseparate (List.cons_prefix_cons.mpr ⟨rfl, hbegins⟩)
          have hadmits : Admits old (next' :: path') := by
            rcases h with h | ⟨inner', hinner', hadmits⟩
            · rw [hold] at h
              cases h
            · rw [hold] at hinner'
              cases hinner'
              exact hadmits
          exact Or.inr ⟨inner, lookup_replaceFirst (by simp [hold]) _, ih hadmits hinside hinner⟩
        · rwa [lookup_replaceFirst_of_ne hkey]

theorem insertAll_cons (e : Entry) (es : List Entry) (pairs : Pairs) :
    insertAll (e :: es) pairs = (insertDotted e.value e.key e.path pairs).bind (insertAll es) := rfl

/-- The last entry of an inline table is put in so, and so is what a dotted key leads to inside its
own table. -/
theorem insertAll_singleton (e : Entry) (pairs : Pairs) :
    insertAll [e] pairs = insertDotted e.value e.key e.path pairs := by
  rw [insertAll_cons]
  cases insertDotted e.value e.key e.path pairs <;> rfl

theorem insertAll_append (es es' : List Entry) (pairs : Pairs) :
    insertAll (es ++ es') pairs = (insertAll es pairs).bind (insertAll es') :=
  List.foldlM_append

/-- **Entries that are apart can be put into a table that has room for each of them.** That they are
apart keeps the room of those that are still to come. -/
theorem exists_insertAll (h : Apart es) (hroom : ∀ e ∈ es, Admits pairs e.names) :
    ∃ after, insertAll es pairs = some after := by
  induction es generalizing pairs with
  | nil => exact ⟨pairs, rfl⟩
  | cons e es ih =>
    obtain ⟨hfirst, hrest⟩ := List.pairwise_cons.mp h
    obtain ⟨hadmits, hroom⟩ := List.forall_mem_cons.mp hroom
    obtain ⟨between, hbetween⟩ := insertDotted_of_admits hadmits
    obtain ⟨after, hafter⟩ := ih hrest fun e' he' =>
      (hroom e' he').insertDotted (hfirst e' he').1 hbetween
    exact ⟨after, by rw [insertAll_cons, hbetween]; exact hafter⟩

/-- Entries that are apart make a table from nothing. Inline tables, the lines before the first
header and the lines under each header all start so. -/
theorem insertAll_eq_tableOf (h : Apart es) : insertAll es [] = some (tableOf es) := by
  obtain ⟨after, hafter⟩ := exists_insertAll h fun e _ => admits_nil e.names
  rw [tableOf, hafter]
  rfl

/-! ## What a table has -/

/-- A replaced pair keeps its key, so the pairs of every other key are the same ones. The test may
be any that fixes the key: dotted keys and headers replace by different tests. -/
theorem filter_replaceFirst_of_ne {test : String × Value → Bool} (hne : key' ≠ key)
    (htest : ∀ pair, test pair = true → pair.1 = key) (v : Value) :
    (pairs.replaceFirst test v).filter (·.1 == key') = pairs.filter (·.1 == key') := by
  induction pairs with
  | nil => rfl
  | cons pair pairs ih =>
    rw [Pairs.replaceFirst]
    split
    next hpair =>
      have hdrop : (pair.1 == key') = false := by
        rw [htest pair hpair]
        exact beq_false_of_ne hne.symm
      rw [List.filter_cons_of_neg (by simpa using hdrop),
        List.filter_cons_of_neg (by simpa using hdrop)]
    next => rw [List.filter_cons, List.filter_cons, ih]

/-- One entry, seen from one key: its value last among those of the key if it is given by that name
alone, and nothing otherwise. An entry that leads through the key is left out by `hplain`; it would
put a table there. -/
theorem filter_insertDotted {after : Pairs} (h : insertDotted v key path pairs = some after)
    (hplain : key = key' → path = []) :
    after.filter (·.1 == key') =
      pairs.filter (·.1 == key') ++ if key = key' then [(key, v)] else [] := by
  obtain ⟨-, rfl⟩ | ⟨next, more, rfl, hcases⟩ := insertDotted_cases h
  · rw [List.filter_append, List.filter_singleton]
    simp
  · have hne : key ≠ key' := fun heq => by cases hplain heq
    rw [if_neg hne, List.append_nil]
    obtain ⟨-, inner, -, rfl⟩ | ⟨old, inner, -, -, rfl⟩ := hcases
    · rw [List.filter_append, List.filter_singleton]
      simp [beq_false_of_ne hne]
    · exact filter_replaceFirst_of_ne hne.symm (fun pair hpair => by simpa using hpair) _

/-- **A key of one part has the values it is given, and no others.** This holds of keys that are
given twice as well, and in the order they stand; only what a table has of them is counted here,
whether it may is left to `nodup_insertAll`. -/
theorem filter_of_insertAll {after : Pairs} (h : insertAll es pairs = some after)
    (hplain : ∀ e ∈ es, e.key = key → e.path = []) :
    after.filter (·.1 == key) =
      pairs.filter (·.1 == key) ++ (es.filter (·.key == key)).map Entry.pair := by
  induction es generalizing pairs with
  | nil =>
    obtain rfl : pairs = after := Option.some.inj h
    simp
  | cons e es ih =>
    obtain ⟨hfirst, hrest⟩ := List.forall_mem_cons.mp hplain
    rw [insertAll_cons] at h
    obtain ⟨between, hbetween, h⟩ := Option.bind_eq_some_iff.mp h
    rw [ih h hrest, filter_insertDotted hbetween hfirst, List.append_assoc]
    -- The first entry counts if it has the key; its value stands before those of the others.
    by_cases heq : e.key = key
    · simp [heq, Entry.pair]
    · simp [heq]

/-! ## Where the pairs come from -/

theorem mem_replaceFirst {test : String × Value → Bool} {pair : String × Value}
    (h : pair ∈ pairs.replaceFirst test v) : pair ∈ pairs ∨ pair.2 = v := by
  induction pairs with
  | nil => cases h
  | cons first pairs ih =>
    rw [Pairs.replaceFirst] at h
    split at h
    · rcases List.mem_cons.mp h with rfl | h
      · exact Or.inr rfl
      · exact Or.inl (List.mem_cons_of_mem _ h)
    · rcases List.mem_cons.mp h with rfl | h
      · exact Or.inl List.mem_cons_self
      · rcases ih h with h | h
        · exact Or.inl (List.mem_cons_of_mem _ h)
        · exact Or.inr h

/-- Where a pair of the table afterwards comes from: it was there, it is the entry's own, or it
holds a table that dotted keys made. -/
theorem mem_insertDotted {after : Pairs} {pair : String × Value}
    (h : insertDotted v key path pairs = some after) (hpair : pair ∈ after) :
    pair ∈ pairs ∨ pair = (key, v) ∨ ∃ inner, pair.2 = .table .dotted inner := by
  obtain ⟨-, rfl⟩ | ⟨next, more, rfl, ⟨-, inner, -, rfl⟩ | ⟨old, inner, -, -, rfl⟩⟩ :=
    insertDotted_cases h
  · rcases List.mem_append.mp hpair with hpair | hpair
    · exact Or.inl hpair
    · exact Or.inr (Or.inl (List.mem_singleton.mp hpair))
  · rcases List.mem_append.mp hpair with hpair | hpair
    · exact Or.inl hpair
    · rw [List.mem_singleton.mp hpair]
      exact Or.inr (Or.inr ⟨inner, rfl⟩)
  · rcases mem_replaceFirst hpair with hpair | hpair
    · exact Or.inl hpair
    · exact Or.inr (Or.inr ⟨inner, hpair⟩)

/-- A table has what entries give it, and the tables that dotted keys make. Whatever is true of the
values of the entries and of such tables is so true of all the table holds. -/
theorem mem_insertAll {after : Pairs} {pair : String × Value} (h : insertAll es pairs = some after)
    (hpair : pair ∈ after) :
    pair ∈ pairs ∨ (∃ e ∈ es, e.pair = pair) ∨ ∃ inner, pair.2 = .table .dotted inner := by
  induction es generalizing pairs with
  | nil =>
    cases h
    exact Or.inl hpair
  | cons e es ih =>
    rw [insertAll_cons] at h
    obtain ⟨between, hbetween, h⟩ := Option.bind_eq_some_iff.mp h
    rcases ih h with hpair | ⟨e', he', hpair⟩ | hpair
    · rcases mem_insertDotted hbetween hpair with hpair | hpair | hpair
      · exact Or.inl hpair
      · exact Or.inr (Or.inl ⟨e, List.mem_cons_self, hpair.symm⟩)
      · exact Or.inr (Or.inr hpair)
    · exact Or.inr (Or.inl ⟨e', List.mem_cons_of_mem _ he', hpair⟩)
    · exact Or.inr (Or.inr hpair)

/-- The same of a table that is made from nothing. -/
theorem mem_tableOf {pair : String × Value} (h : Apart es) (hpair : pair ∈ tableOf es) :
    (∃ e ∈ es, e.pair = pair) ∨ ∃ inner, pair.2 = .table .dotted inner := by
  rcases mem_insertAll (insertAll_eq_tableOf h) hpair with hpair | hpair
  · cases hpair
  · exact hpair

/-! ## Each key once -/

theorem keys_replaceFirst (test : String × Value → Bool) (v : Value) (pairs : Pairs) :
    (pairs.replaceFirst test v).map Prod.fst = pairs.map Prod.fst := by
  induction pairs with
  | nil => rfl
  | cons pair pairs ih =>
    rw [Pairs.replaceFirst]
    split
    · rfl
    · rw [List.map_cons, List.map_cons, ih]

theorem lookup_eq_none_iff_notMem : pairs.lookup key = none ↔ key ∉ pairs.map Prod.fst := by
  rw [List.lookup_eq_none_iff]
  simp only [bne_iff_ne, List.mem_map, not_exists, not_and]
  constructor
  · intro h pair hpair heq
    exact h pair hpair heq.symm
  · intro h pair hpair heq
    exact h pair hpair heq.symm

/-- An entry gives a table the first part of its key, unless that is there. A key of one part is
added without looking, so for it nothing is said about the keys before. -/
theorem keys_insertDotted {after : Pairs} (h : insertDotted v key path pairs = some after) :
    after.map Prod.fst = pairs.map Prod.fst ++ [key] ∧ (path = [] ∨ key ∉ pairs.map Prod.fst) ∨
      after.map Prod.fst = pairs.map Prod.fst := by
  obtain ⟨rfl, rfl⟩ | ⟨next, more, rfl, ⟨hnone, inner, -, rfl⟩ | ⟨old, inner, -, -, rfl⟩⟩ :=
    insertDotted_cases h
  · exact Or.inl ⟨by simp, Or.inl rfl⟩
  · exact Or.inl ⟨by simp, Or.inr (lookup_eq_none_iff_notMem.mp hnone)⟩
  · exact Or.inr (keys_replaceFirst _ _ _)

/-- **Entries that are apart give each key once.** Only keys of one part have to be new to the table
that is added to: longer ones go into a table that is there already. -/
theorem nodup_insertAll {after : Pairs} (hapart : Apart es) (h : insertAll es pairs = some after)
    (hpairs : (pairs.map Prod.fst).Nodup)
    (hnew : ∀ e ∈ es, e.path = [] → e.key ∉ pairs.map Prod.fst) :
    (after.map Prod.fst).Nodup := by
  induction es generalizing pairs with
  | nil =>
    cases h
    exact hpairs
  | cons e es ih =>
    obtain ⟨hfirst, hrest⟩ := List.pairwise_cons.mp hapart
    obtain ⟨hnewFirst, hnewRest⟩ := List.forall_mem_cons.mp hnew
    rw [insertAll_cons] at h
    obtain ⟨between, hbetween, h⟩ := Option.bind_eq_some_iff.mp h
    obtain ⟨hkeys, hkey⟩ | hkeys := keys_insertDotted hbetween
    · have hnot : e.key ∉ pairs.map Prod.fst := hkey.elim hnewFirst id
      apply ih hrest h
      · rw [hkeys, ← List.concat_eq_append]
        exact hpairs.concat hnot
      · intro e' he' hpath hmem
        rw [hkeys, List.mem_append, List.mem_singleton] at hmem
        rcases hmem with hmem | heq
        · exact hnewRest e' he' hpath hmem
        · -- A key of one part leads around whatever begins with it.
          apply (hfirst e' he').2
          rw [Entry.names, Entry.names, hpath, heq]
          exact ⟨e.path, rfl⟩
    · apply ih hrest h
      · rwa [hkeys]
      · rwa [hkeys]

/-- A table made from nothing has each key once. Of an inline table this is known for good, as
nothing can be added to it later. -/
theorem nodup_tableOf (h : Apart es) : ((tableOf es).map Prod.fst).Nodup :=
  nodup_insertAll h (insertAll_eq_tableOf h) List.nodup_nil (by intro e he hpath hmem; cases hmem)

/-- Where each key is there once, all pairs of a key are what a look-up finds. A section says what
it gives by all pairs of a key, an inline table by looking it up. -/
theorem filter_of_nodup (h : (pairs.map Prod.fst).Nodup) (key : String) :
    pairs.filter (·.1 == key) = (pairs.lookup key).toList.map (Prod.mk key) := by
  induction pairs with
  | nil => rfl
  | cons pair pairs ih =>
    obtain ⟨name, v⟩ := pair
    obtain ⟨hnot, hrest⟩ := List.nodup_cons.mp h
    by_cases hname : name = key
    · subst hname
      have hnone : pairs.filter (·.1 == name) = [] := by
        rw [ih hrest, lookup_eq_none_iff_notMem.mpr hnot]
        rfl
      simp [hnone]
    · rw [List.filter_cons_of_neg (by simpa using hname), ih hrest, List.lookup_cons,
        beq_false_of_ne (Ne.symm hname)]

end

end Toml
end Beamline
