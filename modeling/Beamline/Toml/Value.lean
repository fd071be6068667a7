import Beamline.Binary64.Literal
import Beamline.Toml.Token

/-!
# Values — what a key can be given

Values are read from tokens. Strings and truth values are single tokens, but a number may be several
(`1.5e+3` is a word, a point, a word, a plus sign and a word), and so may a date. Dates are only
skipped over: nothing in the settings is a date, and none is looked into.

A table remembers how it came to be, since that decides who may still add to it: dotted keys extend
only tables made by dotted keys, and headers only what headers made.
-/

set_option autoImplicit false

namespace Beamline
namespace Toml

/-! ## Types -/

/-- How a table came to be. -/
inductive Origin where
  /-- Written in braces. -/
  | braces
  /-- Made by a dotted key. -/
  | dotted
  /-- Passed through by a header. -/
  | passed
  /-- Opened by a header of its own. -/
  | header
deriving DecidableEq, Repr

inductive Value where
  | string (text : String)
  | integer (value : Int)
  | float (value : Binary64)
  | boolean (value : Bool)
  | date
  | array (items : List Value)
  | table (origin : Origin) (pairs : List (String × Value))
  /-- An array whose tables are opened by headers. -/
  | tables (elements : List (List (String × Value)))
deriving Inhabited

/-- Keys and values in the order they are given. A key may occur twice. -/
abbrev Pairs := List (String × Value)

/-- Gives the first pair that passes a test another value. -/
def Pairs.replaceFirst (test : String × Value → Bool) (v : Value) : Pairs → Pairs
  | [] => []
  | pair :: pairs => if test pair then (pair.1, v) :: pairs else pair :: replaceFirst test v pairs

/-! ## Numbers -/

/-- Whether underscores stand between digits only; the flag says whether a digit stands before. -/
def underscoresInside : Bool → List Char → Bool
  | afterDigit, [] => afterDigit
  | afterDigit, c :: cs =>
    if c = '_' then afterDigit && underscoresInside false cs else underscoresInside true cs

/-- Digits of a base at the front, without their underscores, and what follows them. -/
def digits? (base : Nat) (leadingZeros : Bool) (cs : List Char) : Option (List Char × List Char) :=
  let run := cs.takeWhile fun c => Text.isDigit base c || c == '_'
  let digits := run.filter (Text.isDigit base)
  if underscoresInside false run && (leadingZeros || digits.length == 1 || digits.head? != some '0')
  then some (digits, cs.drop run.length)
  else none

def minus : List Char → Sign × List Char
  | '-' :: cs => (.minus, cs)
  | cs => (.plus, cs)

def inRange (i : Int) : Option Int := if -2 ^ 63 ≤ i ∧ i < 2 ^ 63 then some i else none

/-- A whole word as an unsigned integer in a base other than ten. -/
def basedInteger? (base : Nat) (cs : List Char) : Option Value :=
  match digits? base true cs with
  | some (digits, []) => (inRange (Text.numberOf base digits)).map .integer
  | _ => none

def integer? (cs : List Char) : Option Value :=
  let (sign, body) := minus cs
  match digits? 10 false body with
  | some (digits, []) => (inRange (sign.apply (Text.numberOf 10 digits))).map .integer
  | _ => none

/-- A decimal number; it must be finite. -/
def decimal? (sign : Sign) (whole fraction : List Char) (exponent : Int) : Option Value :=
  let x :=
    Binary64.ofDecimal sign (Text.numberOf 10 (whole ++ fraction)) (exponent - fraction.length)
  if x.isFinite then some (.float x) else none

/-- The exponent that ends a number: in the same word, or in the word after a plus sign. -/
def exponent? (suffix : List Char) (ts : List Token) : Option (Int × List Token) :=
  match suffix with
  | [] => some (0, ts)
  | e :: cs =>
    if e ≠ 'e' ∧ e ≠ 'E' then none
    else if cs.isEmpty then
      let unsigned (cs : List Char) (ts : List Token) : Option (Int × List Token) :=
        match digits? 10 true cs with
        | some (digits, []) => some ((Text.numberOf 10 digits : Int), ts)
        | _ => none
      match ts with
      | .mark '+' :: .word cs :: ts => unsigned cs ts
      | .word cs :: ts => unsigned cs ts
      | _ => none
    else
      let (sign, body) := minus cs
      match digits? 10 true body with
      | some (digits, []) => some (sign.apply (Text.numberOf 10 digits), ts)
      | _ => none

def exponential? (cs : List Char) (ts : List Token) : Option (Value × List Token) := do
  let (sign, body) := minus cs
  let (whole, suffix) ← digits? 10 false body
  let (exponent, ts) ← exponent? suffix ts
  return (← decimal? sign whole [] exponent, ts)

/-- A number with a point: the word before it and the word after it. -/
def fractional? (cs after : List Char) (ts : List Token) : Option (Value × List Token) := do
  let (sign, body) := minus cs
  let (whole, suffix) ← digits? 10 false body
  if ! suffix.isEmpty then none
  let (fraction, suffix) ← digits? 10 true after
  let (exponent, ts) ← exponent? suffix ts
  return (← decimal? sign whole fraction exponent, ts)

/-- The numbers that are written as words, with a sign or without. -/
def special? (cs : List Char) : Option Value :=
  let (sign, body) := minus cs
  if body = "inf".toList then some (.float (.infinite sign))
  else if body = "nan".toList then some (.float .nan)
  else none

/-- The number that a word begins, and what follows it. -/
def number? (cs : List Char) (ts : List Token) : Option (Value × List Token) :=
  match cs with
  | '0' :: 'x' :: rest => (basedInteger? 16 rest).map (·, ts)
  | '0' :: 'o' :: rest => (basedInteger? 8 rest).map (·, ts)
  | '0' :: 'b' :: rest => (basedInteger? 2 rest).map (·, ts)
  | _ =>
    if cs.contains 'e' || cs.contains 'E' then exponential? cs ts
    else
      match ts with
      | .mark '.' :: ts =>
        match ts with
        | .word after :: ts => fractional? cs after ts
        | _ => none
      | _ =>
        match special? cs with
        | some v => some (v, ts)
        | none => (integer? cs).map (·, ts)

/-! ## Dates -/

/-- Whether one string stands inside another. -/
def containsRun (run : List Char) : List Char → Bool
  | [] => run.isEmpty
  | c :: cs => run.isPrefixOf (c :: cs) || containsRun run cs

/-- Whether a word looks like a date: it names a time, or has a minus sign inside that no exponent
explains. -/
def looksLikeDate (cs : List Char) : Bool :=
  cs.contains 'T' || cs.contains 't' ||
    ((cs.drop 1).contains '-' && ! containsRun ['e', '-'] cs && ! containsRun ['E', '-'] cs)

/-- Drops a mark and the word after it, if the mark is next; the word must then be there. -/
def dropPart (m : Char) (ts : List Token) : Option (List Token) :=
  match ts with
  | .mark c :: rest =>
    if c = m then
      match rest with
      | .word _ :: rest => some rest
      | _ => none
    else some ts
  | _ => some ts

/-- Drops the minutes and whatever follows them: seconds, fraction and offset. -/
def dropTime : List Token → Option (List Token)
  | .word _ :: .mark ':' :: .word _ :: ts => do
    dropPart ':' (← dropPart '+' (← dropPart '.' ts))
  | _ => none

/-- Drops the rest of a date after its first word. A time may follow after one space. -/
def dropDate (colonSeen : Bool) (ts : List Token) : Option (List Token) :=
  let ts :=
    match ts with
    | .blank [' '] :: .word _ :: rest => rest
    | _ => ts
  if colonSeen then dropTime ts
  else
    match ts with
    | .mark ':' :: ts => dropTime ts
    | _ => some ts

/-! ## Scalars -/

/-- The value that a bare word begins, and what follows it. -/
def wordValue? (cs : List Char) (ts : List Token) : Option (Value × List Token) :=
  if cs = "true".toList then some (.boolean true, ts)
  else if cs = "false".toList then some (.boolean false, ts)
  else if cs = "inf".toList || cs = "nan".toList || cs.head? = some '-' ||
      cs.head?.any (Text.isDigit 10) then
    if looksLikeDate cs then (dropDate false ts).map (.date, ·)
    else
      match ts with
      | .mark ':' :: ts => (dropDate true ts).map (.date, ·)
      | _ => number? cs ts
  else none

/-! ## Keys -/

/-- A key: a word or a string on one line. -/
def key? : List Token → Option (String × List Token)
  | .word cs :: ts => some (String.ofList cs, ts)
  | .text cs false :: ts => some (String.ofList cs, ts)
  | _ => none

def skipBlank : List Token → List Token
  | .blank _ :: ts => ts
  | ts => ts

mutual

/-- Further parts of a dotted key, after a part. -/
def keyRest : List Token → Option (List String × List Token)
  | .blank _ :: ts => keyRest ts
  | .mark '.' :: ts => keyPart ts
  | ts => some ([], ts)

/-- Further parts of a dotted key, after a point. -/
def keyPart : List Token → Option (List String × List Token)
  | .blank _ :: ts => keyPart ts
  | .word cs :: ts => (keyRest ts).map fun (parts, ts) => (String.ofList cs :: parts, ts)
  | .text cs false :: ts => (keyRest ts).map fun (parts, ts) => (String.ofList cs :: parts, ts)
  | _ => none

end

/-- A dotted key and what follows it, blanks skipped. -/
def path? (ts : List Token) : Option ((String × List String) × List Token) := do
  let (first, ts) ← key? ts
  let (rest, ts) ← keyRest ts
  return ((first, rest), ts)

/-- Puts a value under a dotted key. Only tables that dotted keys made can be added to. -/
def insertDotted (v : Value) : String → List String → Pairs → Option Pairs
  | key, [], pairs => some (pairs ++ [(key, v)])
  | key, next :: path, pairs =>
    match pairs.lookup key with
    | none => (insertDotted v next path []).map fun inner => pairs ++ [(key, .table .dotted inner)]
    | some (.table .dotted inner) =>
      (insertDotted v next path inner).map fun inner =>
        pairs.replaceFirst (fun pair => pair.1 == key) (.table .dotted inner)
    | some _ => none

/-! ## Values with parts -/

/-- Whether a token only lays out the items of an array. -/
def isLayout : Token → Bool
  | .newline | .blank _ | .comment => true
  | _ => false

def skipLayout (ts : List Token) : List Token := ts.dropWhile isLayout

/-- The equals sign after a key, blanks skipped after it. -/
def equals? : List Token → Option (List Token)
  | .mark '=' :: ts => some (skipBlank ts)
  | _ => none

mutual

def value? : Nat → List Token → Option (Value × List Token)
  | 0, _ => none
  | fuel + 1, ts =>
    match ts with
    | .text cs _ :: ts => some (.string (String.ofList cs), ts)
    | .word cs :: ts => wordValue? cs ts
    | .mark '+' :: .word cs :: ts => number? cs ts
    | .mark '[' :: ts => (items? fuel ts).map fun (xs, ts) => (.array xs, ts)
    | .mark '\x7b' :: ts =>
      match skipBlank ts with
      | .mark '\x7d' :: ts => some (.table .braces [], ts)
      | ts => (pairs? fuel [] ts).map fun (ps, ts) => (.table .braces ps, ts)
    | _ => none

/-- The items of an array, up to its closing bracket. -/
def items? : Nat → List Token → Option (List Value × List Token)
  | 0, _ => none
  | fuel + 1, ts =>
    match skipLayout ts with
    | .mark ']' :: ts => some ([], ts)
    | ts =>
      match value? fuel ts with
      | none => none
      | some (x, ts) =>
        match skipLayout ts with
        | .mark ']' :: ts => some ([x], ts)
        | .mark ',' :: ts => (items? fuel ts).map fun (xs, ts) => (x :: xs, ts)
        | _ => none

/-- The pairs of a table in braces, up to the closing one; some pairs are already there. -/
def pairs? : Nat → Pairs → List Token → Option (Pairs × List Token)
  | 0, _, _ => none
  | fuel + 1, done, ts =>
    match path? ts with
    | none => none
    | some ((key, path), ts) =>
      match (equals? ts).bind (value? fuel) with
      | none => none
      | some (v, ts) =>
        match insertDotted v key path done with
        | none => none
        | some done =>
          match skipBlank ts with
          | .mark '\x7d' :: ts => some (done, ts)
          | .mark ',' :: ts => pairs? fuel done (skipBlank ts)
          | _ => none

end

end Toml
end Beamline
