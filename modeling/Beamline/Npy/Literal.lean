import Beamline.Binary64.Shortest
import Beamline.Binary64.Literal

/-!
# Header literals — the value language of array headers

An array file describes itself by one written value. Only a dictionary with three keys is ever
useful, but the header is read as *any* literal first, because a header that is a wrong value is
reported by writing that value back. So the module is a value type, its reader and its writer.

The reader's blanks are space, tab and form feed. A line end is none of them: it may stand in a
header only where a backslash before it takes it out of a quoted text.

A number is a sum (`4-2`, `--2`), since a complex number is only written as a sum. Every term is
added to zero or taken from it, the first one too, so no part of a number is a negative zero.
-/

set_option autoImplicit false

namespace Beamline
namespace Npy

/-- A value that a header may be written as. -/
inductive Literal where
  | string (chars : List Char)
  | bytes (content : List UInt8)
  | integer (value : Int)
  | float (value : Binary64)
  | complex (re im : Binary64)
  | tuple (items : List Literal)
  | list (items : List Literal)
  | dict (entries : List (Literal × Literal))
  | set (items : List Literal)
  | boolean (value : Bool)
  | none
deriving Inhabited

namespace Literal

/-! ## Writing -/

/-- Lower-case hexadecimal digits, padded to a width. -/
def hex (width n : Nat) : String :=
  let digits := Nat.toDigits 16 n
  "".pushn '0' (width - digits.length) ++ String.ofList digits

/-- A character inside quotes: four are escaped, and whatever is not ASCII by its code point. -/
def charText (c : Char) : String :=
  if c = '\\' then "\\\\"
  else if c = '\r' then "\\r"
  else if c = '\n' then "\\n"
  else if c = '\'' then "\\'"
  else if c.toNat < 0x80 then String.ofList [c]
  else if c.toNat < 0x100 then "\\x" ++ hex 2 c.toNat
  else if c.toNat < 0x10000 then "\\u" ++ hex 4 c.toNat
  else "\\U" ++ hex 8 c.toNat

def charsText (cs : List Char) : String := String.join (cs.map charText)

/-- An imaginary part: its sign always shows, unless it is no number. -/
def imaginaryText : Binary64 → String
  | .nan => Binary64.nan.text
  | x => if x.text.startsWith "-" then x.text else "+" ++ x.text

mutual

/-- The literal as it is written back. Floating point numbers always show an exponent, so they are
never mistaken for integers; the parts of a complex number need none. A tuple of one keeps its
comma. -/
def text : Literal → String
  | string cs => "'" ++ charsText cs ++ "'"
  | bytes bs => "b'" ++ charsText (bs.map fun b => Char.ofNat b.toNat) ++ "'"
  | integer i => toString i
  | float x => x.scientificText
  | complex re im => re.text ++ imaginaryText im ++ "j"
  | tuple [] => "()"
  | tuple [x] => "(" ++ x.text ++ ",)"
  | tuple (x :: xs) => "(" ++ x.text ++ itemsText xs ++ ")"
  | list [] => "[]"
  | list (x :: xs) => "[" ++ x.text ++ itemsText xs ++ "]"
  | dict [] => "\x7b\x7d"
  | dict ((k, v) :: rest) => "\x7b" ++ k.text ++ ": " ++ v.text ++ entriesText rest ++ "\x7d"
  | set [] => "\x7b\x7d"
  | set (x :: xs) => "\x7b" ++ x.text ++ itemsText xs ++ "\x7d"
  | boolean true => "True"
  | boolean false => "False"
  | none => "None"

/-- Further items, each after a comma. -/
def itemsText : List Literal → String
  | [] => ""
  | x :: xs => ", " ++ x.text ++ itemsText xs

/-- Further dictionary entries, each after a comma. -/
def entriesText : List (Literal × Literal) → String
  | [] => ""
  | (k, v) :: rest => ", " ++ k.text ++ ": " ++ v.text ++ entriesText rest

end

/-! ## Quoted text -/

/-- Exactly `width` hexadecimal digits and what follows them. -/
def takeHex (width : Nat) (cs : List Char) : Option (Nat × List Char) :=
  let digits := cs.take width
  if digits.length = width ∧ digits.all (Text.isDigit 16) then
    some (Text.numberOf 16 digits, cs.drop width)
  else Option.none

/-- One to three octal digits and what follows them. -/
def takeOctal (cs : List Char) : Nat × List Char :=
  let digits := (cs.take 3).takeWhile (Text.isDigit 8)
  (Text.numberOf 8 digits, cs.drop digits.length)

/-- The character of a code point, if there is one. -/
def char? (n : Nat) : Option Char :=
  if n.isValidChar then some (Char.ofNat n) else Option.none

def simpleEscape? : Char → Option Char
  | '\\' => some '\\'
  | '\'' => some '\''
  | '"' => some '"'
  | 'a' => some '\x07'
  | 'b' => some '\x08'
  | 'f' => some '\x0c'
  | 'n' => some '\n'
  | 'r' => some '\r'
  | 't' => some '\t'
  | 'v' => some '\x0b'
  | _ => Option.none

/-- The code point that a letter and the hexadecimal digits after it give, and what follows them. Of
the three letters bytes know one. -/
def codePoint? (inBytes : Bool) (letter : Char) (cs : List Char) : Option (Nat × List Char) :=
  match inBytes, letter with
  | _, 'x' => takeHex 2 cs
  | false, 'u' => takeHex 4 cs
  | false, 'U' => takeHex 8 cs
  | _, _ => Option.none

/-- Whether a character is given by its name, in braces after an `N`. -/
def isNamed (letter : Char) (cs : List Char) : Bool :=
  letter == 'N' && cs.head? == some '\x7b' && cs.contains '\x7d'

/-- What a backslash and the text after it stand for, and the rest. Before a line end it joins
lines. Before anything that it gives no meaning to it stays, an unfinished code point too; but a
code point that is no character, and a character by its name, are refused. -/
def escape (inBytes : Bool) : List Char → Option (List Char × List Char)
  | [] => Option.none
  | '\r' :: '\n' :: cs => some ([], cs)
  | '\r' :: cs => some ([], cs)
  | '\n' :: cs => some ([], cs)
  | c :: cs =>
    match simpleEscape? c, codePoint? inBytes c cs with
    | some e, _ => some ([e], cs)
    | _, some (n, rest) => (char? n).map fun e => ([e], rest)
    | _, _ =>
      if Text.isDigit 8 c then
        let (n, rest) := takeOctal (c :: cs)
        if inBytes && 256 ≤ n then Option.none
        else (char? n).map fun e => ([e], rest)
      else if inBytes then
        if c.toNat < 0x80 then some (['\\', c], cs) else Option.none
      else if isNamed c cs then Option.none
      else some (['\\', c], cs)

/-- Text up to the closing quote, and what follows it. -/
def quoted (inBytes : Bool) (quote : Char) : Nat → List Char → Option (List Char × List Char)
  | 0, _ => Option.none
  | _ + 1, [] => Option.none
  | fuel + 1, c :: cs =>
    if c = quote then some ([], cs)
    else if c = '\\' then
      (escape inBytes cs).bind fun (e, rest) =>
        (quoted inBytes quote fuel rest).map fun (more, rest) => (e ++ more, rest)
    else if c = '\n' ∨ c = '\r' then Option.none
    else if inBytes ∧ 0x80 ≤ c.toNat then Option.none
    else (quoted inBytes quote fuel cs).map fun (more, rest) => (c :: more, rest)

/-! ## Numbers -/

/-- Digits of a base, each after at most one underscore, and what follows them. -/
def takeDigits (base : Nat) : List Char → List Char × List Char
  | [] => ([], [])
  | '_' :: c :: cs =>
    if Text.isDigit base c then
      let (ds, rest) := takeDigits base cs
      (c :: ds, rest)
    else ([], '_' :: c :: cs)
  | c :: cs =>
    if Text.isDigit base c then
      let (ds, rest) := takeDigits base cs
      (c :: ds, rest)
    else ([], c :: cs)

/-- Decimal digits that do not start with an underscore, and what follows them. -/
def digits : List Char → List Char × List Char
  | '_' :: cs => ([], '_' :: cs)
  | cs => takeDigits 10 cs

/-- An exponent of a floating point number: sign and digits. -/
def takeExponent : List Char → Option (List Char × List Char)
  | c :: cs =>
    if c = 'e' ∨ c = 'E' then
      let (sign, cs) :=
        match cs with
        | '+' :: cs => ([], cs)
        | '-' :: cs => (['-'], cs)
        | cs => (([] : List Char), cs)
      match digits cs with
      | ([], _) => Option.none
      | (ds, rest) => some ('e' :: sign ++ ds, rest)
    else Option.none
  | [] => Option.none

/-- A floating point number: with a point, an exponent, or both. -/
def float? (cs : List Char) : Option (Binary64 × List Char) :=
  let (whole, rest) := digits cs
  let (point, fraction, rest) :=
    match rest with
    | '.' :: more =>
      let (fraction, after) := digits more
      (true, fraction, after)
    | _ => (false, [], rest)
  if whole.isEmpty && fraction.isEmpty then Option.none
  else
    match takeExponent rest with
    | some (exponent, rest) =>
      (Binary64.parse? (whole ++ '.' :: fraction ++ exponent)).map (·, rest)
    | Option.none =>
      if point then (Binary64.parse? (whole ++ '.' :: fraction)).map (·, rest) else Option.none

/-- Digits of a base after a prefix such as `0x`, where one underscore may come first. -/
def basedInteger (base : Nat) (cs : List Char) : Option (Nat × List Char) :=
  match takeDigits base cs with
  | ([], _) => Option.none
  | (ds, rest) => some (Text.numberOf base ds, rest)

/-- A decimal integer; leading zeros do not matter. -/
def decimalInteger (cs : List Char) : Option (Nat × List Char) :=
  match digits cs with
  | ([], _) => Option.none
  | (ds, rest) => some (Text.numberOf 10 ds, rest)

def integer? (cs : List Char) : Option (Nat × List Char) :=
  let based : Option (Nat × List Char) :=
    match cs with
    | '0' :: c :: rest =>
      if c = 'x' ∨ c = 'X' then basedInteger 16 rest
      else if c = 'o' ∨ c = 'O' then basedInteger 8 rest
      else if c = 'b' ∨ c = 'B' then basedInteger 2 rest
      else Option.none
    | _ => Option.none
  based <|> decimalInteger cs

/-- A number with the letter of the imaginary unit after it. -/
def imaginary? (cs : List Char) : Option (Binary64 × List Char) :=
  let whole := fun (_ : Unit) =>
    match digits cs with
    | ([], _) => Option.none
    | (ds, rest) => (Binary64.parse? ds).map (·, rest)
  match (float? cs).orElse whole with
  | some (x, c :: rest) => if c = 'j' ∨ c = 'J' then some (x, rest) else Option.none
  | _ => Option.none

def number? (cs : List Char) : Option (Literal × List Char) :=
  match imaginary? cs with
  | some (x, rest) => some (complex (Binary64.zero .plus) x, rest)
  | Option.none =>
    match float? cs with
    | some (x, rest) => some (float x, rest)
    | Option.none => (integer? cs).map fun (n, rest) => (integer n, rest)

def real : Literal → Binary64
  | integer i => Binary64.ofInt i
  | float x => x
  | complex re _ => re
  | _ => Binary64.zero .plus

/-- Two numbers put together, in the wider of their kinds. -/
def combine (integers : Int → Int → Int) (parts : Binary64 → Binary64 → Binary64) :
    Literal → Literal → Literal
  | integer a, integer b => integer (integers a b)
  | complex re im, complex re' im' => complex (parts re re') (parts im im')
  | complex re im, b => complex (parts re b.real) im
  | a, complex re im => complex (parts a.real re) (parts (Binary64.zero .plus) im)
  | a, b => float (parts a.real b.real)

/-! ## Reading -/

def isBlank (c : Char) : Bool := c == ' ' || c == '\t' || c == '\x0c'

def skip (cs : List Char) : List Char := cs.dropWhile isBlank

/-- Leading signs: whether they make a minus, whether there are any, and what follows. -/
def signs : List Char → Bool × Bool × List Char
  | [] => (false, false, [])
  | c :: cs =>
    if isBlank c then signs cs
    else if c = '+' then
      let (minus, _, rest) := signs cs
      (minus, true, rest)
    else if c = '-' then
      let (minus, _, rest) := signs cs
      (! minus, true, rest)
    else (false, false, c :: cs)

/-- A total and one more term: a number with its signs. -/
def term (total : Literal) (cs : List Char) : Option (Literal × List Char) :=
  let (minus, _, rest) := signs cs
  (number? rest).map fun (x, rest) =>
    (if minus then combine (· - ·) (· - ·) total x else combine (· + ·) (· + ·) total x, rest)

/-- Further terms of a sum; a sign that no number follows is left alone. -/
def terms (total : Literal) : Nat → List Char → Literal × List Char
  | 0, cs => (total, cs)
  | fuel + 1, cs =>
    if (signs cs).2.1 then
      match term total cs with
      | some (next, rest) => terms next fuel rest
      | Option.none => (total, cs)
    else (total, cs)

def sum (cs : List Char) : Option (Literal × List Char) :=
  (term (integer 0) cs).map fun (x, rest) => terms x rest.length rest

/-- Drops a word from the front. -/
def keyword? (word : String) (cs : List Char) : Option (List Char) :=
  if word.toList.isPrefixOf cs then some (cs.drop word.length) else Option.none

mutual

/-- One literal and what follows it. -/
def value : Nat → List Char → Option (Literal × List Char)
  | 0, _ => Option.none
  | fuel + 1, cs =>
    match cs with
    | '\'' :: rest => (quoted false '\'' (rest.length + 1) rest).map fun (t, r) => (string t, r)
    | '"' :: rest => (quoted false '"' (rest.length + 1) rest).map fun (t, r) => (string t, r)
    | '(' :: rest =>
      match items fuel ')' (skip rest) with
      | some ([_], false, _) => Option.none
      | some (xs, _, r) => some (tuple xs, r)
      | Option.none => Option.none
    | '[' :: rest => (items fuel ']' (skip rest)).map fun (xs, _, r) => (list xs, r)
    | '\x7b' :: rest =>
      match entries fuel (skip rest) with
      | some (es, r) => some (dict es, r)
      | Option.none => (items fuel '\x7d' (skip rest)).map fun (xs, _, r) => (set xs, r)
    | c :: quote :: rest =>
      if (c = 'b' ∨ c = 'B') ∧ (quote = '\'' ∨ quote = '"') then
        (quoted true quote (rest.length + 1) rest).map fun (t, r) =>
          (bytes (t.map fun c => UInt8.ofNat c.toNat), r)
      else
        match keyword? "True" cs, keyword? "False" cs, keyword? "None" cs with
        | some r, _, _ => some (boolean true, r)
        | _, some r, _ => some (boolean false, r)
        | _, _, some r => some (none, r)
        | _, _, _ => sum cs
    | _ => sum cs

/-- Items up to a closing bracket, whether a comma stood before it, and what follows it. -/
def items : Nat → Char → List Char → Option (List Literal × Bool × List Char)
  | 0, _, _ => Option.none
  | fuel + 1, close, cs =>
    match cs with
    | [] => Option.none
    | c :: rest =>
      if c = close then some ([], false, rest)
      else
        (value fuel (c :: rest)).bind fun (x, rest) =>
          match skip rest with
          | [] => Option.none
          | c :: rest =>
            if c = close then some ([x], false, rest)
            else if c = ',' then
              match items fuel close (skip rest) with
              | some ([], _, rest) => some ([x], true, rest)
              | some (xs, comma, rest) => some (x :: xs, comma, rest)
              | Option.none => Option.none
            else Option.none

/-- Dictionary entries up to the closing brace and what follows it. -/
def entries : Nat → List Char → Option (List (Literal × Literal) × List Char)
  | 0, _ => Option.none
  | fuel + 1, cs =>
    match cs with
    | [] => Option.none
    | c :: rest =>
      if c = '\x7d' then some ([], rest)
      else
        (value fuel (c :: rest)).bind fun (k, rest) =>
          match skip rest with
          | ':' :: rest =>
            (value fuel (skip rest)).bind fun (v, rest) =>
              match skip rest with
              | '\x7d' :: rest => some ([(k, v)], rest)
              | ',' :: rest =>
                (entries fuel (skip rest)).map fun (es, rest) => ((k, v) :: es, rest)
              | _ => Option.none
          | _ => Option.none

end

/-- The literal that a whole text is, blanks around it aside. -/
def parse? (cs : List Char) : Option Literal :=
  match value (cs.length + 1) (skip cs) with
  | some (x, rest) => if (skip rest).isEmpty then some x else Option.none
  | Option.none => Option.none

end Literal
end Npy
end Beamline
