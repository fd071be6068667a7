import Beamline.Text.Digit

/-!
# Tokens — the words of a settings file

A settings file is split into tokens before any of it is understood. That is sound because the split
does not depend on context: a comment runs to the end of its line, a string to its closing quotes,
and a run of key characters is one word wherever it stands. So a character that can begin no token
makes the whole file unreadable, no matter where it is.

The scanner is a fold over characters, and everything it has to remember is its `Mode`. A carriage
return before a line feed is dropped beforehand; any other one is a character like the rest, and
allowed nowhere.
-/

set_option autoImplicit false

namespace Beamline
namespace Toml

/-! ## Tokens -/

inductive Token where
  | newline
  /-- A run of spaces and tabs. -/
  | blank (chars : List Char)
  | comment
  /-- One of the characters that are tokens by themselves. -/
  | mark (c : Char)
  /-- A run of key characters: a bare key, a number, a truth value. -/
  | word (chars : List Char)
  /-- A string, with its escapes resolved. -/
  | text (chars : List Char) (multiline : Bool)
deriving DecidableEq, Repr

/-- The characters that are tokens by themselves. -/
def marks : List Char := ['=', '.', ',', ':', '+', '\x7b', '\x7d', '[', ']']

def isBlank (c : Char) : Bool := c == ' ' || c == '\t'

def isKeyChar (c : Char) : Bool := c.isAlphanum || c == '-' || c == '_'

/-- A character that a comment may hold. -/
def inComment (c : Char) : Bool := c == '\t' || ' ' ≤ c

/-- A character that a string may hold as it is. -/
def inString (c : Char) : Bool := c == '\t' || (' ' ≤ c && c != '\x7f')

inductive Quote where
  | basic
  | literal
deriving DecidableEq, Repr

def Quote.char : Quote → Char
  | basic => '"'
  | literal => '\''

/-! ## Modes -/

/-- What the next character belongs to. Characters of an open token are kept latest first. -/
inductive Mode where
  | plain
  | blank (chars : List Char)
  | comment
  | word (chars : List Char)
  /-- After one quote. -/
  | opened (q : Quote)
  /-- After two quotes: an empty string, or two thirds of a multi-line opening. -/
  | openedTwice (q : Quote)
  /-- Inside a string; `fresh` right after a multi-line opening, where a line end is dropped. -/
  | inside (q : Quote) (multiline fresh : Bool) (chars : List Char)
  /-- After `count` quotes inside a multi-line string. -/
  | closing (q : Quote) (count : Nat) (chars : List Char)
  /-- After a backslash. -/
  | escape (multiline : Bool) (chars : List Char)
  /-- Inside a numeric escape that needs `left` more digits. -/
  | code (multiline : Bool) (left value : Nat) (chars : List Char)
  /-- After a backslash and blanks that must lead to a line end. -/
  | beforeLineEnd (chars : List Char)
  /-- After a backslash and a line end, where blank space is dropped. -/
  | afterLineEnd (chars : List Char)
  /-- No token can go on like this. -/
  | bad
deriving DecidableEq, Repr

/-- The tokens before the open one, latest first, and where the scanner stands. -/
structure Scan where
  tokens : List Token
  mode : Mode
deriving DecidableEq, Repr

namespace Scan

def initial : Scan := ⟨[], .plain⟩

def emit (tokens : List Token) (t : Token) : Scan := ⟨t :: tokens, .plain⟩

def plain (tokens : List Token) (c : Char) : Scan :=
  if c = '\n' then emit tokens .newline
  else if isBlank c then ⟨tokens, .blank [c]⟩
  else if c = '#' then ⟨tokens, .comment⟩
  else if marks.contains c then emit tokens (.mark c)
  else if c = Quote.basic.char then ⟨tokens, .opened .basic⟩
  else if c = Quote.literal.char then ⟨tokens, .opened .literal⟩
  else if isKeyChar c then ⟨tokens, .word [c]⟩
  else ⟨tokens, .bad⟩

def inside (tokens : List Token) (q : Quote) (multiline fresh : Bool) (cs : List Char) (c : Char) :
    Scan :=
  if c = '\n' then
    if multiline then ⟨tokens, .inside q true false (if fresh then cs else c :: cs)⟩
    else ⟨tokens, .bad⟩
  else if c = q.char then
    if multiline then ⟨tokens, .closing q 1 cs⟩ else emit tokens (.text cs.reverse false)
  else if q = .basic ∧ c = '\\' then ⟨tokens, .escape multiline cs⟩
  else if inString c then ⟨tokens, .inside q multiline false (c :: cs)⟩
  else ⟨tokens, .bad⟩

def escaped? : Char → Option Char
  | '"' => some '"'
  | '\\' => some '\\'
  | 'b' => some '\x08'
  | 'f' => some '\x0c'
  | 'n' => some '\n'
  | 'r' => some '\r'
  | 't' => some '\t'
  | _ => none

def escape (tokens : List Token) (multiline : Bool) (cs : List Char) (c : Char) : Scan :=
  match escaped? c with
  | some d => ⟨tokens, .inside .basic multiline false (d :: cs)⟩
  | none =>
    if c = 'u' then ⟨tokens, .code multiline 4 0 cs⟩
    else if c = 'U' then ⟨tokens, .code multiline 8 0 cs⟩
    else if multiline && isBlank c then ⟨tokens, .beforeLineEnd cs⟩
    else if multiline && c == '\n' then ⟨tokens, .afterLineEnd cs⟩
    else ⟨tokens, .bad⟩

def code (tokens : List Token) (multiline : Bool) (left value : Nat) (cs : List Char) (c : Char) :
    Scan :=
  match Text.hexDigit? c with
  | none => ⟨tokens, .bad⟩
  | some d =>
    let value := 16 * value + d
    if 1 < left then ⟨tokens, .code multiline (left - 1) value cs⟩
    else if Nat.isValidChar value then
      ⟨tokens, .inside .basic multiline false (Char.ofNat value :: cs)⟩
    else ⟨tokens, .bad⟩

/-- A character after some quotes inside a multi-line string. Fewer than three were content, three
close the string, and up to two more still belong to it. -/
def closing (tokens : List Token) (q : Quote) (count : Nat) (cs : List Char) (c : Char) : Scan :=
  if c = q.char then
    if count < 4 then ⟨tokens, .closing q (count + 1) cs⟩
    else emit tokens (.text (q.char :: q.char :: cs).reverse true)
  else
    match count with
    | 3 => plain (.text cs.reverse true :: tokens) c
    | 4 => plain (.text (q.char :: cs).reverse true :: tokens) c
    | n => inside tokens q true false (List.replicate n q.char ++ cs) c

def step (s : Scan) (c : Char) : Scan :=
  match s.mode with
  | .plain => plain s.tokens c
  | .blank cs =>
    if isBlank c then { s with mode := .blank (c :: cs) }
    else plain (.blank cs.reverse :: s.tokens) c
  | .comment =>
    if c = '\n' then emit (.comment :: s.tokens) .newline
    else if inComment c then s
    else { s with mode := .bad }
  | .word cs =>
    if isKeyChar c then { s with mode := .word (c :: cs) }
    else plain (.word cs.reverse :: s.tokens) c
  | .opened q =>
    if c = q.char then { s with mode := .openedTwice q }
    else inside s.tokens q false false [] c
  | .openedTwice q =>
    if c = q.char then { s with mode := .inside q true true [] }
    else plain (.text [] false :: s.tokens) c
  | .inside q multiline fresh cs => inside s.tokens q multiline fresh cs c
  | .closing q count cs => closing s.tokens q count cs c
  | .escape multiline cs => escape s.tokens multiline cs c
  | .code multiline left value cs => code s.tokens multiline left value cs c
  | .beforeLineEnd cs =>
    if isBlank c then s
    else if c = '\n' then { s with mode := .afterLineEnd cs }
    else { s with mode := .bad }
  | .afterLineEnd cs =>
    if isBlank c || c == '\n' then s
    else inside s.tokens .basic true false cs c
  | .bad => s

/-- The end of the text completes an open token, unless it is a string that still needs quotes. -/
def finish (s : Scan) : Option (List Token) :=
  match s.mode with
  | .plain => some s.tokens.reverse
  | .blank cs => some (Token.blank cs.reverse :: s.tokens).reverse
  | .comment => some (Token.comment :: s.tokens).reverse
  | .word cs => some (Token.word cs.reverse :: s.tokens).reverse
  | .openedTwice _ => some (Token.text [] false :: s.tokens).reverse
  | .closing _ 3 cs => some (Token.text cs.reverse true :: s.tokens).reverse
  | .closing q 4 cs => some (Token.text (q.char :: cs).reverse true :: s.tokens).reverse
  | _ => none

end Scan

/-! ## Whole texts -/

/-- Drops each carriage return that stands before a line feed. -/
def joinLineEnds : List Char → List Char
  | '\r' :: '\n' :: cs => '\n' :: joinLineEnds cs
  | c :: cs => c :: joinLineEnds cs
  | [] => []

/-- A text without the byte-order mark it may start with. -/
def dropMark : List Char → List Char
  | c :: cs => if c = '\ufeff' then cs else c :: cs
  | [] => []

def tokens? (cs : List Char) : Option (List Token) :=
  ((joinLineEnds (dropMark cs)).foldl Scan.step Scan.initial).finish

end Toml
end Beamline
