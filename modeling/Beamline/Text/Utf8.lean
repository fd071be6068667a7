/-!
# UTF-8 — bytes to characters, and where they stop being characters

Tables, headers and settings arrive as bytes. Three different messages report bytes that are not
text, and each wants to know how far the text was good; so decoding answers either the characters or
a `Fault` that says where the first bad sequence starts and how long it is. A sequence that the end
of the bytes cuts short has no length: more bytes could still have made it good.

Overlong forms, surrogates and values beyond the last code point are all caught at the second byte,
by the narrower range that some first bytes leave it (`secondRange?`).
-/

set_option autoImplicit false

namespace Beamline
namespace Utf8

/-- Where text stops: the number of good bytes before, and the length of the bad sequence unless the
bytes end inside it. -/
structure Fault where
  validUpTo : Nat
  length : Option Nat
deriving DecidableEq, Repr

def Fault.text (f : Fault) : String :=
  match f.length with
  | some n => s!"invalid utf-8 sequence of {n} bytes from index {f.validUpTo}"
  | none => s!"incomplete utf-8 byte sequence from index {f.validUpTo}"

/-- What the second byte may be after a first byte of a longer sequence. -/
def secondRange? (a : UInt8) : Option (UInt8 × UInt8) :=
  if a < 0xC2 then none
  else if a < 0xE0 then some (0x80, 0xBF)
  else if a = 0xE0 then some (0xA0, 0xBF)
  else if a = 0xED then some (0x80, 0x9F)
  else if a < 0xF0 then some (0x80, 0xBF)
  else if a = 0xF0 then some (0x90, 0xBF)
  else if a < 0xF4 then some (0x80, 0xBF)
  else if a = 0xF4 then some (0x80, 0x8F)
  else none

def isContinuation (b : UInt8) : Bool := 0x80 ≤ b && b ≤ 0xBF

/-- The six low bits of a continuation byte. -/
def low (b : UInt8) : Nat := b.toNat % 64

/-- Decodes from byte number `i` on. -/
def decodeFrom (i : Nat) : List UInt8 → Except Fault (List Char)
  | [] => .ok []
  | a :: rest =>
    if a < 0x80 then (decodeFrom (i + 1) rest).map (Char.ofNat a.toNat :: ·)
    else
      match secondRange? a with
      | none => .error ⟨i, some 1⟩
      | some (first, last) =>
        match rest with
        | [] => .error ⟨i, none⟩
        | b :: rest =>
          if b < first ∨ last < b then .error ⟨i, some 1⟩
          else if a < 0xE0 then
            (decodeFrom (i + 2) rest).map (Char.ofNat (a.toNat % 32 * 64 + low b) :: ·)
          else
            match rest with
            | [] => .error ⟨i, none⟩
            | c :: rest =>
              if ! isContinuation c then .error ⟨i, some 2⟩
              else if a < 0xF0 then
                (decodeFrom (i + 3) rest).map
                  (Char.ofNat ((a.toNat % 16 * 64 + low b) * 64 + low c) :: ·)
              else
                match rest with
                | [] => .error ⟨i, none⟩
                | d :: rest =>
                  if ! isContinuation d then .error ⟨i, some 3⟩
                  else
                    (decodeFrom (i + 4) rest).map
                      (Char.ofNat (((a.toNat % 8 * 64 + low b) * 64 + low c) * 64 + low d) :: ·)

/-- The characters that bytes encode, or where they stop being text. -/
def decode (bytes : List UInt8) : Except Fault (List Char) := decodeFrom 0 bytes

def encode (cs : List Char) : List UInt8 := cs.flatMap String.utf8EncodeChar

end Utf8
end Beamline
