/-!
# UTF-8

Texts as bytes. A character is one to four bytes; its first byte tells how many follow, and the
byte after the first is kept to a range that rules out overlong forms, surrogates and numbers
beyond the last character.

A fault names the offset up to which the bytes are text. It also tells how many bytes were read of
the character that then could not go on, or nothing if the bytes merely end inside a character.
-/

namespace WhenClause

abbrev Bytes := List UInt8

namespace Utf8

def encodeChar (c : Char) : Bytes :=
  let n := c.toNat
  let tail := fun k => UInt8.ofNat (0x80 + k % 64)
  if n < 0x80 then [UInt8.ofNat n]
  else if n < 0x800 then [UInt8.ofNat (0xC0 + n / 64), tail n]
  else if n < 0x10000 then [UInt8.ofNat (0xE0 + n / 4096), tail (n / 64), tail n]
  else [UInt8.ofNat (0xF0 + n / 262144), tail (n / 4096), tail (n / 64), tail n]

def encode (s : List Char) : Bytes := s.flatMap encodeChar

structure Fault where
  validUpTo : Nat
  errorLength : Option Nat
  deriving DecidableEq, Repr

/-- A character of several bytes of which some are read: its number so far, the bytes read and
still to come, and the range of the next one. -/
structure Pending where
  number : Nat
  seen : Nat
  left : Nat
  low : Nat
  high : Nat

def lead? (b : Nat) : Option Pending :=
  if b < 0xC2 then none
  else if b < 0xE0 then some ⟨b - 0xC0, 1, 1, 0x80, 0xBF⟩
  else if b < 0xF0 then
    some ⟨b - 0xE0, 1, 2, if b = 0xE0 then 0xA0 else 0x80, if b = 0xED then 0x9F else 0xBF⟩
  else if b < 0xF5 then
    some ⟨b - 0xF0, 1, 3, if b = 0xF0 then 0x90 else 0x80, if b = 0xF4 then 0x8F else 0xBF⟩
  else none

/-- Decodes from a place inside or between characters, `offset` being where the present character
starts. -/
def decodeFrom (offset : Nat) : Option Pending → Bytes → Except Fault (List Char)
  | none, [] => .ok []
  | some _, [] => .error ⟨offset, none⟩
  | none, b :: bytes =>
    if b.toNat < 0x80 then (Char.ofNat b.toNat :: ·) <$> decodeFrom (offset + 1) none bytes
    else
      match lead? b.toNat with
      | some p => decodeFrom offset (some p) bytes
      | none => .error ⟨offset, some 1⟩
  | some p, b :: bytes =>
    if p.low ≤ b.toNat ∧ b.toNat ≤ p.high then
      let number := p.number * 64 + (b.toNat - 0x80)
      if p.left = 1 then
        (Char.ofNat number :: ·) <$> decodeFrom (offset + p.seen + 1) none bytes
      else decodeFrom offset (some ⟨number, p.seen + 1, p.left - 1, 0x80, 0xBF⟩) bytes
    else .error ⟨offset, some p.seen⟩

def decode (bytes : Bytes) : Except Fault (List Char) := decodeFrom 0 none bytes

end Utf8

end WhenClause
