/-!
# UTF-8

Files hold bytes. A character takes one to four of them: the lead byte says how many continuation
bytes follow and, for four of the leads, narrows the range of the next one, which keeps out
overlong forms, surrogates and code points above U+10FFFF.

## Main definitions

* `Utf8.lead` — what a lead byte calls for.
* `Utf8.Fault` — the bytes at which decoding stopped, and why.
* `Utf8.decode` — the characters of a sequence of bytes.
* `Utf8.decodeMarked` — the same, after the byte order mark that may stand first.
-/

namespace Ebnf.Text.Utf8

/-- Why bytes are not UTF-8, as the report of a decoder words it. -/
inductive Reason where
  /-- No character begins with this byte. -/
  | invalidStart
  /-- The character that has begun cannot go on with the next byte. -/
  | invalidContinuation
  /-- The text ends within a character. -/
  | unexpectedEnd
  deriving DecidableEq, Repr

/-- The wording of a reason. -/
def Reason.text : Reason → String
  | .invalidStart => "invalid start byte"
  | .invalidContinuation => "invalid continuation byte"
  | .unexpectedEnd => "unexpected end of data"

/-- The bytes that are no character: a lead byte and the continuation bytes that suit it. -/
structure Fault where
  /-- The first of the bytes. -/
  byte : UInt8
  /-- Where the first stands, counted from 0. -/
  start : Nat
  /-- How many they are. -/
  count : Nat
  /-- What is wrong after them. -/
  reason : Reason
  deriving DecidableEq, Repr

/-- Two hexadecimal digits in lower case. -/
def hexByte (b : UInt8) : String :=
  String.ofList [Nat.digitChar (b.toNat / 16), Nat.digitChar (b.toNat % 16)]

/-- The message that reports a fault. -/
def Fault.message (f : Fault) : String :=
  if f.count = 1 then
    s!"'utf-8' codec can't decode byte 0x{hexByte f.byte} in position {f.start}: {f.reason.text}"
  else
    s!"'utf-8' codec can't decode bytes in position {f.start}-{f.start + f.count - 1}: " ++
      f.reason.text

/-- A character of which some bytes have been read. -/
structure Pending where
  /-- Its lead byte. -/
  byte : UInt8
  /-- Where the lead byte stands. -/
  start : Nat
  /-- How many continuation bytes are still to come after the next one. -/
  owed : Nat
  /-- The least value that the next byte may have. -/
  low : UInt8
  /-- The greatest value that the next byte may have. -/
  high : UInt8
  /-- The bits of the code point read so far. -/
  bits : Nat
  deriving DecidableEq, Repr

/-- What a lead byte at a position calls for, if it is one. -/
def lead (b : UInt8) (start : Nat) : Option Pending :=
  if b < 0xc2 then none
  else if b < 0xe0 then some ⟨b, start, 0, 0x80, 0xbf, b.toNat - 0xc0⟩
  else if b < 0xf0 then
    some ⟨b, start, 1, if b = 0xe0 then 0xa0 else 0x80, if b = 0xed then 0x9f else 0xbf,
      b.toNat - 0xe0⟩
  else if b < 0xf5 then
    some ⟨b, start, 2, if b = 0xf0 then 0x90 else 0x80, if b = 0xf4 then 0x8f else 0xbf,
      b.toNat - 0xf0⟩
  else none

/-- The bits of a code point with those of one more continuation byte. -/
def addBits (bits : Nat) (b : UInt8) : Nat := bits * 64 + (b.toNat - 0x80)

/-- Reads on from position `pos`, within a character if one is pending. -/
def decodeFrom : Option Pending → Nat → List UInt8 → Except Fault (List Char)
  | none, _, [] => .ok []
  | some p, pos, [] => .error ⟨p.byte, p.start, pos - p.start, .unexpectedEnd⟩
  | none, pos, b :: rest =>
    if b < 0x80 then (Char.ofNat b.toNat :: ·) <$> decodeFrom none (pos + 1) rest
    else
      match lead b pos with
      | none => .error ⟨b, pos, 1, .invalidStart⟩
      | some p => decodeFrom (some p) (pos + 1) rest
  | some p, pos, b :: rest =>
    if p.low ≤ b ∧ b ≤ p.high then
      match p.owed with
      | 0 => (Char.ofNat (addBits p.bits b) :: ·) <$> decodeFrom none (pos + 1) rest
      | owed + 1 =>
        decodeFrom (some { p with owed, low := 0x80, high := 0xbf, bits := addBits p.bits b })
          (pos + 1) rest
    else .error ⟨p.byte, p.start, pos - p.start, .invalidContinuation⟩

/-- The characters that the bytes encode, or the first fault in them. -/
def decode (bytes : List UInt8) : Except Fault (List Char) := decodeFrom none 0 bytes

/-- The characters after the byte order mark that may stand first. Bytes that only begin the
mark are an empty text. -/
def decodeMarked (bytes : List UInt8) : Except Fault (List Char) :=
  match bytes with
  | 0xef :: 0xbb :: 0xbf :: rest => decode rest
  | [0xef, 0xbb] => .ok []
  | [0xef] => .ok []
  | _ => decode bytes

end Ebnf.Text.Utf8
