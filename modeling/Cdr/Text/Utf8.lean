import Cdr.Text.Numeral

/-! # UTF-8

A text as bytes, and bytes as a text. Reading goes byte by byte and reports the first place where
the bytes are no UTF-8: surrogates, overlong forms and values past U+10FFFF are refused at the
byte that rules them out.
-/

namespace Cdr.Text

/-- The UTF-8 bytes of a text. -/
def utf8 (text : String) : List UInt8 :=
  text.toList.flatMap String.utf8EncodeChar

/-- Why bytes are no UTF-8. `start` is the index of the first byte of the bad sequence, before
    which everything is valid. -/
inductive Utf8Fault where
  /-- The bytes end inside a sequence that is valid so far. -/
  | incomplete (start : Nat)
  /-- The `length` bytes at `start` can be continued by no byte, or not by the one that follows. -/
  | invalid (start length : Nat)
  deriving DecidableEq, Repr

namespace Utf8Fault

def message : Utf8Fault → String
  | incomplete start => "incomplete utf-8 byte sequence from index " ++ decimal start
  | invalid start length =>
    "invalid utf-8 sequence of " ++ decimal length ++ " bytes from index " ++ decimal start

end Utf8Fault

/-- A character of which some bytes were read. -/
structure PartialChar where
  start : Nat
  /-- The bytes read so far. -/
  seen : Nat
  /-- The continuation bytes still missing, at least one. -/
  owed : Nat
  /-- The bits collected so far. -/
  bits : Nat
  /-- The least and the greatest byte that may come next. -/
  low : UInt8
  high : UInt8

/-- What the first byte of a longer sequence opens; `none` for a byte that opens none. -/
def openChar? (start : Nat) (b : UInt8) : Option PartialChar :=
  if 0xc2 ≤ b ∧ b ≤ 0xdf then some ⟨start, 1, 1, b.toNat - 0xc0, 0x80, 0xbf⟩
  else if 0xe0 ≤ b ∧ b ≤ 0xef then
    let low := if b = 0xe0 then 0xa0 else 0x80
    let high := if b = 0xed then 0x9f else 0xbf
    some ⟨start, 1, 2, b.toNat - 0xe0, low, high⟩
  else if 0xf0 ≤ b ∧ b ≤ 0xf4 then
    let low := if b = 0xf0 then 0x90 else 0x80
    let high := if b = 0xf4 then 0x8f else 0xbf
    some ⟨start, 1, 3, b.toNat - 0xf0, low, high⟩
  else none

/-- Reads the bytes from index `i` on, inside a character when one is given. -/
def readUtf8From : List UInt8 → Nat → Option PartialChar → Except Utf8Fault (List Char)
  | [], _, none => .ok []
  | [], _, some p => .error (.incomplete p.start)
  | b :: bs, i, none =>
    if b < 0x80 then (Char.ofNat b.toNat :: ·) <$> readUtf8From bs (i + 1) none
    else
      match openChar? i b with
      | some p => readUtf8From bs (i + 1) (some p)
      | none => .error (.invalid i 1)
  | b :: bs, i, some p =>
    if p.low ≤ b ∧ b ≤ p.high then
      let bits := p.bits * 64 + (b.toNat - 0x80)
      if p.owed = 1 then (Char.ofNat bits :: ·) <$> readUtf8From bs (i + 1) none
      else
        readUtf8From bs (i + 1)
          (some ⟨p.start, p.seen + 1, p.owed - 1, bits, 0x80, 0xbf⟩)
    else .error (.invalid p.start p.seen)

/-- The text whose UTF-8 form the bytes are. -/
def readUtf8 (bytes : List UInt8) : Except Utf8Fault String :=
  String.ofList <$> readUtf8From bytes 0 none

theorem length_utf8 (text : String) : (utf8 text).length = text.utf8ByteSize := by
  rw [← String.size_toByteArray, ← String.utf8Encode_toList, List.utf8Encode, utf8]
  simp

end Cdr.Text
