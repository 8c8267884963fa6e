/-!
# Decoding UTF-8

`Text.decodeUtf8` reads a sequence of bytes as characters, one byte at a time.
Between two characters it waits for a leading byte; inside a character it knows how
many continuation bytes are still owed and which values the next one may take.  The
first byte after `E0`, `ED`, `F0` and `F4` has a narrower range than the others: that
rules out overlong forms, surrogates and code points past `10FFFF`.

A fault names the bytes of the longest start of a character found there, by their
offset in the whole sequence.
-/

namespace JackSyntax.Text

/-- Why a stretch of bytes is no character. -/
inductive Utf8Fault
  | invalidStart
  | invalidContinuation
  | unexpectedEnd
deriving DecidableEq

/-- The fault in words. -/
def Utf8Fault.description : Utf8Fault → String
  | .invalidStart => "invalid start byte"
  | .invalidContinuation => "invalid continuation byte"
  | .unexpectedEnd => "unexpected end of data"

/-- The first stretch of a byte sequence that cannot be decoded. -/
structure Utf8Error where
  /-- The offset of the stretch. -/
  start : Nat
  /-- The number of its bytes, at least one. -/
  length : Nat
  /-- Its first byte. -/
  lead : UInt8
  fault : Utf8Fault
deriving DecidableEq

/-- A single byte is shown by its value, a longer stretch by its first and last offset. -/
def Utf8Error.message (error : Utf8Error) : String :=
  let place :=
    if error.length = 1 then
      "byte 0x" ++ String.ofList
        [Nat.digitChar (error.lead.toNat / 16), Nat.digitChar (error.lead.toNat % 16)] ++
        " in position " ++ toString error.start
    else
      "bytes in position " ++ toString error.start ++ "-" ++
        toString (error.start + error.length - 1)
  "'utf-8' codec can't decode " ++ place ++ ": " ++ error.fault.description

/-- A character of which some bytes have been read. -/
structure PartialChar where
  /-- The offset of the leading byte. -/
  start : Nat
  lead : UInt8
  /-- The number of bytes read. -/
  length : Nat
  /-- The bits read so far. -/
  code : Nat
  /-- The number of bytes to come, less the next one. -/
  further : Nat
  /-- The least value of the next byte. -/
  low : UInt8
  /-- The greatest value of the next byte. -/
  high : UInt8

/-- What a leading byte announces: the bits it holds, the number of bytes after the
next one, and the range of the next one. -/
def announced? (lead : UInt8) : Option (Nat × Nat × UInt8 × UInt8) :=
  if lead < 0xC2 then none
  else if lead < 0xE0 then some (lead.toNat - 0xC0, 0, 0x80, 0xBF)
  else if lead < 0xF0 then
    some (lead.toNat - 0xE0, 1, if lead = 0xE0 then 0xA0 else 0x80,
      if lead = 0xED then 0x9F else 0xBF)
  else if lead < 0xF5 then
    some (lead.toNat - 0xF0, 2, if lead = 0xF0 then 0x90 else 0x80,
      if lead = 0xF4 then 0x8F else 0xBF)
  else none

/-- The fault of a character that breaks off after the bytes read so far. -/
def PartialChar.broken (begun : PartialChar) (fault : Utf8Fault) : Utf8Error :=
  ⟨begun.start, begun.length, begun.lead, fault⟩

/-- Decodes the bytes from an offset on, after the characters already decoded (last
one first) and the character that has begun, if one has. -/
def decodeUtf8From (offset : Nat) (decoded : List Char) :
    Option PartialChar → List UInt8 → Except Utf8Error (List Char)
  | none, [] => .ok decoded.reverse
  | some begun, [] => .error (begun.broken .unexpectedEnd)
  | none, byte :: rest =>
      if byte < 0x80 then
        decodeUtf8From (offset + 1) (Char.ofNat byte.toNat :: decoded) none rest
      else
        match announced? byte with
        | none => .error ⟨offset, 1, byte, .invalidStart⟩
        | some (code, further, low, high) =>
            decodeUtf8From (offset + 1) decoded
              (some ⟨offset, byte, 1, code, further, low, high⟩) rest
  | some begun, byte :: rest =>
      if begun.low ≤ byte ∧ byte ≤ begun.high then
        let code := begun.code * 64 + (byte.toNat - 0x80)
        match begun.further with
        | 0 => decodeUtf8From (offset + 1) (Char.ofNat code :: decoded) none rest
        | further + 1 =>
            decodeUtf8From (offset + 1) decoded
              (some ⟨begun.start, begun.lead, begun.length + 1, code, further, 0x80, 0xBF⟩) rest
      else .error (begun.broken .invalidContinuation)

/-- The characters of a byte sequence, or its first faulty stretch. -/
def decodeUtf8 (bytes : List UInt8) : Except Utf8Error (List Char) :=
  decodeUtf8From 0 [] none bytes

/-- The bytes of ASCII are characters of their own. -/
theorem decodeUtf8_of_ascii {bytes : List UInt8} (hascii : ∀ byte ∈ bytes, byte < 0x80) :
    decodeUtf8 bytes = .ok (bytes.map fun byte => Char.ofNat byte.toNat) := by
  suffices h : ∀ (offset : Nat) (decoded : List Char),
      decodeUtf8From offset decoded none bytes =
        .ok (decoded.reverse ++ bytes.map fun byte => Char.ofNat byte.toNat) from h 0 []
  induction bytes with
  | nil => simp [decodeUtf8From]
  | cons byte rest ih =>
      intro offset decoded
      rw [decodeUtf8From, if_pos (hascii byte List.mem_cons_self),
        ih fun other hother => hascii other (List.mem_cons_of_mem byte hother)]
      simp

end JackSyntax.Text
