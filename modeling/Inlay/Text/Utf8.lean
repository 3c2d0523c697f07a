import Inlay.Text.Bytes

/-!
Characters of a byte text. A byte that begins no valid UTF-8 sequence reads as the replacement
character and is a character of its own, one byte long; so every text can be read, and the bytes of
its characters make up the text again.
-/

namespace Inlay

structure Glyph where
  char : Char
  bytes : Bytes
  deriving DecidableEq, Repr, Inhabited

namespace Utf8

/-- The character that a byte without a valid sequence reads as. -/
def replacement : Char := '�'

def encode (c : Char) : Bytes := String.utf8EncodeChar c

def continues (b : UInt8) : Bool := 0x80 ≤ b && b < 0xC0

/-- The second byte of a three byte sequence: no overlong form and no surrogate. -/
def secondOfThree (lead b : UInt8) : Bool :=
  if lead == 0xE0 then 0xA0 ≤ b && b < 0xC0
  else if lead == 0xED then 0x80 ≤ b && b < 0xA0
  else continues b

/-- The second byte of a four byte sequence: no overlong form and nothing beyond the last plane. -/
def secondOfFour (lead b : UInt8) : Bool :=
  if lead == 0xF0 then 0x90 ≤ b && b < 0xC0
  else if lead == 0xF4 then 0x80 ≤ b && b < 0x90
  else continues b

def payload (b : UInt8) : Nat := b.toNat % 64

/-- The character that byte `lead` begins, and how many of the bytes after it belong to it. -/
def decodeAt (lead : UInt8) (rest : Bytes) : Char × Nat :=
  if lead < 0x80 then (Char.ofNat lead.toNat, 0)
  else if 0xC2 ≤ lead && lead < 0xE0 then
    match rest with
    | b1 :: _ =>
        if continues b1 then (Char.ofNat (lead.toNat % 32 * 64 + payload b1), 1)
        else (replacement, 0)
    | _ => (replacement, 0)
  else if 0xE0 ≤ lead && lead < 0xF0 then
    match rest with
    | b1 :: b2 :: _ =>
        if secondOfThree lead b1 && continues b2 then
          (Char.ofNat ((lead.toNat % 16 * 64 + payload b1) * 64 + payload b2), 2)
        else (replacement, 0)
    | _ => (replacement, 0)
  else if 0xF0 ≤ lead && lead < 0xF5 then
    match rest with
    | b1 :: b2 :: b3 :: _ =>
        if secondOfFour lead b1 && continues b2 && continues b3 then
          (Char.ofNat (((lead.toNat % 8 * 64 + payload b1) * 64 + payload b2) * 64 + payload b3), 3)
        else (replacement, 0)
    | _ => (replacement, 0)
  else (replacement, 0)

/-- The characters of a text of which the first `skip` bytes are already read. -/
def glyphsFrom : (skip : Nat) → Bytes → List Glyph
  | _, [] => []
  | skip + 1, _ :: rest => glyphsFrom skip rest
  | 0, lead :: rest =>
      let (char, more) := decodeAt lead rest
      ⟨char, lead :: rest.take more⟩ :: glyphsFrom more rest

def glyphs (text : Bytes) : List Glyph := glyphsFrom 0 text

def chars (text : Bytes) : List Char := (glyphs text).map (·.char)

def ofChars (cs : List Char) : Bytes := cs.flatMap encode

def isValid (text : Bytes) : Bool := (glyphs text).all fun g => g.bytes == encode g.char

def scrub (text : Bytes) : Bytes := ofChars (chars text)

end Utf8

end Inlay
