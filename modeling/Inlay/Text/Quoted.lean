import Inlay.Text.Utf8
import Inlay.Text.Printable

/-!
Quoted texts. A text between double quotes stands on one line: quotes, backslashes, characters that
are not printable and bytes that are no UTF-8 are escaped. Reading also takes the two other ways to
quote: a single character between apostrophes, and anything between backquotes.
-/

namespace Inlay.Quoted

def hexDigit (n : Nat) : UInt8 := if n < 10 then (48 + n).toUInt8 else (87 + n).toUInt8

def hex : (places n : Nat) → Bytes
  | 0, _ => []
  | places + 1, n => hex places (n / 16) ++ [hexDigit (n % 16)]

def controlLetter? (c : Char) : Option Bytes :=
  match c.toNat with
  | 7 => some (utf8 "a")
  | 8 => some (utf8 "b")
  | 9 => some (utf8 "t")
  | 10 => some (utf8 "n")
  | 11 => some (utf8 "v")
  | 12 => some (utf8 "f")
  | 13 => some (utf8 "r")
  | _ => none

def encodeGlyph (g : Glyph) : Bytes :=
  let c := g.char
  if g.bytes != Utf8.encode c then utf8 "\\x" ++ g.bytes.flatMap fun b => hex 2 b.toNat
  else if c = '"' || c = '\\' then utf8 "\\" ++ g.bytes
  else if isPrintable c then g.bytes
  else match controlLetter? c with
    | some letter => utf8 "\\" ++ letter
    | none =>
        if c.toNat < 0x20 || c.toNat = 0x7F then utf8 "\\x" ++ hex 2 c.toNat
        else if c.toNat < 0x10000 then utf8 "\\u" ++ hex 4 c.toNat
        else utf8 "\\U" ++ hex 8 c.toNat

def encode (text : Bytes) : Bytes :=
  utf8 "\"" ++ (Utf8.glyphs text).flatMap encodeGlyph ++ utf8 "\""

def hexValue? (c : Char) : Option Nat :=
  if '0' ≤ c && c ≤ '9' then some (c.toNat - 48)
  else if 'a' ≤ c && c ≤ 'f' then some (c.toNat - 87)
  else if 'A' ≤ c && c ≤ 'F' then some (c.toNat - 55)
  else none

def hexNumber? : (places : Nat) → List Glyph → Option Nat
  | 0, _ => some 0
  | _ + 1, [] => none
  | places + 1, g :: rest => do
      let digit ← hexValue? g.char
      let lower ← hexNumber? places rest
      return digit * Nat.pow 16 places + lower

def octalValue? (c : Char) : Option Nat :=
  if '0' ≤ c && c ≤ '7' then some (c.toNat - 48) else none

/-- A number that names a character: no surrogate and nothing beyond the last plane. -/
def isScalar (n : Nat) : Bool := n < 0xD800 || (0xDFFF < n && n < 0x110000)

/-- The bytes that an escape stands for, and how many characters after `letter` belong to it. -/
def escape (quote letter : Char) (rest : List Glyph) : Option (Bytes × Nat) :=
  match letter with
  | 'a' => some ([7], 0)
  | 'b' => some ([8], 0)
  | 'f' => some ([12], 0)
  | 'n' => some ([10], 0)
  | 'r' => some ([13], 0)
  | 't' => some ([9], 0)
  | 'v' => some ([11], 0)
  | '\\' => some (utf8 "\\", 0)
  | 'x' => (hexNumber? 2 rest).map fun n => ([n.toUInt8], 2)
  | 'u' => (hexNumber? 4 rest).bind fun n =>
      if isScalar n then some (Utf8.encode (Char.ofNat n), 4) else none
  | 'U' => (hexNumber? 8 rest).bind fun n =>
      if isScalar n then some (Utf8.encode (Char.ofNat n), 8) else none
  | _ =>
      if letter = quote then some (Utf8.encode letter, 0)
      else match octalValue? letter, rest with
        | some high, g1 :: g0 :: _ => do
            let mid ← octalValue? g1.char
            let low ← octalValue? g0.char
            let n := high * 64 + mid * 8 + low
            if n < 256 then some ([n.toUInt8], 2) else none
        | _, _ => none

/-- What stands before the closing quote, its escapes undone, and what follows the quote; `skip`
characters belong to an escape already undone. -/
def body (quote : Char) : (skip : Nat) → List Glyph → Option (Bytes × List Glyph)
  | _, [] => none
  | skip + 1, _ :: rest => body quote skip rest
  | 0, g :: rest =>
      if g.char = quote then some ([], rest)
      else if g.char = '\n' then none
      else if g.char = '\\' then
        match rest with
        | [] => none
        | letter :: more => do
            let (out, used) ← escape quote letter.char more
            let (text, after) ← body quote (used + 1) rest
            return (out ++ text, after)
      else do
        let (text, after) ← body quote 0 rest
        return (Utf8.encode g.char ++ text, after)

/-- How many characters the first item between apostrophes takes: one, or an escape. -/
def itemLength (quote : Char) : List Glyph → Option Nat
  | g :: rest =>
      if g.char = '\\' then
        match rest with
        | letter :: more => (escape quote letter.char more).map fun e => e.2 + 2
        | [] => none
      else if g.char = quote || g.char = '\n' then none
      else some 1
  | [] => none

/-- The text that a quoted text stands for, if it is well formed and nothing follows it. -/
def decode (quoted : Bytes) : Option Bytes :=
  match Utf8.glyphs quoted with
  | [] => none
  | first :: rest =>
      if first.char = '`' then
        match rest.reverse with
        | last :: inner =>
            if last.char = '`' && inner.all (·.char != '`') then
              some ((inner.reverse.filter (·.char != '\r')).flatMap (·.bytes))
            else none
        | [] => none
      else if first.char = '"' then
        match body '"' 0 rest with
        | some (text, []) => some text
        | _ => none
      else if first.char = '\'' then
        match body '\'' 0 rest, itemLength '\'' rest with
        | some (text, []), some n => if n + 1 = rest.length then some text else none
        | _, _ => none
      else none

end Inlay.Quoted
