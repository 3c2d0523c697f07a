import Inlay.Text.Quoted

/-!
JSON documents. A number keeps the text it was written with, and the members of an object keep
their order.
-/

namespace Inlay

inductive Json where
  | null
  | bool (b : Bool)
  | number (literal : Bytes)
  | string (s : Bytes)
  | array (items : List Json)
  | object (members : List (Bytes × Json))
  deriving Inhabited

namespace Json

/-- How a string is written: whether the characters that matter to HTML are escaped. -/
structure Style where
  escapeHtml : Bool

def Style.html : Style := ⟨true⟩

def Style.bare : Style := ⟨false⟩

def Style.glyph (style : Style) (g : Glyph) : Bytes :=
  let c := g.char
  if g.bytes != Utf8.encode c then utf8 "\\ufffd"
  else if c = '"' || c = '\\' then utf8 "\\" ++ g.bytes
  else if c.toNat < 0x20 then
    match c.toNat with
    | 8 => utf8 "\\b"
    | 9 => utf8 "\\t"
    | 10 => utf8 "\\n"
    | 12 => utf8 "\\f"
    | 13 => utf8 "\\r"
    | n => utf8 "\\u" ++ Quoted.hex 4 n
  else if c.toNat = 0x2028 || c.toNat = 0x2029 then utf8 "\\u" ++ Quoted.hex 4 c.toNat
  else if style.escapeHtml && (c = '<' || c = '>' || c = '&') then
    utf8 "\\u" ++ Quoted.hex 4 c.toNat
  else g.bytes

def Style.quote (style : Style) (text : Bytes) : Bytes :=
  utf8 "\"" ++ (Utf8.glyphs text).flatMap style.glyph ++ utf8 "\""

mutual

def write (style : Style) : Json → Bytes
  | .null => utf8 "null"
  | .bool true => utf8 "true"
  | .bool false => utf8 "false"
  | .number literal => literal
  | .string s => style.quote s
  | .array items => utf8 "[" ++ Bytes.join (utf8 ",") (writeItems style items) ++ utf8 "]"
  | .object members =>
      utf8 "\x7b" ++ Bytes.join (utf8 ",") (writeMembers style members) ++ utf8 "\x7d"

def writeItems (style : Style) : List Json → List Bytes
  | [] => []
  | item :: rest => write style item :: writeItems style rest

def writeMembers (style : Style) : List (Bytes × Json) → List Bytes
  | [] => []
  | (key, value) :: rest =>
      (style.quote key ++ utf8 ":" ++ write style value) :: writeMembers style rest

end

def newline (level : Nat) : Bytes := utf8 "\n" ++ List.replicate (2 * level) 32

def bracketed (opening closing : Bytes) (level : Nat) (parts : List Bytes) : Bytes :=
  if parts.isEmpty then opening ++ closing
  else opening ++ newline (level + 1) ++ Bytes.join (utf8 "," ++ newline (level + 1)) parts ++
    newline level ++ closing

mutual

/-- A document with every item and member on a line of its own, indented by `level`. -/
def pretty (style : Style) (level : Nat) : Json → Bytes
  | .array items => bracketed (utf8 "[") (utf8 "]") level (prettyItems style (level + 1) items)
  | .object members =>
      bracketed (utf8 "\x7b") (utf8 "\x7d") level (prettyMembers style (level + 1) members)
  | .null => utf8 "null"
  | .bool b => write style (.bool b)
  | .number literal => literal
  | .string s => style.quote s

def prettyItems (style : Style) (level : Nat) : List Json → List Bytes
  | [] => []
  | item :: rest => pretty style level item :: prettyItems style level rest

def prettyMembers (style : Style) (level : Nat) : List (Bytes × Json) → List Bytes
  | [] => []
  | (key, value) :: rest =>
      (style.quote key ++ utf8 ": " ++ pretty style level value) :: prettyMembers style level rest

end

def isNumberByte (b : UInt8) : Bool :=
  (48 ≤ b && b ≤ 57) || b == 45 || b == 43 || b == 46 || b == 101 || b == 69

def digits (text : Bytes) : Bytes × Bytes := text.span fun b => 48 ≤ b && b ≤ 57

/-- A number as JSON writes it: no leading zeros, digits on both sides of the point. -/
def isNumber (text : Bytes) : Bool :=
  let unsigned := match text with
    | 45 :: rest => rest
    | _ => text
  let (whole, rest) := digits unsigned
  let wholeOk := match whole with
    | [] => false
    | [_] => true
    | first :: _ => first != 48
  let (fractionOk, rest) := match rest with
    | 46 :: more => (!(digits more).1.isEmpty, (digits more).2)
    | _ => (true, rest)
  let exponentOk := match rest with
    | [] => true
    | e :: more =>
        let unsignedExponent := match more with
          | 43 :: d => d
          | 45 :: d => d
          | _ => more
        (e == 101 || e == 69) && !unsignedExponent.isEmpty && (digits unsignedExponent).2.isEmpty
  wholeOk && fractionOk && exponentOk

def pairValue (high low : Nat) : Nat := 0x10000 + (high - 0xD800) * 0x400 + (low - 0xDC00)

def lowSurrogate? : List Glyph → Option Nat
  | slash :: u :: digits => do
      if slash.char = '\\' && u.char = 'u' then
        let low ← Quoted.hexNumber? 4 digits
        if 0xDC00 ≤ low && low < 0xE000 then some low else none
      else none
  | _ => none

/-- The text that an escape stands for, and how many characters after `letter` belong to it. A
surrogate without its partner reads as the replacement character. -/
def escape (letter : Char) (rest : List Glyph) : Option (Bytes × Nat) :=
  match letter with
  | '"' => some (utf8 "\"", 0)
  | '\\' => some (utf8 "\\", 0)
  | '/' => some (utf8 "/", 0)
  | 'b' => some ([8], 0)
  | 'f' => some ([12], 0)
  | 'n' => some ([10], 0)
  | 'r' => some ([13], 0)
  | 't' => some ([9], 0)
  | 'u' => (Quoted.hexNumber? 4 rest).map fun high =>
      if Quoted.isScalar high then (Utf8.encode (Char.ofNat high), 4)
      else if 0xDC00 ≤ high then (Utf8.encode Utf8.replacement, 4)
      else match lowSurrogate? (rest.drop 4) with
        | some low => (Utf8.encode (Char.ofNat (pairValue high low)), 10)
        | none => (Utf8.encode Utf8.replacement, 4)
  | _ => none

/-- Reads the rest of a string up to its closing quote; `skip` characters belong to an escape
already read. -/
def readString : (skip : Nat) → List Glyph → Option (Bytes × List Glyph)
  | _, [] => none
  | skip + 1, _ :: rest => readString skip rest
  | 0, g :: rest =>
      if g.char = '"' then some ([], rest)
      else if g.char.toNat < 0x20 then none
      else if g.char != '\\' then do
        let (text, after) ← readString 0 rest
        return (Utf8.encode g.char ++ text, after)
      else match rest with
        | [] => none
        | letter :: more => do
            let (out, used) ← escape letter.char more
            let (text, after) ← readString (used + 1) rest
            return (out ++ text, after)

def skipSpace (text : List Glyph) : List Glyph :=
  text.dropWhile fun g => g.char = ' ' || g.char = '\t' || g.char = '\n' || g.char = '\r'

def word? (word : List Char) (text : List Glyph) : Option (List Glyph) :=
  if (text.take word.length).map (·.char) = word then some (text.drop word.length) else none

mutual

/-- Reads one value, nested at most `fuel` levels deep. -/
def readValue : (fuel : Nat) → List Glyph → Option (Json × List Glyph)
  | 0, _ => none
  | fuel + 1, text =>
      match skipSpace text with
      | [] => none
      | g :: rest =>
          match g.char with
          | '\x7b' =>
              match skipSpace rest with
              | close :: after =>
                  if close.char = '\x7d' then some (.object [], after)
                  else (readMembers fuel (close :: after)).map fun r => (.object r.1, r.2)
              | [] => none
          | '[' =>
              match skipSpace rest with
              | close :: after =>
                  if close.char = ']' then some (.array [], after)
                  else (readItems fuel (close :: after)).map fun r => (.array r.1, r.2)
              | [] => none
          | '"' => (readString 0 rest).map fun r => (.string r.1, r.2)
          | _ =>
              match word? "null".toList (g :: rest), word? "true".toList (g :: rest),
                word? "false".toList (g :: rest) with
              | some after, _, _ => some (.null, after)
              | _, some after, _ => some (.bool true, after)
              | _, _, some after => some (.bool false, after)
              | _, _, _ =>
                  let (literal, after) := (g :: rest).span fun g =>
                    g.bytes.all isNumberByte
                  let literal := literal.flatMap (·.bytes)
                  if isNumber literal then some (.number literal, after) else none

def readItems : (fuel : Nat) → List Glyph → Option (List Json × List Glyph)
  | 0, _ => none
  | fuel + 1, text => do
      let (item, rest) ← readValue fuel text
      match skipSpace rest with
      | g :: after =>
          if g.char = ',' then do
            let (items, rest) ← readItems fuel after
            return (item :: items, rest)
          else if g.char = ']' then return ([item], after)
          else none
      | [] => none

def readMembers : (fuel : Nat) → List Glyph → Option (List (Bytes × Json) × List Glyph)
  | 0, _ => none
  | fuel + 1, text =>
      match skipSpace text with
      | quote :: rest =>
          if quote.char = '"' then do
            let (key, rest) ← readString 0 rest
            match skipSpace rest with
            | colon :: rest =>
                if colon.char = ':' then do
                  let (value, rest) ← readValue fuel rest
                  match skipSpace rest with
                  | g :: after =>
                      if g.char = ',' then do
                        let (members, rest) ← readMembers fuel after
                        return ((key, value) :: members, rest)
                      else if g.char = '\x7d' then return ([(key, value)], after)
                      else none
                  | [] => none
                else none
            | [] => none
          else none
      | [] => none

end

def parse? (text : Bytes) : Option Json :=
  match readValue (text.length + 1) (Utf8.glyphs text) with
  | some (value, rest) => if (skipSpace rest).isEmpty then some value else none
  | none => none

def get? (key : Bytes) : Json → Option Json
  | .object members => ((members.filter fun m => m.1 == key).getLast?).map (·.2)
  | _ => none

end Json

end Inlay
