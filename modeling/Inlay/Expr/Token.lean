import Inlay.Text.Blank
import Inlay.Text.Letter
import Inlay.Text.Quoted

/-!
Tokens of expressions: numbers, strings, names and signs. The words that work as operators are signs
too. Comments and white space separate tokens.
-/

namespace Inlay.Expr

/-- The smallest part of an expression that has a meaning. -/
inductive Token where
  | number (text : List Char)
  | string (value : Bytes)
  | name (name : Bytes)
  | sign (text : String)
  deriving DecidableEq, Repr

namespace Token

def isNameLetter (c : Char) : Bool := c = '_' || c = '$' || isLetter c

def isNameChar (c : Char) : Bool := isNameLetter c || isDecimalDigit c

def words : List String :=
  ["not", "in", "or", "and", "matches", "contains", "startsWith", "endsWith", "let", "if", "else"]

def ofWord (word : List Char) : Token :=
  if words.contains (String.ofList word) then .sign (String.ofList word)
  else .name (Utf8.ofChars word)

def numbered (n : Nat) : Option Bytes :=
  if n < 0x110000 then
    some (Utf8.encode (if Quoted.isScalar n then Char.ofNat n else Utf8.replacement))
  else none

def hexNumber? (digits : List Glyph) : Option Nat :=
  digits.foldlM (fun n g => (Quoted.hexValue? g.char).map (n * 16 + ·)) 0

def hexEscape (places : Nat) (rest : List Glyph) : Option (Bytes × Nat) :=
  let digits := rest.take places
  if digits.length < places then none
  else ((hexNumber? digits).bind numbered).map fun text => (text, places)

def bracedEscape (rest : List Glyph) : Option (Bytes × Nat) :=
  let digits := (rest.take 7).takeWhile (·.char != '\x7d')
  if digits.isEmpty || 6 < digits.length || (rest.drop digits.length).isEmpty then none
  else ((hexNumber? digits).bind numbered).map fun text => (text, digits.length + 2)

def escape (quote letter : Char) (rest : List Glyph) : Option (Bytes × Nat) :=
  match letter with
  | 'a' => some ([7], 0)
  | 'b' => some ([8], 0)
  | 'f' => some ([12], 0)
  | 'n' => some ([10], 0)
  | 'r' => some ([13], 0)
  | 't' => some ([9], 0)
  | 'v' => some ([11], 0)
  | '\\' => some (utf8 "\\", 0)
  | 'x' => hexEscape 2 rest
  | 'u' =>
      match rest with
      | ⟨'\x7b', _⟩ :: more => bracedEscape more
      | _ => hexEscape 4 rest
  | 'U' => hexEscape 8 rest
  | _ =>
      if letter = quote then some (Utf8.encode letter, 0)
      else if '0' ≤ letter && letter ≤ '3' then
        match rest with
        | c1 :: c0 :: _ => do
            let mid ← Quoted.octalValue? c1.char
            let low ← Quoted.octalValue? c0.char
            let text ← numbered ((letter.toNat - 48) * 64 + mid * 8 + low)
            return (text, 2)
        | _ => none
      else none

/-- Reads the rest of a string up to its closing quote; `skip` characters belong to an escape
already read. A string ends on its line. -/
def scanString (quote : Char) : (skip : Nat) → List Glyph → Option (Bytes × List Glyph)
  | _, [] => none
  | skip + 1, _ :: rest => scanString quote skip rest
  | 0, ⟨c, _⟩ :: rest =>
      if c = quote then some ([], rest)
      else if c = '\n' then none
      else if c = '\\' then
        match rest with
        | [] => none
        | ⟨letter, _⟩ :: more => do
            let (out, used) ← escape quote letter more
            let (text, after) ← scanString quote (used + 1) rest
            return (out ++ text, after)
      else do
        let (text, after) ← scanString quote 0 rest
        return (Utf8.encode c ++ text, after)

/-- The characters up to the closing backquote, those after it, and whether a backquote among them
was written twice. -/
def splitRaw : List Glyph → Option (List Glyph × List Glyph × Bool)
  | [] => none
  | ⟨'`', _⟩ :: ⟨'`', b⟩ :: rest =>
      (splitRaw rest).map fun (text, after, _) => (⟨'`', b⟩ :: text, after, true)
  | ⟨'`', _⟩ :: rest => some ([], rest, false)
  | g :: rest => (splitRaw rest).map fun (text, after, doubled) => (g :: text, after, doubled)

/-- Reads the rest of a string between backquotes. Its bytes are kept, unless a backquote in it is
written twice; then bad bytes are replaced. -/
def scanRaw (text : List Glyph) : Option (Bytes × List Glyph) :=
  (splitRaw text).map fun (inner, after, doubled) =>
    (if doubled then Utf8.ofChars (inner.map (·.char)) else inner.flatMap (·.bytes), after)

def afterComment : List Glyph → Option (List Glyph)
  | [] => none
  | ⟨'*', _⟩ :: ⟨'/', _⟩ :: rest => some rest
  | _ :: rest => afterComment rest

/-- The digits of a number that begins with these characters, and how many characters say so. -/
def digitsOf : List Glyph → List Char × Nat
  | ⟨'0', _⟩ :: ⟨c, _⟩ :: _ =>
      if c = 'x' || c = 'X' then ("0123456789abcdefABCDEF_".toList, 2)
      else if c = 'o' || c = 'O' then ("01234567_".toList, 2)
      else if c = 'b' || c = 'B' then ("01_".toList, 2)
      else ("0123456789_".toList, 0)
  | _ => ("0123456789_".toList, 0)

def spanDigits (digits : List Char) (text : List Glyph) : List Char × List Glyph :=
  let (run, rest) := text.span fun g => digits.contains g.char
  (run.map (·.char), rest)

def splitExponent (digits : List Char) (text : List Glyph) : List Char × List Glyph :=
  match text with
  | ⟨c, _⟩ :: rest =>
      if c = 'e' || c = 'E' then
        let (plusMinus, rest) := match rest with
          | ⟨'+', _⟩ :: more => (['+'], more)
          | ⟨'-', _⟩ :: more => (['-'], more)
          | _ => ([], rest)
        let (run, after) := spanDigits digits rest
        (c :: plusMinus ++ run, after)
      else ([], text)
  | [] => ([], [])

/-- Splits off a number. Two points after digits are a sign of their own; a name must not follow. -/
def scanNumber (text : List Glyph) : Option (List Char × List Glyph) :=
  let (digits, lead) := digitsOf text
  let (run, rest) := spanDigits digits (text.drop lead)
  let whole := (text.take lead).map (·.char) ++ run
  match rest with
  | ⟨'.', _⟩ :: ⟨'.', _⟩ :: _ => some (whole, rest)
  | _ =>
      let (fraction, rest) := match rest with
        | ⟨'.', _⟩ :: more => ('.' :: (spanDigits digits more).1, (spanDigits digits more).2)
        | _ => ([], rest)
      let (exponent, rest) := splitExponent digits rest
      if (rest.head?.map fun g => isNameChar g.char).getD false then none
      else some (whole ++ fraction ++ exponent, rest)

def numberAfter (read : List Char) (text : List Glyph) : Option (Option Token × List Glyph) :=
  (scanNumber text).map fun (run, rest) => (some (.number (read ++ run)), rest)

/-- A sign of one character, or of two if the next one is among `more`. -/
def signOf (c : Char) (more : List Char) (rest : List Glyph) : Option Token × List Glyph :=
  match rest with
  | ⟨d, _⟩ :: after =>
      if more.contains d then (some (.sign (String.ofList [c, d])), after)
      else (some (.sign (String.ofList [c])), rest)
  | [] => (some (.sign (String.ofList [c])), [])

def wordFrom (c : Char) (rest : List Glyph) : Option Token × List Glyph :=
  let (run, after) := rest.span fun g => isNameChar g.char
  (some (ofWord (c :: run.map (·.char))), after)

def next (c : Char) (rest : List Glyph) : Option (Option Token × List Glyph) :=
  if isBlank c then some (none, rest)
  else if c = '\'' || c = '"' then
    (scanString c 0 rest).map fun (value, after) => (some (.string value), after)
  else if c = '`' then (scanRaw rest).map fun (value, after) => (some (.string value), after)
  else if '0' ≤ c && c ≤ '9' then numberAfter [] (⟨c, Utf8.encode c⟩ :: rest)
  else if c = '?' then some (signOf c ['.', '?'] rest)
  else if c = '/' then
    match rest with
    | ⟨'/', _⟩ :: more => some (none, more.dropWhile (·.char != '\n'))
    | ⟨'*', _⟩ :: more => (afterComment more).map fun after => (none, after)
    | _ => some (some (.sign "/"), rest)
  else if c = '|' then some (signOf c ['|'] rest)
  else if c = ':' then some (signOf c [':'] rest)
  else if "([\x7b)]\x7d,;%+-^".toList.contains c then
    some (some (.sign (String.ofList [c])), rest)
  else if "&!=*<>".toList.contains c then some (signOf c ['&', '=', '*'] rest)
  else if c = '.' then
    if (rest.head?.map (·.char.isDigit)).getD false then numberAfter ['.'] rest
    else some (signOf c ['.'] rest)
  else if isNameChar c then some (wordFrom c rest)
  else none

/-- The tokens of a text; each takes at least one of the `fuel` characters. -/
def scanWithin : (fuel : Nat) → List Glyph → Option (List Token)
  | _, [] => some []
  | 0, _ => none
  | fuel + 1, ⟨c, _⟩ :: rest => do
      let (token, after) ← next c rest
      let more ← scanWithin fuel after
      return match token with
        | some token => token :: more
        | none => more

def scan (text : List Glyph) : Option (List Token) := scanWithin text.length text

end Token

end Inlay.Expr
