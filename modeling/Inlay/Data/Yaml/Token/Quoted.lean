import Inlay.Data.Yaml.Token
import Inlay.Text.Quoted

/-!
Quoted scalars. Their lines are joined as those of plain text are: one line break is a space, and
each further one stands for itself.
-/

namespace Inlay.Yaml.Quotation

/-- The character with a number; a number without one gives the replacement character. -/
def character (code : Int) : Char :=
  let n := (code.emod 0x100000000).toNat
  if Quoted.isScalar n then Char.ofNat n else Char.ofNat 0xFFFD

def digit (c : Char) : Int :=
  if 'A' ≤ c && c ≤ 'F' then (c.toNat : Int) - 55
  else if 'a' ≤ c && c ≤ 'f' then (c.toNat : Int) - 87
  else (c.toNat : Int) - 48

def number (places : Nat) (text : List Char) : Int :=
  (text.take places).foldl (fun n c => n * 16 + digit c) 0

/-- The character with the number in four places. A number that is the first half of a pair needs
the other half behind it. The length counts the letter and what belongs to it. -/
def pair? (rest : List Char) : Option (Char × Nat) :=
  let high := number 4 rest
  if rest.length < 4 then none
  else if !(0xD800 ≤ high && high ≤ 0xDBFF) then some (character high, 5)
  else
    let low := number 4 (rest.drop 6)
    if rest.length < 10 || (rest.drop 4).take 2 != ['\\',
      'u'] || low < 0xDC00 || 0xDFFF < low then none
    else some (character ((high - 0xD800) * 0x400 + (low - 0xDC00) + 0x10000), 11)

def escape? (letter : Char) (rest : List Char) : Option (Char × Nat) :=
  match letter with
  | '0' => some ('\x00', 1)
  | 'a' => some ('\x07', 1)
  | 'b' => some ('\x08', 1)
  | 't' => some ('\t', 1)
  | '\t' => some ('\t', 1)
  | 'n' => some ('\n', 1)
  | 'v' => some ('\x0b', 1)
  | 'f' => some ('\x0c', 1)
  | 'r' => some ('\r', 1)
  | 'e' => some ('\x1b', 1)
  | ' ' => some (' ', 1)
  | '"' => some ('"', 1)
  | '/' => some ('/', 1)
  | '\\' => some ('\\', 1)
  | 'N' => some (Char.ofNat 0x85, 1)
  | '_' => some (Char.ofNat 0xA0, 1)
  | 'L' => some (Char.ofNat 0x2028, 1)
  | 'P' => some (Char.ofNat 0x2029, 1)
  | 'x' => if rest.length < 2 then some ('x', 1) else some (character (number 2 rest), 3)
  | 'u' => pair? rest
  | 'U' => if rest.length < 8 then none else some (character (number 8 rest), 9)
  | _ => none

/-- A quoted scalar while it is read: its text with the latest character first, where the next
character stands, and whether only blanks came before it in its line. -/
structure Reading where
  text : List Char := []
  line : Nat
  column : Nat
  lineStart : Bool := false
  deriving DecidableEq, Repr, Inhabited

def Reading.break (r : Reading) : Reading :=
  { text := (if r.lineStart then '\n' else ' ') :: r.text.dropWhile (· = ' ')
    line := r.line + 1, column := 1, lineStart := true }

def Reading.add (r : Reading) (c : Char) (length : Nat) : Reading :=
  { r with text := c :: r.text, column := r.column + length, lineStart := false }

/-- Reads up to the closing quote. Gives the scalar as it is then, and what follows the quote;
`edge` is the column that further lines have to pass before a tab. -/
def read (quote : Char) (edge : Nat) : (fuel : Nat) → Reading → List Char →
    Option (Reading × List Char)
  | 0, _, _ => none
  | _, _, [] => none
  | fuel + 1, r, c :: rest =>
      if Token.isBreak c then
        if Token.atMarker rest then none else read quote edge fuel r.break rest
      else if r.lineStart && c = ' ' then
        read quote edge fuel { r with column := r.column + 1 } rest
      else if r.lineStart && c = '\t' then
        if r.column ≤ edge then none
        else read quote edge fuel { r with column := r.column + 1 } rest
      else if quote = '"' && c = '\\' then
        match rest with
        | [] => none
        | '\n' :: more =>
            read quote edge fuel { r with line := r.line + 1, column := 1, lineStart := true } more
        | '\r' :: '\n' :: more =>
            read quote edge fuel { r with line := r.line + 1, column := 1, lineStart := true } more
        | '\r' :: more =>
            read quote edge fuel { r with line := r.line + 1, column := 1, lineStart := true } more
        | letter :: more => do
            let (found, length) ← escape? letter more
            read quote edge fuel (r.add found (length + 1)) (rest.drop length)
      else if c = quote then
        match rest with
        | '\'' :: more =>
            if quote = '\'' then
              read quote edge fuel { r with text := '\'' :: r.text, column := r.column + 2 } more
            else some ({ r with column := r.column + 1 }, rest)
        | _ => some ({ r with column := r.column + 1 }, rest)
      else read quote edge fuel (r.add c 1) rest

end Inlay.Yaml.Quotation
