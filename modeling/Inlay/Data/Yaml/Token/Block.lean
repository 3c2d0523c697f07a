import Inlay.Data.Yaml.Token
import Inlay.Number.Literal

/-!
Texts of several lines that are set off by their margin. The first line with content tells where the
margin is, unless the header of the text does.
-/

namespace Inlay.Yaml

/-- The characters of a token that is not complete, the latest first. The last `spare` of them are
blanks, which count only if more characters follow. -/
structure Held where
  chars : List Char := []
  spare : Nat := 0
  deriving DecidableEq, Repr, Inhabited

namespace Held

def kept (held : Held) : List Char := held.chars.drop held.spare

def isEmpty (held : Held) : Bool := held.kept.isEmpty

def add (held : Held) (c : Char) : Held :=
  if held.chars.isEmpty && Token.isGap c then held
  else { chars := c :: held.chars, spare := if Token.isGap c then held.spare + 1 else 0 }

def addTab (held : Held) (c : Char) : Held :=
  if held.chars.isEmpty && c = ' ' then held
  else { chars := c :: held.chars, spare := if c = ' ' then held.spare + 1 else 0 }

def trimmed (held : Held) : Held := { chars := held.kept }

end Held

/-- How the lines of a text belong together: as they are, as one line, or as one line that began
outside of the text. -/
inductive Block.Style where
  | literal
  | folded
  | running
  deriving DecidableEq, Repr, Inhabited

/-- A text of several lines while it is read. Columns count from one, and zero is no column:
`margin` is that of the first line, `current` that of this line, `previous` that of the line before,
`filled` that of the last line with content, and `bare` the width of the last line of spaces before
any content. -/
structure Block where
  style : Block.Style
  ending : List Char := []
  margin : Nat := 0
  current : Nat := 0
  previous : Nat := 0
  filled : Nat := 0
  bare : Nat := 0
  broken : Bool := false
  deriving DecidableEq, Repr, Inhabited

namespace Block

def asks (block : Block) (sign : Char) : Bool :=
  block.ending.head? = some sign || block.ending.getLast? = some sign

def strips (block : Block) : Bool := block.asks '-' || block.style = .running

def keeps (block : Block) : Bool := block.asks '+'

def size (header : List Char) : List Char :=
  let dropFirst (sign : Char) (text : List Char) :=
    if text.head? = some sign then text.drop 1 else text
  let dropFinal (sign : Char) (text : List Char) :=
    if text.getLast? = some sign then text.dropLast else text
  dropFinal '+' (dropFinal '-' (dropFirst '+' (dropFirst '-' header)))

/-- The width of the margin that a header gives; zero if it gives none. -/
def width? (header : List Char) : Option Nat :=
  let size := size header
  if size.isEmpty then some 0
  else if size = ['0'] then none
  else do
    let n ← Number.parseInt? (Utf8.ofChars size)
    if n ≤ 9 then some n.toNat else none

/-- The text that has been read. A line break at its end is kept if there is any content. -/
def content (block : Block) (held : Held) : List Char :=
  let kept := held.kept
  let breaks := (kept.takeWhile (· = '\n')).length
  let kept := if block.strips then (kept.drop breaks).dropWhile (· = ' ')
    else if block.keeps then kept else kept.drop (breaks - 1)
  let kept := if kept = ['\n'] then [] else kept
  if kept.isEmpty && block.keeps then ['\n'] else kept.reverse

def inMargin (block : Block) (column : Nat) : Bool :=
  if block.margin = 0 then column = 1 else column < block.margin

def enter (block : Block) (column : Nat) : Block :=
  { block with
    margin := if block.margin = 0 then column else block.margin
    current := if block.current = 0 then column else block.current }

def fits (block : Block) : Bool :=
  !(0 < (width? block.ending).getD 0 && block.current < block.margin)

def leave (block : Block) (column : Nat) : Block :=
  { block with
    bare := if block.margin = 0 then column - 1 else block.bare
    previous := block.current
    filled := if block.current = 0 then block.filled else block.current
    broken := true
    current := 0 }

/-- A space at the start of a line: behind the margin it counts. -/
def indent (block : Block) (held : Held) (column : Nat) : Block × Held :=
  if block.margin = 0 || column < block.margin then (block, held)
  else
    ({ block with broken := block.style = .literal && block.broken },
      { chars := ' ' :: held.chars, spare := 0 })

/-- Joins a line with content to the lines before it: a single line break between lines of one
margin becomes a space. -/
def join (block : Block) (held : Held) (column : Nat) : Block × Held :=
  if block.style = .literal || !block.broken then (block, held)
  else
    let held := if block.current = block.previous then
        match held.chars with
        | '\n' :: rest => { held with chars := ' ' :: rest }
        | _ => held
      else if block.previous = 0 && block.filled = column then
        match held.chars with
        | '\n' :: '\n' :: rest => { chars := '\n' :: rest, spare := 0 }
        | _ => held
      else held
    ({ block with broken := false }, held)

end Block

end Inlay.Yaml
