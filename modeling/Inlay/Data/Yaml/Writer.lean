import Inlay.Data.Yaml.Scalar
import Inlay.Text.Base64

/-!
YAML documents as text. Mappings are indented by two spaces below their key, lists are not; a string
is written plainly if it reads as itself, its lines below a bar if it has several, and quoted
otherwise.
-/

namespace Inlay.Yaml

def indent (column : Nat) : Bytes := List.replicate column 32

/-- The line break of a text: the one that all of its lines end with, or else the more frequent
one. -/
def lineBreak (text : Bytes) : Bytes :=
  let feeds := text.count 10
  let returns := text.count 13
  let pairs := (Bytes.split (utf8 "\r\n") text).length - 1
  if feeds = pairs && returns = pairs then utf8 "\r\n"
  else if feeds < returns then utf8 "\r"
  else utf8 "\n"

/-- The header of lines below a bar: what happens to the line breaks at the end. -/
def blockHeader (lineEnd text : Bytes) : Bytes :=
  if Bytes.endsWith text (lineEnd ++ lineEnd) then utf8 "|+"
  else if Bytes.endsWith text lineEnd then utf8 "|"
  else utf8 "|-"

/-- A string whose key or list mark stands at `column`. -/
def stringText (column : Nat) (text : Bytes) : Bytes :=
  if needsQuotes text then Quoted.encode text
  else
    let lineEnd := lineBreak text
    if Bytes.contains text lineEnd then
      let margin := indent (column + 2)
      let lines := Bytes.join lineEnd ((Bytes.split lineEnd text).map (margin ++ ·))
      blockHeader lineEnd text ++ lineEnd ++
        Bytes.dropEnding (Bytes.dropEnding lines (lineEnd ++ margin)) margin
    else text

def floatText (x : Float) : Bytes :=
  let text := Number.Layout.general.text x
  if text = utf8 "NaN" then utf8 ".nan"
  else if text = utf8 "+Inf" then utf8 ".inf"
  else if text = utf8 "-Inf" then utf8 "-.inf"
  else if text.any (fun b => b == 46 || b == 101) then text
  else text ++ utf8 ".0"

/-- A line without the margin it was written with, behind the margin of the list; one that is no
longer than its margin is empty. -/
def itemLine (column margin : Nat) (line : Bytes) : Bytes :=
  if line.length ≤ margin then [] else indent (column + 2) ++ line.drop margin

def itemText (column : Nat) (isString : Bool) (text : Bytes) : Bytes :=
  match Bytes.split (utf8 "\n") text with
  | [] => []
  | first :: rest =>
      let head := first.dropWhile (· == 32)
      let rest := if isString then
        rest.map fun line => (Bytes.dropStart? (indent (column + 2)) line).getD line else rest
      indent column ++ utf8 "- " ++
        Bytes.join (utf8 "\n") (head :: rest.map (itemLine column (first.length - head.length)))

mutual

def block (column : Nat) : Yaml → Bytes
  | .null => utf8 "null"
  | .bool true => utf8 "true"
  | .bool false => utf8 "false"
  | .int n => Bytes.ofInt n
  | .word n => Bytes.ofInt n.toInt
  | .float x => floatText x
  | .string s => stringText column s
  | .bytes b => utf8 "!!binary " ++ Base64.encode b
  | .time t => t.format Log.Timestamp.preciseLayout
  | .list [] => utf8 "[]"
  | .list (item :: rest) => Bytes.join (utf8 "\n") (blockItems column (item :: rest))
  | .map [] => utf8 "\x7b\x7d"
  | .map (entry :: rest) => Bytes.join (utf8 "\n") (blockEntries column (entry :: rest))

def blockItems (column : Nat) : List Yaml → List Bytes
  | [] => []
  | item :: rest =>
      let isString := match item with
        | .string _ => true
        | _ => false
      itemText column isString (block column item) :: blockItems column rest

def blockEntries (column : Nat) : List (Bytes × Yaml) → List Bytes
  | [] => []
  | (key, value) :: rest =>
      let value := match value with
        | .map (entry :: more) => utf8 ":\n" ++ block (column + 2) (.map (entry :: more))
        | .list (item :: more) => utf8 ":\n" ++ block column (.list (item :: more))
        | value => utf8 ": " ++ block column value
      (indent column ++ stringText column key ++ value) :: blockEntries column rest

end

def write (document : Yaml) : Bytes := block 0 document ++ utf8 "\n"

end Inlay.Yaml
