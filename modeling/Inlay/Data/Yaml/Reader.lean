import Inlay.Data.Yaml.Date
import Inlay.Data.Yaml.Node
import Inlay.Text.Base64
import Inlay.Value.Yaml

/-!
YAML documents from text. The trees of all documents in a text are read, and aliases stand for the
parts that have their name at that point; the first document that holds anything counts.
-/

namespace Inlay.Yaml

abbrev Anchors := List (List Char × Yaml)

def text (value : Yaml) : Bytes := (toValue value).text

/-- The integer that a text stands for: the nearest one of 64 bits, and zero if it is no integer. -/
def wordOf (text : Bytes) : Int64 :=
  let (negative, digits) := match text with
    | 45 :: rest => (true, rest)
    | 43 :: rest => (false, rest)
    | _ => (false, text)
  match Bytes.toNat? digits with
  | none => 0
  | some n =>
      if negative then Int64.ofInt (-(min n 9223372036854775808 : Nat))
      else Int64.ofInt (min n 9223372036854775807 : Nat)

/-- The number that a text stands for: a decimal literal, or a word for a number that is not
finite. -/
def floatOfText? (text : Bytes) : Option Float :=
  let (negative, size) := match text with
    | 45 :: rest => (true, rest)
    | 43 :: rest => (false, rest)
    | _ => (false, text)
  let word := Bytes.asciiLower size
  if word = utf8 "inf" || word = utf8 "infinity" then some (if negative then -1 / 0 else 1 / 0)
  else if Bytes.asciiLower text = utf8 "nan" then some (0 / 0)
  else Number.parse? text

def floatOf : Yaml → Yaml
  | .int n => .float (Float.ofInt n)
  | .word n => .float n.toFloat
  | .float x => .float x
  | .string s => .float ((floatOfText? s).getD 0)
  | _ => .word 0

def truthOf? (value : Yaml) : Option Bool :=
  let word := Bytes.asciiLower value.text
  if (["1", "t", "true", "yes"].map utf8).contains word then some true
  else if (["0", "f", "false", "no"].map utf8).contains word then some false
  else none

/-- The value that a tag makes of another one. Tags with no meaning here change nothing. -/
def retag? (tag : List Char) (value : Yaml) : Option Yaml :=
  if tag = "!!int".toList then some (.word (wordOf value.text))
  else if tag = "!!float".toList then some (floatOf value)
  else if tag = "!!bool".toList then (truthOf? value).map .bool
  else if tag = "!!null".toList then some .null
  else if tag = "!!str".toList then
    match value with
    | .null => some (.string [])
    | _ => some (.string value.text)
  else if tag = "!!binary".toList then
    match value with
    | .string s => some (.bytes (Base64.decode s))
    | _ => none
  else if tag = "!!timestamp".toList then
    let found := match value with
      | .string s => time? s
      | .time t => some t
      | _ => none
    some (.time (found.getD ⟨1, 1, 1, 0, 0, 0, 0, 0, utf8 "UTC"⟩))
  else some value

/-- The entries of a mapping with those of other mappings; later ones replace earlier ones. -/
def mergeAll (entries : List (Bytes × Yaml)) : List Yaml → Option (List (Bytes × Yaml))
  | [] => some entries
  | .map more :: rest => mergeAll (more.foldl (fun all e => putEntry all e.1 e.2) entries) rest
  | _ :: _ => none

def merge? (entries : List (Bytes × Yaml)) : Yaml → Option (List (Bytes × Yaml))
  | .list items => mergeAll entries items
  | value => mergeAll entries [value]

/-- The name that a key stands for; nothing is a word in mappings inside of others. -/
def keyName (outermost : Bool) : Yaml → Bytes
  | .null => if outermost then [] else utf8 "null"
  | .bytes b => if outermost then b else text (.bytes b)
  | key => key.text

mutual

/-- The document that a tree stands for, and the parts that have a name behind it. A part with a
name that stands inside of itself is nothing there. -/
def ofNode (outermost : Bool) (anchors : Anchors) : Node → Option (Yaml × Anchors)
  | .scalar value => some (value, anchors)
  | .merge => some (.null, anchors)
  | .directive => some (.null, anchors)
  | .reference name => (anchors.lookup name).map fun value => (value, anchors)
  | .anchor name node => do
      let (value, anchors) ← ofNode outermost ((name, .null) :: anchors) node
      some (value, (name, value) :: anchors)
  | .tagged tag node => do
      let (value, anchors) ← ofNode outermost anchors node
      some (← retag? tag value, anchors)
  | .mapping entries => do
      let (entries, anchors) ← ofEntries outermost anchors [] entries
      some (.map entries, anchors)
  | .sequence items => do
      let (items, anchors) ← ofItemNodes anchors items
      some (.list items, anchors)

def ofItemNodes (anchors : Anchors) : List Node → Option (List Yaml × Anchors)
  | [] => some ([], anchors)
  | node :: rest => do
      let (item, anchors) ← ofNode false anchors node
      let (items, anchors) ← ofItemNodes anchors rest
      some (item :: items, anchors)

def ofEntries (outermost : Bool) (anchors : Anchors) (read : List (Bytes × Yaml)) :
    List (Node × Node) → Option (List (Bytes × Yaml) × Anchors)
  | [] => some (read, anchors)
  | (key, node) :: rest => do
      if key.isMerge then
        let (value, anchors) ← ofNode outermost anchors node
        ofEntries outermost anchors (← merge? read value) rest
      else
        let (key, anchors) ← ofNode false anchors key
        let (value, anchors) ← ofNode false anchors node
        ofEntries outermost anchors (putEntry read (keyName outermost key) value) rest

end

/-- The documents that trees stand for, without those that hold nothing. A document that says so, as
with the word for nothing, holds something. -/
def ofNodes (anchors : Anchors) : List (Option Node) → Option (List Yaml)
  | [] => some []
  | none :: rest => ofNodes anchors rest
  | some node :: rest => do
      let (value, anchors) ← ofNode true anchors node
      let others ← ofNodes anchors rest
      match value, node with
      | .null, .scalar _ => some (value :: others)
      | .null, _ => some others
      | _, _ => some (value :: others)

/-- The entries of the mapping that a text holds; a text without a document has none. -/
def read? (text : Bytes) : Option (List (Bytes × Yaml)) := do
  match ← ofNodes [] (← Node.parse? text) with
  | [] => some []
  | .map entries :: _ => some entries
  | _ :: _ => none

end Inlay.Yaml
