import Inlay.Data.Json
import Inlay.Log.Timestamp
import Inlay.Number.Layout
import Inlay.Number.Literal

/-!
YAML documents, as configuration files and listings hold them: mappings keep the order of their
keys.
-/

namespace Inlay

/-- A YAML document. Integers have 64 bits, with or without a sign as they need it; a word is an
integer that a tag asks for, which has a sign. -/
inductive Yaml where
  | null
  | bool (b : Bool)
  | int (n : Int)
  | word (n : Int64)
  | float (x : Float)
  | string (s : Bytes)
  | bytes (b : Bytes)
  | time (t : Log.Timestamp)
  | list (items : List Yaml)
  | map (entries : List (Bytes × Yaml))
  deriving Inhabited

namespace Yaml

/-- A number of a JSON document: an integer, unless it is written as a fraction or power. -/
def ofNumber (literal : Bytes) : Yaml :=
  match Number.parseInt? literal with
  | some n => .int n
  | none => .float ((Number.parse? literal).getD 0)

mutual

def ofJson : Json → Yaml
  | .null => .null
  | .bool b => .bool b
  | .number literal => ofNumber literal
  | .string s => .string s
  | .array items => .list (ofItems items)
  | .object members => .map (ofMembers members)

def ofItems : List Json → List Yaml
  | [] => []
  | item :: rest => ofJson item :: ofItems rest

def ofMembers : List (Bytes × Json) → List (Bytes × Yaml)
  | [] => []
  | (key, value) :: rest => (key, ofJson value) :: ofMembers rest

end

end Yaml

end Inlay
