import Inlay.Value.Yaml
import Inlay.Data.Yaml.Reader

/-!
Configuration documents. A document of settings is a mapping whose keys are the names of flags; keys
of nested mappings are joined by hyphens, and underscores stand for hyphens.
-/

namespace Inlay

abbrev FlagTable := List (Bytes × Yaml)

namespace FlagTable

def flagName (key : Bytes) : Bytes := key.map fun b => if b == 95 then 45 else b

def nested (outer key : Bytes) : Bytes :=
  if outer.isEmpty then flagName key else outer ++ utf8 "-" ++ flagName key

mutual

/-- A value that flags can read: numbers are texts. -/
def scalar : Yaml → Yaml
  | .int n => .string (Bytes.ofInt n)
  | .word n => .string (Bytes.ofInt n.toInt)
  | .float x => .string (Number.Layout.plain.text x)
  | .list items => .list (scalars items)
  | .null => .null
  | .bool b => .bool b
  | .string s => .string s
  | .bytes b => .bytes b
  | .time t => .time t
  | .map entries => .map entries

def scalars : List Yaml → List Yaml
  | [] => []
  | item :: rest => scalar item :: scalars rest

end

mutual

/-- The table with the values of a mapping below `outer`, one entry after the other. -/
def flatten (outer : Bytes) (table : FlagTable) : List (Bytes × Yaml) → FlagTable
  | [] => table
  | (key, value) :: rest => flatten outer (put (nested outer key) table value) rest

def put (name : Bytes) (table : FlagTable) : Yaml → FlagTable
  | .map entries => flatten name table entries
  | .null => putEntry table name .null
  | .bool b => putEntry table name (.bool b)
  | .int n => putEntry table name (scalar (.int n))
  | .word n => putEntry table name (scalar (.word n))
  | .float x => putEntry table name (scalar (.float x))
  | .string s => putEntry table name (.string s)
  | .bytes b => putEntry table name (.bytes b)
  | .time t => putEntry table name (.time t)
  | .list items => putEntry table name (scalar (.list items))

end

def ofEntries (entries : List (Bytes × Yaml)) : FlagTable := flatten [] [] entries

def parse? (text : Bytes) : Option FlagTable := do
  return ofEntries (← Yaml.read? text)

end FlagTable

end Inlay
