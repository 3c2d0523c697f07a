import Inlay.Value
import Inlay.Data.Yaml

/-!
Values and descriptors as YAML documents, and documents as values. Maps are written with sorted
keys.
-/

namespace Inlay

mutual

def Value.toYaml : Value → Yaml
  | .null => .null
  | .bool b => .bool b
  | .int n => .int n.toInt
  | .long n => .int n.toInt
  | .unsigned n => .int n.toNat
  | .byte b => .int b.toNat
  | .float x => .float x
  | .string s => .string s
  | .bytes b => .list (b.map fun n => .int n.toNat)
  | .list items => .list (listToYaml items)
  | .ints items => .list (items.map fun n => .int n.toInt)
  | .map entries => .map (sortEntries (entriesToYaml entries))
  | .noMap => .map []
  | .node d => Descriptor.toYaml d
  | .noNode => .null
  | .nodes items => .list (itemsToYaml items)
  | .nodeKind k => .string k.name
  | .time t => .time t
  | .method _ => .null

def listToYaml : List Value → List Yaml
  | [] => []
  | v :: rest => Value.toYaml v :: listToYaml rest

def entriesToYaml : List (Bytes × Value) → List (Bytes × Yaml)
  | [] => []
  | (key, v) :: rest => (key, Value.toYaml v) :: entriesToYaml rest

def Descriptor.toYaml : Descriptor → Yaml
  | .mk kind type props children text =>
      .map ([(utf8 "kind", Yaml.string kind.name)] ++
        (if type.isEmpty then [] else [(utf8 "type", .string type)]) ++
        (match props with
          | none => []
          | some [] => []
          | some (entry :: rest) =>
              [(utf8 "props", .map (sortEntries (entriesToYaml (entry :: rest))))]) ++
        (match children with
          | [] => []
          | child :: rest => [(utf8 "children", .list (descriptorsToYaml (child :: rest)))]) ++
        (if text.isEmpty then [] else [(utf8 "text", .string text)]))

def descriptorsToYaml : List Descriptor → List Yaml
  | [] => []
  | d :: rest => Descriptor.toYaml d :: descriptorsToYaml rest

def itemsToYaml : List (Option Descriptor) → List Yaml
  | [] => []
  | none :: rest => .null :: itemsToYaml rest
  | some d :: rest => Descriptor.toYaml d :: itemsToYaml rest

end

namespace Yaml

mutual

def toValue : Yaml → Value
  | .null => .null
  | .bool b => .bool b
  | .int n => if n < 0 then .long (Int64.ofInt n) else .unsigned (UInt64.ofNat n.toNat)
  | .word n => .int n
  | .float x => .float x
  | .string s => .string s
  | .bytes b => .bytes b
  | .time t => .time t
  | .list items => .list (toValues items)
  | .map entries => .map (toEntries entries)

def toValues : List Yaml → List Value
  | [] => []
  | item :: rest => toValue item :: toValues rest

def toEntries : List (Bytes × Yaml) → List (Bytes × Value)
  | [] => []
  | (key, value) :: rest => (key, toValue value) :: toEntries rest

end

end Yaml

end Inlay
