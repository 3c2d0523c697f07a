import Inlay.Value.Equality
import Inlay.Descriptor.Html

/-!
Members of values: the items of lists and texts, the values of maps and the fields of descriptors.
-/

namespace Inlay.Value

/-- The integer part of a number; one too large for 64 bits is the smallest integer. -/
def truncated (x : Float) : Int64 :=
  if -9223372036854775808.0 ≤ x && x < 9223372036854775808.0 then x.toInt64 else Int64.minValue

def toInt? : Value → Option Int64
  | .float x => some (truncated x)
  | v => v.toInteger?

/-- The item at an index, counted from the end if it is negative. -/
def itemAt? {α : Type} (items : List α) (index : Int) : Option α :=
  let index := if index < 0 then items.length + index else index
  if index < 0 then none else items[index.toNat]?

def fieldNames : List Bytes := ["Kind", "Type", "Props", "Children", "Text"].map utf8

def field? (d : Descriptor) (name : Bytes) : Option Value :=
  if name = utf8 "Kind" then some (.nodeKind d.kind)
  else if name = utf8 "Type" then some (.string d.type)
  else if name = utf8 "Props" then some (match d.props with
    | some entries => .map entries
    | none => .noMap)
  else if name = utf8 "Children" then some (ofNodes d.children)
  else if name = utf8 "Text" then some (.string d.text)
  else if name = utf8 "HTML" then some (.method (some (.string d.html)))
  else if name = utf8 "WriteHTML" then some (.method none)
  else none

/-- A function that belongs to a descriptor that is not there; it gives no answer. -/
def absentMethod? (name : Bytes) : Option Value :=
  if name = utf8 "HTML" || name = utf8 "WriteHTML" then some (.method none) else none

def kindMethod? (kind : Kind) (name : Bytes) : Option Value :=
  if name = utf8 "String" then some (.method (some (.string kind.name)))
  else if name = utf8 "MarshalText" then some (.method (some (.bytes kind.name)))
  else none

/-- A key of a map; nothing is the empty key. -/
def key? : Value → Option Bytes
  | .string name => some name
  | .null => some []
  | _ => none

/-- A member of a value: the item at an index or the value of a key, which is nothing if the key is
not there. The item of a text is a byte. -/
def member? (base key : Value) : Option Value :=
  let item {α : Type} (items : List α) : Option α := key.toInt?.bind fun n => itemAt? items n.toInt
  match base with
  | .map entries => key.key?.map fun name => (findEntry entries name).getD .null
  | .noMap => key.key?.map fun _ => .null
  | .list items => item items
  | .ints items => (item items).map .int
  | .string s => (item s).map .byte
  | .bytes b => (item b).map .byte
  | .nodes items => (item items).map ofNode?
  | .node d =>
      match key with
      | .string name => field? d name
      | _ => none
  | .noNode =>
      match key with
      | .string name => absentMethod? name
      | _ => none
  | .nodeKind k =>
      match key with
      | .string name => kindMethod? k name
      | _ => none
  | _ => none

/-- The length of a value: of a text, the number of its characters. -/
def length? : Value → Option Nat
  | .string s => some (Utf8.chars s).length
  | .bytes b => some b.length
  | .list items => some items.length
  | .ints items => some items.length
  | .map entries => some entries.length
  | .noMap => some 0
  | .nodes items => some items.length
  | _ => none

/-- Whether a value is in another one: among its items, its keys or the names of its fields. Nothing
is in nothing, and no descriptor that is there is an item of a list. -/
def isIn? (v container : Value) : Option Bool :=
  match container with
  | .null | .noNode => some false
  | .list items => some (match v with
      | .node _ => false
      | _ => items.any fun item => same item v)
  | .ints items => some (items.any fun item => same (.int item) v)
  | .bytes b => some (b.any fun item => same (.byte item) v)
  | .nodes items => some (v.isNothing && items.any Option.isNone)
  | .map entries => v.key?.map fun name => (findEntry entries name).isSome
  | .noMap => v.key?.map fun _ => false
  | .node _ =>
      match v with
      | .string name => some (fieldNames.contains name)
      | _ => none
  | _ => none

end Inlay.Value
