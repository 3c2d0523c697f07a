import Inlay.Value
import Inlay.Data.Json
import Inlay.Text.Base64

/-!
Values and descriptors as JSON documents. Maps are written with sorted keys, and bytes in base64; a
number that is infinite or undefined has no JSON form, so a value that holds one has none either.
-/

namespace Inlay

def presentMembers (members : List (Bytes × Option Json)) : List (Bytes × Json) :=
  members.filterMap fun m => m.2.map fun value => (m.1, value)

mutual

def Value.toJson? : Value → Option Json
  | .null => some .null
  | .bool b => some (.bool b)
  | .int n => some (.number (Bytes.ofInt n.toInt))
  | .long n => some (.number (Bytes.ofInt n.toInt))
  | .unsigned n => some (.number (Bytes.ofNat n.toNat))
  | .byte b => some (.number (Bytes.ofNat b.toNat))
  | .float x => if Number.isFinite x then some (.number (Number.Layout.json.text x)) else none
  | .string s => some (.string s)
  | .bytes b => some (.string (Base64.encode b))
  | .time t => some (.string (t.format Log.Timestamp.preciseLayout))
  | .list items => (listToJson? items).map .array
  | .ints items => some (.array (items.map fun n => .number (Bytes.ofInt n.toInt)))
  | .map entries => (entriesToJson? entries).map fun members => .object (sortEntries members)
  | .noMap => some .null
  | .node d => Descriptor.toJson? d
  | .noNode => some .null
  | .nodes [] => some .null
  | .nodes (item :: rest) => (itemsToJson? (item :: rest)).map .array
  | .nodeKind k => some (.string k.name)
  | .method _ => none

def listToJson? : List Value → Option (List Json)
  | [] => some []
  | v :: rest => do
      let first ← Value.toJson? v
      let others ← listToJson? rest
      return first :: others

def entriesToJson? : List (Bytes × Value) → Option (List (Bytes × Json))
  | [] => some []
  | (key, v) :: rest => do
      let first ← Value.toJson? v
      let others ← entriesToJson? rest
      return (key, first) :: others

def Descriptor.toJson? : Descriptor → Option Json
  | .mk kind type props children text => do
      let props ← match props with
        | none => some none
        | some [] => some none
        | some (entry :: rest) =>
            (entriesToJson? (entry :: rest)).map fun members => some (.object (sortEntries members))
      let children ← match children with
        | [] => some none
        | child :: rest => (descriptorsToJson? (child :: rest)).map fun items => some (.array items)
      return .object (presentMembers [
        (utf8 "kind", some (.string kind.name)),
        (utf8 "type", if type.isEmpty then none else some (.string type)),
        (utf8 "props", props),
        (utf8 "children", children),
        (utf8 "text", if text.isEmpty then none else some (.string text))])

def descriptorsToJson? : List Descriptor → Option (List Json)
  | [] => some []
  | d :: rest => do
      let first ← Descriptor.toJson? d
      let others ← descriptorsToJson? rest
      return first :: others

def itemsToJson? : List (Option Descriptor) → Option (List Json)
  | [] => some []
  | none :: rest => (itemsToJson? rest).map (.null :: ·)
  | some d :: rest => do
      let first ← Descriptor.toJson? d
      let others ← itemsToJson? rest
      return first :: others

end

end Inlay
