import Inlay.Log.Timestamp
import Inlay.Markup.Kind
import Inlay.Number.Layout

/-!
Dynamic values, as expressions compute them, configuration documents hold them and log records
carry them, and the descriptors that evaluated markup consists of.
-/

namespace Inlay

mutual

/-- A value known only when it is computed. Maps are lists of entries with distinct keys. -/
inductive Value where
  | null
  | bool (b : Bool)
  | int (n : Int64)
  /-- An integer with a sign, as documents hold those below zero. -/
  | long (n : Int64)
  /-- An integer without a sign, as documents hold all others. -/
  | unsigned (n : UInt64)
  | byte (b : UInt8)
  | float (x : Float)
  | string (s : Bytes)
  | bytes (b : Bytes)
  | time (t : Log.Timestamp)
  | list (items : List Value)
  /-- A list of numbers that a range has made. -/
  | ints (items : List Int64)
  | map (entries : List (Bytes × Value))
  /-- The properties of a node that was given none. -/
  | noMap
  | node (d : Descriptor)
  | noNode
  /-- A list of nodes, such as the children of one; some of them may not be there. -/
  | nodes (items : List (Option Descriptor))
  | nodeKind (k : Kind)
  /-- A function that belongs to a node or a kind, with what it answers to a call without
  arguments. -/
  | method (answer : Option Value)

/-- One evaluated node: a tag with its properties and children, or a piece of text. -/
inductive Descriptor where
  | mk (kind : Kind) (type : Bytes) (props : Option (List (Bytes × Value)))
      (children : List Descriptor) (text : Bytes)

end

instance : Inhabited Value := ⟨.null⟩
instance : Inhabited Descriptor := ⟨.mk .text [] none [] []⟩

namespace Descriptor

def kind : Descriptor → Kind
  | mk kind _ _ _ _ => kind

def type : Descriptor → Bytes
  | mk _ type _ _ _ => type

/-- The properties, `none` for a node that was given none. -/
def props : Descriptor → Option (List (Bytes × Value))
  | mk _ _ props _ _ => props

def children : Descriptor → List Descriptor
  | mk _ _ _ children _ => children

def text : Descriptor → Bytes
  | mk _ _ _ _ text => text

end Descriptor

def sortEntries {α : Type} (entries : List (Bytes × α)) : List (Bytes × α) :=
  entries.mergeSort fun a b => Bytes.le a.1 b.1

/-- Entries with the value of `key` set to `value`, in place if the key is there. -/
def putEntry {α : Type} (entries : List (Bytes × α)) (key : Bytes) (value : α) : List (Bytes × α) :=
  match entries with
  | [] => [(key, value)]
  | (k, v) :: rest => if k = key then (key, value) :: rest else (k, v) :: putEntry rest key value

def findEntry {α : Type} (entries : List (Bytes × α)) (key : Bytes) : Option α :=
  (entries.find? fun e => e.1 == key).map (·.2)

namespace Value

def mapText (entries : List (Bytes × Bytes)) : Bytes :=
  utf8 "map[" ++
    Bytes.join (utf8 " ") ((sortEntries entries).map fun e => e.1 ++ utf8 ":" ++ e.2) ++ utf8 "]"

mutual

/-- A value as text: lists in brackets with spaces between the items, maps with sorted keys. -/
def text : Value → Bytes
  | .null => utf8 "<nil>"
  | .bool true => utf8 "true"
  | .bool false => utf8 "false"
  | .int n => Bytes.ofInt n.toInt
  | .long n => Bytes.ofInt n.toInt
  | .unsigned n => Bytes.ofNat n.toNat
  | .byte b => Bytes.ofNat b.toNat
  | .float x => Number.Layout.general.text x
  | .string s => s
  | .bytes b => utf8 "[" ++ Bytes.join (utf8 " ") (b.map fun n => Bytes.ofNat n.toNat) ++ utf8 "]"
  | .time t => t.text
  | .list items => utf8 "[" ++ Bytes.join (utf8 " ") (texts items) ++ utf8 "]"
  | .ints items =>
      utf8 "[" ++ Bytes.join (utf8 " ") (items.map fun n => Bytes.ofInt n.toInt) ++ utf8 "]"
  | .map entries => mapText (entryTexts entries)
  | .noMap => mapText []
  | .node d => nodeText d
  | .noNode => utf8 "<nil>"
  | .nodes items => utf8 "[" ++ Bytes.join (utf8 " ") (itemTexts items) ++ utf8 "]"
  | .nodeKind k => k.name
  | .method _ => utf8 "method"

def texts : List Value → List Bytes
  | [] => []
  | v :: rest => text v :: texts rest

def entryTexts : List (Bytes × Value) → List (Bytes × Bytes)
  | [] => []
  | (key, v) :: rest => (key, text v) :: entryTexts rest

def nodeText : Descriptor → Bytes
  | .mk kind type props children content =>
      utf8 "&\x7b" ++ kind.name ++ utf8 " " ++ type ++ utf8 " " ++
        (match props with
          | none => utf8 "map[]"
          | some entries => mapText (entryTexts entries)) ++
        utf8 " [" ++ Bytes.join (utf8 " ") (nodeTexts children) ++ utf8 "] " ++
        content ++ utf8 "\x7d"

def nodeTexts : List Descriptor → List Bytes
  | [] => []
  | d :: rest => nodeText d :: nodeTexts rest

def itemTexts : List (Option Descriptor) → List Bytes
  | [] => []
  | none :: rest => utf8 "<nil>" :: itemTexts rest
  | some d :: rest => nodeText d :: itemTexts rest

end

def ofNode? : Option Descriptor → Value
  | some d => .node d
  | none => .noNode

def ofNodes (items : List Descriptor) : Value := .nodes (items.map some)

end Value

end Inlay
