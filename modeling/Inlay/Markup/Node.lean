import Inlay.Markup.Kind
import Inlay.Text.Mark
import Inlay.Data.Json

/-!
Trees of markup. A node is a tag with its attributes and body, or a leaf: literal text or an
expression of the host language.
-/

namespace Inlay

/-- The value of an attribute: a literal, or an expression of the host language if it is raw. -/
structure AttributeValue where
  text : Bytes
  raw : Bool
  deriving DecidableEq, Repr, Inhabited

/-- An attribute of a tag. A spread stands for all attributes that its expression has. -/
structure Attribute where
  name : Bytes := []
  value : AttributeValue
  spread : Bool := false
  deriving DecidableEq, Repr, Inhabited

structure Attributes where
  list : List Attribute := []
  deriving DecidableEq, Repr, Inhabited

namespace Attributes

/-- The attribute in place of the one with its name, or at the end if there is none. -/
def replaceIn (item : Attribute) : List Attribute → List Attribute
  | [] => [item]
  | first :: rest =>
      if !first.spread && first.name = item.name then item :: rest
      else first :: replaceIn item rest

/-- The attributes after one is set: a spread is added, a named one takes the place of the one with
its name. -/
def set (attributes : Attributes) (item : Attribute) : Attributes :=
  if item.spread then ⟨attributes.list ++ [item]⟩ else ⟨replaceIn item attributes.list⟩

def get? (attributes : Attributes) (name : Bytes) : Option Attribute :=
  attributes.list.find? fun a => !a.spread && a.name = name

/-- Attributes with an index: the place of each name, so that a name is found without a search. -/
structure Indexed extends Attributes where
  index : List (Bytes × Nat) := []
  deriving DecidableEq, Repr, Inhabited

namespace Indexed

def set (table : Indexed) (item : Attribute) : Indexed :=
  if item.spread then { table with list := table.list ++ [item] }
  else match table.index.lookup item.name with
    | some place => { table with list := table.list.set place item }
    | none =>
        { list := table.list ++ [item], index := (item.name, table.list.length) :: table.index }

def get? (table : Indexed) (name : Bytes) : Option Attribute :=
  match table.index.lookup name with
  | some place => table.list[place]?
  | none => none

end Indexed

end Attributes

/-- A node of a tree. A tag has a name and attributes, and as its body either children or, if the
body is a single expression, that expression with its braces. A leaf has a text. -/
structure Node where
  kind : Kind
  name : Bytes := []
  attributes : Attributes := {}
  children : List Node := []
  raw : Bytes := []
  text : Bytes := []
  expr : Bool := false
  depth : Int := 0
  void : Bool := false
  pos : Position := {}
  deriving Inhabited

namespace Node

def isRaw (node : Node) : Bool := !node.raw.isEmpty

def leaf (text : Bytes) (expr : Bool) (depth : Int) (pos : Position) : Node :=
  { kind := .text, text, expr, depth, void := true, pos }

mutual

def preorder (node : Node) : List Node :=
  match node with
  | ⟨kind, name, attributes, children, raw, text, expr, depth, void, pos⟩ =>
      ⟨kind, name, attributes, children, raw, text, expr, depth, void, pos⟩ :: preorders children

def preorders : List Node → List Node
  | [] => []
  | node :: rest => preorder node ++ preorders rest

end

mutual

/-- Visits the nodes of a tree, each before its children, until `visit` says no; the result tells
whether it never did. -/
def walk {σ : Type} (visit : Node → σ → Bool × σ) (node : Node) (state : σ) : Bool × σ :=
  match node with
  | ⟨kind, name, attributes, children, raw, text, expr, depth, void, pos⟩ =>
      match visit ⟨kind, name, attributes, children, raw, text, expr, depth, void, pos⟩ state with
      | (true, state) => walkAll visit children state
      | (false, state) => (false, state)

def walkAll {σ : Type} (visit : Node → σ → Bool × σ) : List Node → σ → Bool × σ
  | [], state => (true, state)
  | node :: rest, state =>
      match walk visit node state with
      | (true, state) => walkAll visit rest state
      | (false, state) => (false, state)

end

end Node

def Position.toJson (pos : Position) : Json :=
  .object [(utf8 "offset", .number (Bytes.ofInt pos.offset)),
    (utf8 "line", .number (Bytes.ofInt pos.line)),
    (utf8 "column", .number (Bytes.ofInt pos.column))]

def Json.ofMembers (members : List (String × Option Json)) : Json :=
  .object (members.filterMap fun m => m.2.map fun value => (utf8 m.1, value))

def Json.nonEmpty (text : Bytes) : Option Json := if text.isEmpty then none else some (.string text)

def Json.ifTrue (b : Bool) : Option Json := if b then some (.bool true) else none

def Attribute.toJson (a : Attribute) : Json :=
  .ofMembers [("name", Json.nonEmpty a.name),
    ("value",
      some (.object [(utf8 "text", .string a.value.text), (utf8 "raw", .bool a.value.raw)])),
    ("spread", Json.ifTrue a.spread)]

namespace Node

mutual

def toJson : Node → Json
  | ⟨kind, name, attributes, children, raw, text, expr, depth, void, pos⟩ =>
      .ofMembers [("kind", some (.string kind.name)),
        ("name", Json.nonEmpty name),
        ("attributes", some (.array (attributes.list.map Attribute.toJson))),
        ("children", match children with
          | [] => none
          | child :: rest => some (.array (toJsons (child :: rest)))),
        ("raw", Json.nonEmpty raw),
        ("text", Json.nonEmpty text),
        ("expr", Json.ifTrue expr),
        ("depth", some (.number (Bytes.ofInt depth))),
        ("void", Json.ifTrue void),
        ("pos", some pos.toJson)]

def toJsons : List Node → List Json
  | [] => []
  | node :: rest => toJson node :: toJsons rest

end

end Node

end Inlay
