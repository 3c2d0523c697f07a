import Inlay.Rendering.Config
import Inlay.Text.Blank
import Inlay.Markup.Tag

/-!
Code of trees. A tag becomes a call of the function for its kind with its name, its attributes and
its body as arguments; a leaf becomes a string literal or an expression. Each part can be rendered
by a hook in its place. Texts of the host language go through `expand`, which renders the fragments
in them.
-/

namespace Inlay

def quoteChar (c : Char) : Bytes :=
  if c = '\\' then utf8 "\\\\"
  else if c = '\'' then utf8 "\\'"
  else if c = '\n' then utf8 "\\n"
  else if c = '\r' then utf8 "\\r"
  else Utf8.encode c

def quote (text : Bytes) : Bytes :=
  utf8 "'" ++ (Utf8.chars text).flatMap quoteChar ++ utf8 "'"

/-- The name of a property, quoted unless it is an identifier. -/
def propName (name : Bytes) : Bytes :=
  match Utf8.chars name with
  | [] => quote name
  | first :: rest =>
      if (first :: rest).all isIdentifierChar && !first.isDigit then name else quote name

def tabs (n : Int) : Bytes := List.replicate n.toNat 9

/-- A rendering under settings; `expand` renders the fragments in a text of the host language. -/
structure Renderer where
  config : Config
  expand : Bytes → RenderM Bytes

namespace Renderer

def defaultType (name : Bytes) : Bytes := quote name

def type (r : Renderer) (name : Bytes) (node : Node) : RenderM Bytes :=
  match r.config.hooks.type with
  | some hook => hook r.config.labels name node
  | none => pure (defaultType name)

def value (r : Renderer) (v : AttributeValue) : RenderM Bytes :=
  if v.raw then r.expand v.text else pure (quote v.text)

def prop (r : Renderer) (item : Attribute) : RenderM Bytes := do
  if item.spread then
    let text ← r.expand item.value.text
    return utf8 "..." ++ text
  else
    let text ← r.value item.value
    return propName item.name ++ utf8 ": " ++ text

def defaultProps (r : Renderer) (attributes : Attributes) : RenderM Bytes :=
  if attributes.list.isEmpty then pure (utf8 "null")
  else do
    let props ← attributes.list.mapM r.prop
    return utf8 "\x7b" ++ Bytes.join (utf8 ", ") props ++ utf8 "\x7d"

def props (r : Renderer) (attributes : Attributes) (node : Node) : RenderM Bytes :=
  match r.config.hooks.props with
  | some hook => hook attributes node (r.defaultProps attributes)
  | none => r.defaultProps attributes

/-- Renderings of children as the last argument of a call, each on a line of its own. -/
def layOutChildren (depth : Int) (children : List Bytes) : Bytes :=
  if children.isEmpty then utf8 ",\n" ++ tabs depth ++ utf8 "null\n" ++ tabs (depth - 1) ++ utf8 ")"
  else utf8 ",[" ++
    Bytes.join (utf8 ",") (children.map fun child => utf8 "\n" ++ tabs depth ++ child) ++
    utf8 "\n" ++ tabs (depth - 1) ++ utf8 "])"

def defaultChildren (node : Node) (each : List (RenderM Bytes)) : RenderM Bytes := do
  let children ← each.mapM id
  return layOutChildren node.depth children

def childrenWith (r : Renderer) (children : List Node) (node : Node) (each : List (RenderM Bytes)) :
    RenderM Bytes :=
  match r.config.hooks.children with
  | some hook => hook children node each (defaultChildren node each)
  | none => defaultChildren node each

/-- A character that goes from a body that is a single expression. -/
def isLineSpace (c : Char) : Bool := c = '\t' || c = '\n' || c = '\r'

def dropBraces (text : Bytes) : Bytes :=
  if 2 ≤ text.length && text.head? = some 0x7B && text.getLast? = some 0x7D then
    text.tail.dropLast
  else text

/-- A body that is a single expression, as the last argument of a call: on one line, without its
braces. -/
def rawBody (r : Renderer) (node : Node) : RenderM Bytes := do
  let text ← r.expand node.raw
  let line := Utf8.ofChars ((Utf8.chars text).filter fun c => !isLineSpace c)
  return utf8 ",\n" ++ tabs node.depth ++ dropBraces line ++ utf8 "\n" ++ tabs (node.depth - 1) ++
    utf8 ")"

/-- A call up to its last argument, which brings the closing parenthesis. -/
def call (label type props children : Bytes) : Bytes :=
  label ++ utf8 "(" ++ type ++ utf8 ", " ++ props ++ children

def defaultElement (labels : Labels) (type props children : Bytes) : Bytes :=
  call labels.element type props children

def defaultComponent (labels : Labels) (type props children : Bytes) : Bytes :=
  call labels.component type props children

def element (r : Renderer) (type props children : Bytes) (node : Node) : RenderM Bytes :=
  match r.config.hooks.element with
  | some hook => hook r.config.labels type props children node
  | none => pure (defaultElement r.config.labels type props children)

def component (r : Renderer) (type props children : Bytes) (node : Node) : RenderM Bytes :=
  match r.config.hooks.component with
  | some hook => hook r.config.labels type props children node
  | none => pure (defaultComponent r.config.labels type props children)

def defaultText (labels : Labels) (content : Bytes) : Bytes :=
  if labels.text.isEmpty then content else labels.text ++ utf8 "(" ++ content ++ utf8 ")"

def text (r : Renderer) (content : Bytes) (node : Node) : RenderM Bytes :=
  match r.config.hooks.text with
  | some hook => hook r.config.labels content node
  | none => pure (defaultText r.config.labels content)

def leaf (r : Renderer) (node : Node) : RenderM Bytes := do
  let content ← if node.expr then r.expand node.text else pure (quote node.text)
  r.text content node

def defaultNodeWith (r : Renderer) (node : Node) (each : List (RenderM Bytes)) : RenderM Bytes :=
  if node.kind = .text then r.leaf node
  else do
    let type ← r.type node.name node
    let props ← r.props node.attributes node
    let children ← if node.isRaw then r.rawBody node else r.childrenWith node.children node each
    if node.kind = .component then r.component type props children node
    else r.element type props children node

def nodeWith (r : Renderer) (node : Node) (each : List (RenderM Bytes)) : RenderM Bytes :=
  match r.config.hooks.node with
  | some hook => hook node (r.defaultNodeWith node each)
  | none => r.defaultNodeWith node each

mutual

def node (r : Renderer) : Node → RenderM Bytes
  | ⟨kind, name, attributes, children, raw, text, expr, depth, void, pos⟩ =>
      r.nodeWith ⟨kind, name, attributes, children, raw, text, expr, depth, void, pos⟩
        (r.nodes children)

def nodes (r : Renderer) : List Node → List (RenderM Bytes)
  | [] => []
  | first :: rest => r.node first :: r.nodes rest

end

def defaultNode (r : Renderer) (node : Node) : RenderM Bytes :=
  r.defaultNodeWith node (r.nodes node.children)

def children (r : Renderer) (children : List Node) (node : Node) : RenderM Bytes :=
  r.childrenWith children node (r.nodes children)

end Renderer

end Inlay
