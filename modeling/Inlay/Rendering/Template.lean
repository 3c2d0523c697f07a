import Inlay.Rendering.Code

/-!
Templates: hooks that write a text with names in braces replaced. All templates know the kind, name,
depth and place of the node, and the text that would be rendered without the hook; some know more.
-/

namespace Inlay.Template

abbrev Entry := Bytes × Bytes

def slot (name : String) : Bytes := utf8 "\x7b" ++ utf8 name ++ utf8 "\x7d"

def entry (name : String) (text : Bytes) : Entry := (slot name, text)

def truth (b : Bool) : Bytes := if b then utf8 "true" else utf8 "false"

/-- Replaces the names in a text from left to right, not those in the replacements; `skip` bytes
belong to a name already replaced. -/
def fillFrom (entries : List Entry) : (skip : Nat) → Bytes → Bytes
  | _, [] => []
  | skip + 1, _ :: rest => fillFrom entries skip rest
  | 0, byte :: rest =>
      match entries.find? fun e => e.1.isPrefixOf (byte :: rest) with
      | some (name, text) => text ++ fillFrom entries (name.length - 1) rest
      | none => byte :: fillFrom entries 0 rest

def nodeEntries (node : Node) : List Entry :=
  [entry "kind" node.kind.name, entry "name" node.name, entry "depth" (Bytes.ofInt node.depth),
    entry "void" (truth node.void), entry "expr" (truth node.expr),
    entry "israw" (truth node.isRaw), entry "pos" node.pos.text]

/-- An entry that is computed only if the template uses it. -/
def compute (template : Bytes) (name : String) (text : RenderM Bytes) : RenderM (List Entry) :=
  if Bytes.contains template (slot name) then do
    let text ← text
    return [entry name text]
  else pure []

def fill (template : Bytes) (node : Node) (known computed : List Entry) : Bytes :=
  fillFrom (nodeEntries node ++ known ++ computed) 0 template

def write (template : Bytes) (node : Node) (known : List Entry) (usual : RenderM Bytes) :
    RenderM Bytes := do
  let computed ← compute template "default" usual
  return fill template node known computed

def hook? (part : Bytes) (template : Bytes) : Option Hook :=
  if part = utf8 "type" then some <| .type fun _ name node =>
    write template node [entry "arg" name] (pure (Renderer.defaultType name))
  else if part = utf8 "text" then some <| .text fun labels content node =>
    write template node [entry "arg" content] (pure (Renderer.defaultText labels content))
  else if part = utf8 "props" then some <| .props fun attributes node usual =>
    write template node [entry "len" (Bytes.ofNat attributes.list.length)] usual
  else if part = utf8 "children" then some <| .children fun children node each usual => do
    let joined ← compute template "each" do
      let parts ← each.mapM id
      return Bytes.join (utf8 ", ") parts
    write template node (entry "len" (Bytes.ofNat children.length) :: joined) usual
  else if part = utf8 "node" then some <| .node fun node usual => write template node [] usual
  else if part = utf8 "element" then some <| .element fun labels type props children node =>
    write template node [entry "typ" type, entry "props" props, entry "children" children]
      (pure (Renderer.defaultElement labels type props children))
  else if part = utf8 "component" then some <| .component fun labels type props children node =>
    write template node [entry "typ" type, entry "props" props, entry "children" children]
      (pure (Renderer.defaultComponent labels type props children))
  else none

end Inlay.Template
