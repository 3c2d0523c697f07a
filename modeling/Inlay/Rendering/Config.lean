import Inlay.Rendering.Session
import Inlay.Markup.Node

/-!
Settings of a rendering: labels, hooks, strategy and modes. Settings are changed step by step, and
an extension changes several of them by name.
-/

namespace Inlay

/-- A hook on a text: the name of a tag, or the content of a leaf. -/
abbrev TextHook := Labels → Bytes → Node → RenderM Bytes

abbrev PropsHook := Attributes → Node → RenderM Bytes → RenderM Bytes

/-- A hook on the children of a tag, given each of them and what would be rendered without it. -/
abbrev ChildrenHook := List Node → Node → List (RenderM Bytes) → RenderM Bytes → RenderM Bytes

abbrev NodeHook := Node → RenderM Bytes → RenderM Bytes

abbrev CallHook := Labels → Bytes → Bytes → Bytes → Node → RenderM Bytes

structure Hooks where
  type : Option TextHook := none
  props : Option PropsHook := none
  children : Option ChildrenHook := none
  node : Option NodeHook := none
  element : Option CallHook := none
  component : Option CallHook := none
  text : Option TextHook := none

def Hooks.isEmpty (hooks : Hooks) : Bool :=
  hooks.type.isNone && hooks.props.isNone && hooks.children.isNone && hooks.node.isNone &&
    hooks.element.isNone && hooks.component.isNone && hooks.text.isNone

structure Config where
  logger : Log.Logger := .silent
  labels : Labels := {}
  hooks : Hooks := {}
  strategy : Strategy := .scoped
  strict : Bool := false
  cache : Bool := false

instance : Inhabited Config := ⟨{}⟩

abbrev Adjustment := Config → Config

def Config.make (steps : List Adjustment) : Config :=
  steps.foldl (fun config step => step config) {}

/-- Renderings may be remembered: hooks could give another one each time. -/
def Config.cacheable (config : Config) : Bool := config.cache && config.hooks.isEmpty

def Config.cacheKey (config : Config) (text : Bytes) : CacheKey :=
  ⟨text, config.labels, config.strategy, config.strict⟩

namespace Adjustment

def componentLabel (label : Bytes) : Adjustment := fun c => { c with labels.component := label }

def elementLabel (label : Bytes) : Adjustment := fun c => { c with labels.element := label }

def textLabel (label : Bytes) : Adjustment := fun c => { c with labels.text := label }

def label (label : Bytes) : Adjustment := fun c => { c with labels := ⟨label, label, []⟩ }

def strict (strict : Bool) : Adjustment := fun c => { c with strict }

def cache (cache : Bool) : Adjustment := fun c => { c with cache }

def strategy (strategy : Strategy) : Adjustment := fun c => { c with strategy }

def logger (logger : Log.Logger) : Adjustment := fun c => { c with logger }

def config (config : Config) : Adjustment := fun _ => config

end Adjustment

inductive Hook where
  | type (hook : TextHook)
  | props (hook : PropsHook)
  | children (hook : ChildrenHook)
  | node (hook : NodeHook)
  | element (hook : CallHook)
  | component (hook : CallHook)
  | text (hook : TextHook)

namespace Hook

def adjustment (hook : Hook) : Adjustment := fun c =>
  match hook with
  | .type hook => { c with hooks.type := some hook }
  | .props hook => { c with hooks.props := some hook }
  | .children hook => { c with hooks.children := some hook }
  | .node hook => { c with hooks.node := some hook }
  | .element hook => { c with hooks.element := some hook }
  | .component hook => { c with hooks.component := some hook }
  | .text hook => { c with hooks.text := some hook }

def part : Hook → String
  | .type _ => "type"
  | .props _ => "props"
  | .children _ => "children"
  | .node _ => "node"
  | .element _ => "element"
  | .component _ => "component"
  | .text _ => "text"

/-- The hook for another part, if the part gives hooks the same arguments. -/
def moveTo? (part : Bytes) : Hook → Option Hook
  | .type hook => if part = utf8 "type" then some (.type hook)
      else if part = utf8 "text" then some (.text hook) else none
  | .text hook => if part = utf8 "type" then some (.type hook)
      else if part = utf8 "text" then some (.text hook) else none
  | .element hook => if part = utf8 "element" then some (.element hook)
      else if part = utf8 "component" then some (.component hook) else none
  | .component hook => if part = utf8 "element" then some (.element hook)
      else if part = utf8 "component" then some (.component hook) else none
  | .props hook => if part = utf8 "props" then some (.props hook) else none
  | .children hook => if part = utf8 "children" then some (.children hook) else none
  | .node hook => if part = utf8 "node" then some (.node hook) else none

end Hook

/-- A value that an extension gives to a name. -/
inductive ExtensionItem where
  | label (text : Bytes)
  /-- A hook. One that is bound to its part serves no other. -/
  | hook (hook : Hook) (bound : Bool) (typeName : Bytes)
  | other (typeName : Bytes)

/-- Several settings at once. -/
inductive Extension where
  | nothing
  | label (text : Bytes)
  | table (items : List (Bytes × ExtensionItem))
  | other (typeName : Bytes)

namespace Extension

def parts : List Bytes :=
  ["type", "props", "children", "node", "element", "component", "text"].map utf8

def unknown (name : Bytes) : Problem :=
  Problem.unknownOption.withAttrs [Log.Attr.string "option" name]

def invalid (name typeName : Bytes) : Problem :=
  if parts.contains name then
    Problem.invalidHook.withAttrs [Log.Attr.string "hook" name, Log.Attr.string "type" typeName]
  else unknown name

def adjustment (name : Bytes) : ExtensionItem → Except Problem Adjustment
  | .label text =>
      if name = utf8 "component" then .ok (.componentLabel text)
      else if name = utf8 "element" then .ok (.elementLabel text)
      else if name = utf8 "text" then .ok (.textLabel text)
      else .error (unknown name)
  | .hook hook bound typeName =>
      if bound && name ≠ utf8 hook.part then .error (invalid name typeName)
      else match hook.moveTo? name with
        | some hook => .ok hook.adjustment
        | none => .error (invalid name typeName)
  | .other typeName => .error (invalid name typeName)

def adjustments : Extension → Except Problem (List Adjustment)
  | .nothing => .ok []
  | .label text => .ok [.label text]
  | .table items => (sortEntries items).mapM fun (name, item) => adjustment name item
  | .other typeName =>
      .error (Problem.unknownOption.withAttrs [Log.Attr.string "type" typeName])

end Extension

end Inlay
