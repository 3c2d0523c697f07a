import Inlay.Data.Yaml.Writer
import Inlay.Descriptor.Evaluate
import Inlay.Descriptor.Html
import Inlay.Playground.Editor
import Inlay.Playground.History
import Inlay.Rendering.Transform

/-!
The playground: an editor, and below it what becomes of its text, as code, as trees or as HTML.
Whatever changes the text or how it is read brings the result up to date.
-/

namespace Inlay

inductive View where
  | code
  | tree
  | html
  deriving DecidableEq, Repr, Inhabited

namespace View

def name : View → Bytes
  | code => utf8 "code"
  | tree => utf8 "tree"
  | html => utf8 "html"

def next : View → View
  | code => tree
  | tree => html
  | html => code

end View

def Strategy.next : Strategy → Strategy
  | .scoped => .pattern
  | .pattern => .scoped
  | .other code =>
      let code := (code + 1).tmod 2
      if code = 0 then .scoped else if code = 1 then .pattern else .other code

inductive PlayKey where
  | edit (key : EditKey)
  | toggleStrict
  | nextStrategy
  | nextView
  | older
  | newer
  | quit
  | other
  deriving DecidableEq, Repr

namespace PlayKey

def named : List (String × PlayKey) :=
  [("ctrl+c", .quit), ("esc", .quit), ("ctrl+s", .toggleStrict), ("ctrl+l", .nextStrategy),
    ("ctrl+o", .nextView), ("ctrl+p", .older), ("ctrl+n", .newer), ("enter", .edit .newline),
    ("ctrl+m", .edit .newline), ("backspace", .edit .back), ("ctrl+h", .edit .back),
    ("delete", .edit .delete), ("ctrl+d", .edit .delete), ("left", .edit .left),
    ("ctrl+b", .edit .left), ("right", .edit .right), ("ctrl+f", .edit .right),
    ("home", .edit .lineStart), ("ctrl+a", .edit .lineStart), ("end", .edit .lineEnd),
    ("ctrl+e", .edit .lineEnd), ("ctrl+home", .edit .textStart), ("ctrl+end", .edit .textEnd),
    ("ctrl+u", .edit .cutBefore), ("ctrl+k", .edit .cutAfter)]

def ofName (name : String) : PlayKey := (named.lookup name).getD .other

end PlayKey

structure Playground where
  config : Config := {}
  history : History := {}
  /-- The number of the entry in the editor; one beyond the last if the text is a new one. -/
  index : Int := 0
  editor : Editor := {}
  view : View := .code
  strategy : Strategy := .scoped
  strict : Bool := false
  /-- What has become of the text, or why nothing has. -/
  result : Bytes := []
  failed : Bool := false
  editorHeight : Int := 0
  outputHeight : Int := 0
  quitting : Bool := false
  cache : Cache := {}
  deriving Inhabited

namespace Playground

def settings (p : Playground) : Config :=
  { p.config with strict := p.strict, strategy := p.strategy, logger := .silent }

def trees (config : Config) : List Fragment → RenderM (Except Problem (List Node))
  | [] => return .ok []
  | fragment :: rest => do
      match ← parse config fragment.text with
      | (_, some problem) => return .error problem
      | (root, none) =>
          match ← trees config rest with
          | .error problem => return .error problem
          | .ok more => return .ok (root.toList ++ more)

def show? (config : Config) (view : View) (text : Bytes) : RenderM (Except Problem Bytes) := do
  match view with
  | .code => transform config text
  | .tree =>
      match ← trees config (Locator.ofText text config.strategy).all.1 with
      | .error problem => return .error problem
      | .ok roots => return .ok (Yaml.write (.ofJson (.array (Node.toJsons roots))))
  | .html =>
      match ← transform config text with
      | .error problem => return .error problem
      | .ok code =>
          match evaluate config.labels (trim code) [] with
          | .error problem => return .error problem
          | .ok descriptor => return .ok descriptor.html

/-- What the text becomes, whether that is a failure, and the renderings remembered for later. -/
def render (p : Playground) (text : Bytes) : Bytes × Bool × Cache :=
  match (show? p.settings p.view text).run { cache := p.cache } with
  | (.ok shown, session) => (shown, false, session.cache)
  | (.error problem, session) => (problem.text, true, session.cache)

def refresh (p : Playground) : Playground :=
  let (result, failed, cache) := p.render p.editor.text
  { p with result, failed, cache }

def resize (p : Playground) (height : Int) : Playground :=
  let pane := max ((height - 3).tdiv 2) 3
  { p with editorHeight := min pane 99, outputHeight := max (height - 3 - pane) 1 }

def start (config : Config) (history : History) (text : Bytes) : Playground :=
  let p : Playground :=
    { config, history, index := history.entries.length, editor := .ofText text
      strategy := config.strategy, strict := config.strict }
  (p.resize 24).refresh

def bringBack (p : Playground) (index : Int) : Playground :=
  match p.history.get? index with
  | none => p
  | some entry => refresh { p with index, editor := .ofText entry }

/-- The playground with its editor changed. A text that is new is no entry of the history. -/
def edit (p : Playground) (editor : Editor) : Playground :=
  if editor.text = p.editor.text then { p with editor }
  else refresh { p with editor, index := p.history.entries.length }

def press (p : Playground) : PlayKey → Playground
  | .quit => { p with quitting := true }
  | .toggleStrict => refresh { p with strict := !p.strict }
  | .nextStrategy => refresh { p with strategy := p.strategy.next }
  | .nextView => refresh { p with view := p.view.next }
  | .older => p.bringBack (p.index - 1)
  | .newer => p.bringBack (p.index + 1)
  | .other => p
  | .edit key => p.edit (p.editor.press key)

def title (p : Playground) : Bytes :=
  if p.quitting then []
  else utf8 "jsxc play  strict:" ++ utf8 (if p.strict then "on" else "off") ++ utf8 "  locator:" ++
    p.strategy.name ++ utf8 "  view:" ++ p.view.name

def hint (p : Playground) : Bytes :=
  if p.quitting then []
  else utf8 "ctrl+s strict • ctrl+l locator • ctrl+o view • ctrl+p/n history • esc quit"

end Playground

end Inlay
