import Inlay.Rendering.Code
import Inlay.Markup.Assembly
import Inlay.Host.Locator

/-!
Transformations. Expanding a text renders the fragments in it and keeps all else; the code of a
fragment holds further texts to expand, each shorter than the fragment. Strictly, the first problem
is the result; else what is wrong with a fragment is mended or the fragment stays as it is.
-/

namespace Inlay

def logEvents (config : Config) : List Event → RenderM Unit
  | [] => pure ()
  | .opened name kind depth void :: rest => do
      RenderM.note config.logger .trace "open tag"
        [Log.Attr.string "tag" name, Log.Attr.string "kind" kind.name, Log.Attr.int "depth" depth,
          Log.Attr.bool "void" void]
      logEvents config rest
  | .closed _ :: rest => logEvents config rest
  | .faulted fault :: rest => do
      RenderM.note config.logger .debug "malformed fragment"
        [(utf8 "fault", (Problem.ofFault fault).logValue), Log.Attr.bool "strict" config.strict]
      logEvents config rest

/-- The tree of a fragment, if it has one, and what is wrong with it; strictly, that is also its
first fault. -/
def parse (config : Config) (text : Bytes) : RenderM (Option Node × Option Problem) := do
  let assembly := Assembly.read (Mark.read text)
  logEvents config assembly.events
  match assembly.tree with
  | none => return (none, some (Problem.noRoot.withAttrs [Log.Attr.int "length" text.length]))
  | some root =>
      if config.strict then return (some root, assembly.fault?.map Problem.ofFault)
      else return (some root, none)

def failWith (config : Config) (problem : Option Problem) : RenderM Unit :=
  match problem with
  | none => pure ()
  | some problem => RenderM.fail config.logger config.strict problem

/-- The code of a fragment, `expand` rendering the fragments inside. One without a tree stays as it
is.
-/
def renderFragment (config : Config) (expand : Bytes → RenderM Bytes) (text : Bytes) :
    RenderM Bytes := do
  let (tree, problem) ← parse config text
  failWith config problem
  match tree with
  | none => return text
  | some root =>
      let before := (← get).problem.isSome
      let code ← Renderer.node ⟨config, expand⟩ root
      let after := (← get).problem.isSome
      if config.cacheable && problem.isNone && before == after then
        modify fun s => { s with cache := s.cache.insert (config.cacheKey text) code }
      return code

/-- The code of a fragment, from the cache if it is there. -/
def fragmentCode (config : Config) (expand : Bytes → RenderM Bytes) (text : Bytes) :
    RenderM Bytes := do
  let session ← get
  match if config.cacheable then session.cache.get? (config.cacheKey text) else none with
  | some code =>
      RenderM.note config.logger .trace "cache hit" [Log.Attr.int "bytes" text.length]
      return code
  | none => renderFragment config expand text

def fragmentCodes (config : Config) (expand : Bytes → RenderM Bytes) :
    List Fragment → RenderM Bytes
  | [] => pure []
  | fragment :: rest => do
      RenderM.note config.logger .trace "fragment located"
        [Log.Attr.int "start" fragment.start, Log.Attr.int "end" fragment.stop,
          Log.Attr.string "locator" config.strategy.name]
      let code ← fragmentCode config expand fragment.text
      let more ← fragmentCodes config expand rest
      return fragment.before ++ code ++ fragment.after ++ more

/-- Renders the fragments in a text, in which fragments are nested at most `fuel` deep. -/
def expandWithin (config : Config) : (fuel : Nat) → Bytes → RenderM Bytes
  | 0, text => pure text
  | fuel + 1, text => do
      let (fragments, locator) := (Locator.ofText text config.strategy).all
      let code ← fragmentCodes config (expandWithin config fuel) fragments
      failWith config (locator.fault.map Problem.ofFault)
      return if fragments.isEmpty then text else code

def expand (config : Config) (text : Bytes) : RenderM Bytes :=
  expandWithin config text.length text

def Renderer.ofConfig (config : Config) : Renderer := ⟨config, Inlay.expand config⟩

def settle (result : RenderM Bytes) : RenderM (Except Problem Bytes) := do
  modify fun s => { s with problem := none }
  let code ← result
  match (← get).problem with
  | some problem => return .error problem
  | none => return .ok code

def transform (config : Config) (text : Bytes) : RenderM (Except Problem Bytes) := do
  match ← settle (expand config text) with
  | .error problem => return .error problem
  | .ok code =>
      RenderM.note config.logger .trace "transform complete"
        [Log.Attr.int "input_bytes" text.length, Log.Attr.int "output_bytes" code.length]
      return .ok code

def unreadable (cause : Bytes) : Problem :=
  (Problem.readInput.causedBy (.plain cause)).withAttrs [Log.Attr.string "source" (utf8 "reader")]

def render (config : Config) (node : Node) : RenderM (Except Problem Bytes) :=
  settle ((Renderer.ofConfig config).node node)

end Inlay
