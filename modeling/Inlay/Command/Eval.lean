import Inlay.Command.Source
import Inlay.Data.Yaml.Reader
import Inlay.Data.Yaml.Writer
import Inlay.Descriptor.Evaluate
import Inlay.Descriptor.Html
import Inlay.Rendering.Transform
import Inlay.Value.Json
import Inlay.Value.Yaml

/-!
The command that evaluates the first fragment of its source in an environment.
-/

namespace Inlay

inductive DescriptorFormat where
  | html
  | json
  | yaml
  deriving DecidableEq, Repr, Inhabited

mutual

def Yaml.special? : Yaml → Option Float
  | .float x => if Number.isFinite x then none else some x
  | .list items => specialIn? items
  | .map entries => specialAmong? entries
  | .null => none
  | .bool _ => none
  | .int _ => none
  | .word _ => none
  | .string _ => none
  | .bytes _ => none
  | .time _ => none

def specialIn? : List Yaml → Option Float
  | [] => none
  | item :: rest => (Yaml.special? item).or (specialIn? rest)

def specialAmong? : List (Bytes × Yaml) → Option Float
  | [] => none
  | (_, value) :: rest => (Yaml.special? value).or (specialAmong? rest)

end

namespace Evaluation

def write (format : DescriptorFormat) (descriptor : Descriptor) : Except Problem Bytes :=
  match format with
  | .html => .ok (descriptor.html ++ utf8 "\n")
  | .yaml => .ok (Yaml.write descriptor.toYaml)
  | .json =>
      match descriptor.toJson? with
      | some document => .ok (document.pretty .html 0 ++ utf8 "\n")
      | none =>
          let number := Number.Layout.general.text (descriptor.toYaml.special?.getD 0)
          .error (Problem.encodeJson.causedBy (.plain (utf8 "json: unsupported value: " ++ number)))

def environment (path : Bytes) : CommandM (List (Bytes × Value)) := do
  if path.isEmpty then return []
  let failed (cause : Bytes) : Problem :=
    (Problem.evaluationData.causedBy (.plain cause)).withAttrs [Log.Attr.string "file" path]
  match (← get).disk.read path with
  | .error cause => throw (failed cause)
  | .ok text =>
      match Yaml.read? text with
      | some entries => return Yaml.toEntries entries
      | none => throw (failed (utf8 "invalid document"))

def firstFragment (config : Config) (name text : Bytes) : CommandM Bytes := do
  match (Locator.ofText text config.strategy).next.1 with
  | none => throw (Problem.noFragment.withAttrs [Log.Attr.string "source" name])
  | some fragment =>
      match ← CommandM.rendering (transform config fragment.text) with
      | .ok code => return trim code
      | .error problem =>
          throw
            ((Problem.transformFailed.causedBy problem).withAttrs [Log.Attr.string "source" name])

def run (config : Config) (format : DescriptorFormat) (data path : Bytes) : CommandM Unit := do
  let sources ← CommandM.sources [path]
  let values ← environment data
  match sources with
  | [] => pure ()
  | source :: _ =>
      let text ← CommandM.read source
      let code ← firstFragment config source.name text
      CommandM.note .trace "evaluating" [Log.Attr.string "code" code]
      match evaluate config.labels code values with
      | .error problem => throw problem
      | .ok descriptor =>
          match write format descriptor with
          | .error problem => throw problem
          | .ok text => CommandM.print text

end Evaluation

end Inlay
