import Inlay.Command.Source
import Inlay.Rendering.Transform

/-!
The command that transforms its sources, to the standard output, to one file, or each in its place.
-/

namespace Inlay

inductive Destination where
  | output
  | file (path : Bytes)
  | inPlace
  deriving DecidableEq, Repr, Inhabited

namespace Transformation

def sourceCode (config : Config) (source : Source) : CommandM Bytes := do
  let text ← CommandM.read source
  match ← CommandM.rendering (transform config text) with
  | .error problem =>
      throw ((Problem.transformFailed.causedBy problem).withAttrs
        [Log.Attr.string "source" source.name])
  | .ok code =>
      CommandM.note .debug "transformed" [Log.Attr.string "source" source.name,
        Log.Attr.int "input_bytes" text.length, Log.Attr.int "output_bytes" code.length]
      return code

def unwritten (key : String) (name cause : Bytes) : Problem :=
  (Problem.writeOutput.causedBy (.plain cause)).withAttrs [Log.Attr.string key name]

def onDisk (change : Disk → Except Bytes Disk) (problem : Bytes → Problem) : CommandM Unit := do
  match change (← get).disk with
  | .ok disk => modify fun w => { w with disk }
  | .error cause => throw (problem cause)

def deliver (destination : Destination) (source : Source) (code : Bytes) : CommandM Unit := do
  let failed := unwritten "source" source.name
  match destination with
  | .output => CommandM.print code
  | .inPlace =>
      match source.path with
      | none => throw Problem.writeInput
      | some path => onDisk (·.write path code) failed
  | .file path =>
      match (← get).outlet.writeFault with
      | some cause => throw (failed cause)
      | none => if (← get).outlet.kept then onDisk (·.append path code) failed

def each (config : Config) (destination : Destination) : List Source → CommandM Unit
  | [] => pure ()
  | source :: rest => do
      if destination = .inPlace && source.path.isNone then throw Problem.writeInput
      let code ← sourceCode config source
      deliver destination source code
      each config destination rest

/-- Transforms the sources that paths name. A file for the output is emptied before the sources are
read. -/
def run (config : Config) (destination : Destination) (paths : List Bytes) : CommandM Unit := do
  let sources ← CommandM.sources paths
  match destination with
  | .file path =>
      if (← get).outlet.kept then onDisk (·.write path []) (unwritten "file" path)
      each config destination sources
      match (← get).outlet.closeFault with
      | some cause => throw (unwritten "file" path cause)
      | none => pure ()
  | _ => each config destination sources

end Transformation

end Inlay
