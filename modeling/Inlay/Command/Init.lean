import Inlay.Command.Arguments
import Inlay.Data.Yaml.Writer

/-!
The command that writes the values of all common flags to a configuration document.
-/

namespace Inlay

namespace Arguments

def keptFlags : List Flag := Flag.common.filter fun flag => flag != .help && flag != .version

def keptValue? (arguments : Arguments) (flag : Flag) : Option Yaml :=
  match arguments.value flag with
  | .switch on => some (.bool on)
  | .text text => if text.isEmpty then none else some (.string text)

def toYaml (arguments : Arguments) : Yaml :=
  .map (keptFlags.filterMap fun flag =>
    (arguments.keptValue? flag).map fun value => (utf8 flag.spec.name, value))

end Arguments

namespace Initialization

def run (arguments : Arguments) (path : Bytes) (force : Bool) : CommandM Unit := do
  let failed := Problem.writeSettings.withAttrs [Log.Attr.string "file" path]
  if (← get).disk.isThere path && !force then throw (failed.causedBy .fileExists)
  match (← get).disk.write path (Yaml.write arguments.toYaml) with
  | .error cause => throw (failed.causedBy (.plain cause))
  | .ok disk =>
      modify fun w => { w with disk }
      CommandM.note .debug "initialized configuration file" [Log.Attr.string "path" path]

end Initialization

end Inlay
