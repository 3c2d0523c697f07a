import Inlay.Command.Eval
import Inlay.Command.Init
import Inlay.Command.Transform
import Inlay.Command.Tree

/-!
A whole run: the flags of the log take effect first, then the arguments are read and documents
consulted, then the command runs.
-/

namespace Inlay

def version : Bytes := utf8 "0.1.0"

inductive Ending where
  | done
  /-- The run did something else than a command, such as to tell its version. -/
  | answered
  /-- The arguments or the values in documents are wrong. -/
  | misused (message : Bytes)
  | unconfigured (message : Bytes)
  | failed (problem : Problem)

def Ending.message? : Ending → Option Bytes
  | done => none
  | answered => none
  | misused message => some message
  | unconfigured message => some message
  | failed problem => some problem.text

namespace Json

mutual

def toSettings : Json → Yaml
  | .null => .null
  | .bool b => .bool b
  | .number literal => .float ((Number.parse? literal).getD 0)
  | .string s => .string s
  | .array items => .list (settingsItems items)
  | .object members => .map (settingsMembers members)

def settingsItems : List Json → List Yaml
  | [] => []
  | item :: rest => toSettings item :: settingsItems rest

def settingsMembers : List (Bytes × Json) → List (Bytes × Yaml)
  | [] => []
  | (key, value) :: rest => (key, toSettings value) :: settingsMembers rest

end

/-- The first document in a text; what follows it does not matter. -/
def parseFirst? (text : Bytes) : Option Json :=
  (readValue (text.length + 1) (Utf8.glyphs text)).map (·.1)

end Json

/-- A name of words with hyphens as one word, with capitals for all words but the first. -/
def camelName (name : Bytes) : Bytes :=
  match Bytes.split (utf8 "-") name with
  | [] => []
  | first :: rest => first ++ rest.flatMap fun word =>
      match word with
      | letter :: more => (if 97 ≤ letter && letter ≤ 122 then letter - 32 else letter) :: more
      | [] => []

abbrev FlagDocument := Flag → Option Yaml

namespace FlagDocument

def present : Option Yaml → Option Yaml
  | some .null => none
  | value => value

/-- The values in a JSON document, by the names of flags with underscores or capitals. -/
def ofJson? (text : Bytes) : Option FlagDocument := do
  let members ← match ← Json.parseFirst? text with
    | .object members => some members
    | .null => some []
    | _ => none
  return fun flag =>
    let name := utf8 flag.spec.name
    let find (key : Bytes) : Option Yaml := ((Json.object members).get? key).map Json.toSettings
    present ((find (name.map fun b => if b == 45 then 95 else b)).or (find (camelName name)))

def ofYaml? (text : Bytes) : Option FlagDocument := do
  let table ← FlagTable.parse? text
  return fun flag => present (findEntry table (utf8 flag.spec.name))

end FlagDocument

namespace World

def settingsPath (world : World) (name : String) : Bytes := world.settings ++ utf8 "/" ++ utf8 name

def document (world : World) (name : String) (parse? : Bytes → Option FlagDocument) :
    Except Bytes (List FlagDocument) :=
  let path := world.settingsPath name
  if !world.disk.isThere path then .ok []
  else match (world.disk.read path).toOption.bind parse? with
    | some document => .ok [document]
    | none => .error (path ++ utf8 ": invalid document")

def documents (world : World) : Except Bytes (List FlagDocument) := do
  let json ← world.document "config.json" FlagDocument.ofJson?
  let yaml ← world.document "config.yaml" FlagDocument.ofYaml?
  return json ++ yaml

end World

/-- Reads arguments up to the point where they ask for something else than a command, and consults
documents otherwise. -/
def readArguments (world : World) (documents : List FlagDocument) (arguments : List Bytes) :
    ArgumentM Unit := do
  ArgumentM.readAll world false arguments
  if (← get).request.isNone then
    modify fun a => { a with command := some a.selected }
    ArgumentM.resetLog
    ArgumentM.consult world documents (← get).flags
    match (← get).fault? with
    | some message => throw message
    | none => pure ()

def runCommand (arguments : Arguments) : CommandM Unit := do
  let config := arguments.config (← get).logger
  match arguments.selected with
  | .transform =>
      let path := arguments.text .output
      let destination : Destination := if arguments.isOn .write then .inPlace
        else if path.isEmpty then .output else .file path
      Transformation.run config destination arguments.sources
  | .tree =>
      let format := arguments.text .listingFormat
      let format : ListingFormat := if format = utf8 "json" then .json
        else if format = utf8 "yaml" then .yaml else .outline
      Listing.run config format (arguments.text .pattern) arguments.sources
  | .eval =>
      let format := arguments.text .descriptorFormat
      let format : DescriptorFormat := if format = utf8 "json" then .json
        else if format = utf8 "yaml" then .yaml else .html
      Evaluation.run config format (arguments.text .data) (arguments.sources.head?.getD [])
  | .play => throw (Problem.plain (utf8 "could not open a terminal"))
  | .init =>
      Initialization.run arguments ((← get).settingsPath "config.yaml") (arguments.isOn .force)

def runLogged (arguments : Arguments) (world : World) : Ending × World :=
  let flags := arguments.logFlags
  let world := { world with logger := arguments.logger.wrap flags.settings }
  let started : CommandM Unit := CommandM.note .debug "logger initialized"
    [Log.Attr.string "level" flags.level, Log.Attr.string "format" flags.format,
      Log.Attr.string "time" flags.layout, Log.Attr.bool "caller" flags.caller,
      Log.Attr.bool "pretty" flags.pretty]
  let (_, world) := started.run.run world
  let (result, world) := (runCommand arguments).run.run world
  let (_, world) := (CommandM.note .trace "logger stopped" []).run.run world
  match result with
  | .ok () => (.done, world)
  | .error problem => (.failed problem, world)

def runArguments (arguments : List Bytes) (world : World) : Ending × World :=
  let scan := LogScan.run ⟨{}, world.logger⟩ arguments
  let world := { world with logger := scan.logger }
  match world.documents with
  | .error message => (.unconfigured message, world)
  | .ok documents =>
      let (result, read) :=
        (readArguments world documents arguments).run.run { logger := world.logger }
      let world := { world with logger := read.logger }
      match result, read.request with
      | .error message, _ => (.misused message, world)
      | .ok (), some flag =>
          let answer := if flag = .version then version ++ utf8 "\n" else []
          (.answered, { world with output := world.output ++ answer })
      | .ok (), none => runLogged read world

def run (arguments : List Bytes) (world : World) : Ending × World :=
  let (ending, world) := runArguments arguments world
  match ending.message? with
  | none => (ending, world)
  | some message =>
      let report : CommandM Unit :=
        CommandM.note .error "run failed" [(utf8 "error", .string message)]
      (ending, (report.run.run world).2)

end Inlay
