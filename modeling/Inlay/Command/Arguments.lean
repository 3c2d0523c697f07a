import Inlay.Command.LogFlags
import Inlay.Command.Offer
import Inlay.Command.World
import Inlay.Rendering.Config
import Inlay.Text.Distance

/-!
Arguments. They are read one after the other: a flag takes the value behind its equals sign or the
next argument, the first other argument names the command unless it names a source of the default
command, and sources stand together. What no argument says, configuration documents may say.
-/

namespace Inlay

/-- Whether the sources among the arguments are still to come, being read, or behind. -/
inductive SourceStage where
  | ahead
  | here
  | behind
  deriving DecidableEq, Repr, Inhabited

/-- What arguments and documents have said so far, and the logger that follows it. -/
structure Arguments where
  given : List (Flag × FlagValue) := []
  negated : List Flag := []
  command : Option Command := none
  sources : List Bytes := []
  stage : SourceStage := .ahead
  /-- The first flag that asks for something else than a command. -/
  request : Option Flag := none
  logger : Log.Logger := .silent

/-- A step of reading arguments; it fails with a message on their usage. -/
abbrev ArgumentM := ExceptT Bytes (StateM Arguments)

/-- The path of a file that has to be there, from the root; the standard input needs no file. -/
def existingFile (world : World) (path : Bytes) : Except Bytes Bytes :=
  if path = utf8 "-" then .ok path
  else
    let path := Path.absolute world.home world.disk.working path
    match world.disk.locate path with
    | .error fault => .error (fault.report "stat" path)
    | .ok (_, .folder) => .error (Quoted.encode path ++ utf8 " exists but is a directory")
    | .ok _ => .ok path

namespace Arguments

def value (arguments : Arguments) (flag : Flag) : FlagValue :=
  (arguments.given.lookup flag).getD flag.spec.default

def isOn (arguments : Arguments) (flag : Flag) : Bool :=
  match arguments.value flag with
  | .switch on => on
  | .text _ => false

def text (arguments : Arguments) (flag : Flag) : Bytes :=
  match arguments.value flag with
  | .text text => text
  | .switch _ => []

def has (arguments : Arguments) (flag : Flag) : Bool := (arguments.given.lookup flag).isSome

def selected (arguments : Arguments) : Command := arguments.command.getD .transform

def flags (arguments : Arguments) : List Flag := Flag.common ++ arguments.selected.flags

def setIn (flag : Flag) (value : FlagValue) : List (Flag × FlagValue) → List (Flag × FlagValue)
  | [] => [(flag, value)]
  | (f, old) :: rest => if f = flag then (f, value) :: rest else (f, old) :: setIn flag value rest

/-- The logger after a flag got a value: the level and the format take effect at once. -/
def follow (logger : Log.Logger) (flag : Flag) (value : FlagValue) : Log.Logger :=
  match flag, value with
  | .logLevel, .text text => logger.wrap [.level (.parse text)]
  | .logFormat, .text text => logger.wrap [.format (.parse text)]
  | _, _ => logger

def set (arguments : Arguments) (flag : Flag) (value : FlagValue) : Arguments :=
  let request := if flag = .help || flag = .version then some flag else none
  { arguments with
    given := setIn flag value arguments.given
    request := arguments.request.or request
    logger := follow arguments.logger flag value }

end Arguments

namespace ArgumentM

/-- The value of a flag that takes one. A file that has to be there keeps its first value. -/
def readValue (world : World) (flag : Flag) (offer : Offer) : ArgumentM FlagValue := do
  match flag.spec.kind with
  | .switch _ => return .switch true
  | .text noun => return .text (← flag.readText noun offer)
  | .path =>
      let path ← flag.readText "file" offer
      return .text (if path = utf8 "-" then path
        else Path.absolute world.home world.disk.working path)
  | .existingFile =>
      let path ← flag.readText "file" offer
      match (← get).given.lookup flag with
      | some value => return value
      | none =>
          match existingFile world path with
          | .ok path => return .text path
          | .error message => throw (flag.complain message)

def takeValue (world : World) (flag : Flag) (offer : Offer) : ArgumentM Unit := do
  let value ← readValue world flag offer
  modify fun a => a.set flag value

def takeSwitch (flag : Flag) (negated : Bool) (value : Option Yaml) : ArgumentM Unit := do
  if negated then modify fun a => { a with negated := flag :: a.negated }
  let on ← flag.readSwitch value
  let reversed := (← get).negated.contains flag
  modify fun a => a.set flag (.switch (on != reversed))

end ArgumentM

namespace Arguments

def spellings (arguments : Arguments) : List Bytes :=
  arguments.flags.flatMap fun flag => flag.long :: flag.brief?.toList

def unknownFlag (arguments : Arguments) (spelled : Bytes) : Bytes :=
  let close := arguments.spellings.filter fun s =>
    spelled.isPrefixOf s || editDistance s spelled ≤ 2
  let message := utf8 "unknown flag " ++ spelled
  match close.map Quoted.encode with
  | [] => message
  | [one] => message ++ utf8 ", did you mean " ++ one ++ utf8 "?"
  | several =>
      message ++ utf8 ", did you mean one of " ++ Bytes.join (utf8 ", ") several ++ utf8 "?"

def flag? (arguments : Arguments) (spelled : Bytes) : Option (Flag × Bool) :=
  (arguments.flags.find? fun flag =>
    flag.long == spelled || flag.brief? == some spelled || flag.opposite? == some spelled).map
    fun flag => (flag, flag.opposite? == some spelled)

end Arguments

namespace ArgumentM

def findFlag (spelled : Bytes) : ArgumentM (Flag × Bool) := do
  let arguments ← get
  match arguments.flag? spelled with
  | some found => return found
  | none => throw (arguments.unknownFlag spelled)

/-- Reads a flag that is spelled in full. The result is a flag that still needs its value. -/
def readLong (world : World) (argument : Bytes) : ArgumentM (Option Flag) := do
  let (name, value) := match Bytes.cut (utf8 "=") argument with
    | some (name, value) => (name, some (Yaml.string value))
    | none => (argument, none)
  let (flag, negated) ← findFlag (utf8 "--" ++ name)
  match flag.spec.kind, value with
  | .switch _, _ =>
      takeSwitch flag negated value
      return none
  | _, some value =>
      takeValue world flag (.value value)
      return none
  | _, none => return some flag

/-- Reads flags that are spelled in short; the rest behind one that takes a value is its value. The
result is a flag that still needs its value. -/
def readShort (world : World) : Bytes → ArgumentM (Option Flag)
  | [] => return none
  | letter :: rest => do
      let (flag, negated) ← findFlag [45, letter]
      match flag.spec.kind with
      | .switch _ =>
          takeSwitch flag negated none
          readShort world rest
      | _ =>
          if rest.isEmpty then return some flag
          takeValue world flag (.value (.string rest))
          return none

def takeSource (world : World) (command : Command) (argument : Bytes) : ArgumentM Unit := do
  let stage := (← get).stage
  let several := command.sourceCount = .many
  if command.sourceCount = .none || stage = .behind || (stage = .here && !several) then
    throw (utf8 "unexpected argument " ++ argument)
  match existingFile world (Utf8.scrub argument) with
  | .error message =>
      throw (utf8 (if several then "[<source> ...]: " else "[<source>]: ") ++ message)
  | .ok path => modify fun a => { a with sources := a.sources ++ [path], stage := .here }

def takePlain (world : World) (argument : Bytes) : ArgumentM Unit := do
  match (← get).command with
  | some command => takeSource world command argument
  | none =>
      match Command.ofName? argument with
      | some command => modify fun a => { a with command := some command }
      | none =>
          modify fun a => { a with command := some .transform }
          takeSource world .transform argument

def passSources : ArgumentM Unit :=
  modify fun a => { a with stage := if a.stage = .here then .behind else a.stage }

def isPlain (argument : Bytes) : Bool := argument.head? != some 45 || argument = utf8 "-"

def readAll (world : World) : (plain : Bool) → List Bytes → ArgumentM Unit
  | _, [] => pure ()
  | plain, argument :: rest => do
      if plain || isPlain argument then
        takePlain world argument
        readAll world plain rest
      else
        passSources
        if argument = utf8 "--" then readAll world true rest
        else
          let waiting ← match Bytes.dropStart? (utf8 "--") argument with
            | some name => readLong world name
            | none => readShort world (argument.drop 1)
          match waiting, rest with
          | none, rest => readAll world false rest
          | some flag, [] => takeValue world flag .nothing
          | some flag, next :: more =>
              takeValue world flag (.ofArgument next)
              readAll world false more

def resetLog : ArgumentM Unit := modify fun a =>
  let logger := Arguments.follow a.logger .logLevel (Flag.spec .logLevel).default
  { a with logger := Arguments.follow logger .logFormat (Flag.spec .logFormat).default }

/-- Lets documents give values to flags that no argument gave; of several values the last one
counts. -/
def consult (world : World) (documents : List (Flag → Option Yaml)) : List Flag → ArgumentM Unit
  | [] => pure ()
  | flag :: rest => do
      if !(← get).has flag then
        match (documents.filterMap fun document => document flag).getLast? with
        | none => pure ()
        | some value =>
            let value ← match flag.spec.kind with
              | .switch _ => pure (.switch (← flag.readSwitch (some value)))
              | _ => readValue world flag (.value value)
            modify fun a => { a with
              given := Arguments.setIn flag value a.given
              logger := Arguments.follow a.logger flag value }
      consult world documents rest

end ArgumentM

namespace Arguments

def badChoice? (arguments : Arguments) (flag : Flag) : Option Bytes :=
  let choices := flag.spec.choices
  let value := arguments.text flag
  if choices.isEmpty || choices.contains value then none
  else some (flag.long ++ utf8 " must be one of " ++
    Bytes.join (utf8 ",") (choices.map Quoted.encode) ++ utf8 " but got " ++ Quoted.encode value)

def fault? (arguments : Arguments) : Option Bytes :=
  let flags := Flag.common ++ Command.all.flatMap Command.flags
  match flags.findSome? arguments.badChoice? with
  | some message => some message
  | none =>
      if arguments.selected = .transform && arguments.has .output && arguments.has .write then
        some (Flag.long .output ++ utf8 " and " ++ Flag.long .write ++
          utf8 " can't be used together")
      else none

def logFlags (arguments : Arguments) : LogFlags :=
  { level := arguments.text .logLevel
    format := arguments.text .logFormat
    layout := arguments.text .logLayout
    caller := arguments.isOn .logCaller
    pretty := arguments.isOn .logPretty }

def config (arguments : Arguments) (logger : Log.Logger) : Config :=
  .make ([.componentLabel (arguments.text .componentLabel),
    .elementLabel (arguments.text .elementLabel),
      .textLabel (arguments.text .textLabel), .strict (arguments.isOn .strict),
      .cache (arguments.isOn .cache), .logger logger] ++
    (if (arguments.text .label).isEmpty then [] else [.label (arguments.text .label)]) ++
    (match Strategy.parse (arguments.text .locator) with
      | .ok strategy => [.strategy strategy]
      | .error _ => []))

end Arguments

end Inlay
