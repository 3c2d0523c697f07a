import Inlay.Host.Strategy
import Inlay.Log.Level
import Inlay.Rendering.Session

/-!
The commands and their flags: how they are spelled, which values they take and which they have if
they are not given.
-/

namespace Inlay

inductive Command where
  | transform
  | tree
  | eval
  | play
  | init
  deriving DecidableEq, Repr, Inhabited

inductive SourceCount where
  | none
  | one
  | many
  deriving DecidableEq, Repr, Inhabited

inductive Flag where
  | help | logLevel | logFormat | logLayout | logCaller | logPretty
  | componentLabel | elementLabel | textLabel | label | locator | strict | cache | version
  | output | write
  | listingFormat | pattern
  | data | descriptorFormat
  | force
  deriving DecidableEq, Repr, Inhabited

inductive FlagValue where
  | switch (on : Bool)
  | text (text : Bytes)
  deriving DecidableEq, Repr, Inhabited

inductive FlagKind where
  /-- It is on or off; some have an opposite that switches them off. -/
  | switch (negatable : Bool)
  /-- Any text, called so in messages. -/
  | text (noun : String)
  | path
  | existingFile
  deriving DecidableEq, Repr, Inhabited

structure FlagSpec where
  name : String
  short : Option Char := none
  kind : FlagKind
  default : FlagValue
  choices : List Bytes := []

namespace Flag

def offSwitch (name : String) (short : Option Char) : FlagSpec :=
  { name, short, kind := .switch false, default := .switch false }

def textFlag (name : String) (short : Option Char) (default : Bytes) : FlagSpec :=
  { name, short, kind := .text "string", default := .text default }

def spec : Flag → FlagSpec
  | help => offSwitch "help" (some 'h')
  | logLevel =>
      { name := "log-level", kind := .text "value", default := .text Log.Level.info.name
        choices := Log.Level.named.map fun l => l.1.name }
  | logFormat =>
      { name := "log-format", kind := .text "value", default := .text Log.Format.json.name
        choices := Log.Format.named.map Log.Format.name }
  | logLayout => textFlag "log-time-layout" none (utf8 "RFC3339")
  | logCaller => { name := "log-caller", kind := .switch true, default := .switch false }
  | logPretty => { name := "log-pretty", kind := .switch true, default := .switch true }
  | componentLabel => textFlag "component-label" none ({} : Labels).component
  | elementLabel => textFlag "element-label" none ({} : Labels).element
  | textLabel => textFlag "text-label" none ({} : Labels).text
  | label => textFlag "label" (some 'l') []
  | locator =>
      { textFlag "locator" none Strategy.scoped.name with
        choices := Strategy.named.map Strategy.name }
  | strict => offSwitch "strict" (some 'S')
  | cache => { name := "cache", kind := .switch true, default := .switch true }
  | version => offSwitch "version" (some 'V')
  | output => { name := "output", short := some 'o', kind := .path, default := .text [] }
  | write => offSwitch "write" (some 'w')
  | listingFormat =>
      { textFlag "format" (some 'f') (utf8 "outline") with
        choices := ["outline", "json", "yaml"].map utf8 }
  | pattern => textFlag "match" (some 'm') []
  | data => { name := "data", short := some 'd', kind := .existingFile, default := .text [] }
  | descriptorFormat =>
      { textFlag "format" (some 'f') (utf8 "html") with
        choices := ["html", "json", "yaml"].map utf8 }
  | force => offSwitch "force" (some 'f')

def long (flag : Flag) : Bytes := utf8 "--" ++ utf8 flag.spec.name

def brief? (flag : Flag) : Option Bytes :=
  flag.spec.short.map fun letter => utf8 "-" ++ Utf8.encode letter

def opposite? (flag : Flag) : Option Bytes :=
  match flag.spec.kind with
  | .switch true => some (utf8 "--no-" ++ utf8 flag.spec.name)
  | _ => none

def common : List Flag :=
  [help, logLevel, logFormat, logLayout, logCaller, logPretty, componentLabel,
    elementLabel, textLabel, label, locator, strict, cache, version]

end Flag

namespace Command

def all : List Command := [transform, tree, eval, play, init]

def name : Command → Bytes
  | transform => utf8 "transform"
  | tree => utf8 "tree"
  | eval => utf8 "eval"
  | play => utf8 "play"
  | init => utf8 "init"

def ofName? (name : Bytes) : Option Command := all.find? fun command => command.name == name

def flags : Command → List Flag
  | transform => [.output, .write]
  | tree => [.listingFormat, .pattern]
  | eval => [.data, .descriptorFormat]
  | play => []
  | init => [.force]

def sourceCount : Command → SourceCount
  | transform => .many
  | tree => .many
  | eval => .one
  | play => .one
  | init => .none

end Command

end Inlay
