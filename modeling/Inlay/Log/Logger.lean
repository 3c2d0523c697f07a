import Inlay.Log.Flat
import Inlay.Log.Nested

/-!
Loggers. A handler writes the records that are severe enough; a logger is a handler together with
the settings that it was made from, and the silent logger writes nothing at all.
-/

namespace Inlay.Log

inductive Handler where
  | silent
  | flat (writer : Flat)
  | nested (writer : Nested)

namespace Handler

/-- The handler that settings ask for; a format without a name asks for none. -/
def ofSettings (settings : Settings) : Handler :=
  match settings.format with
  | .text => if settings.pretty then .flat { settings, braces := false }
      else .nested { settings, json := false }
  | .json => if settings.pretty then .flat { settings, braces := true }
      else .nested { settings, json := true }
  | .other _ => .silent

def enabled (handler : Handler) (level : Level) : Bool :=
  match handler with
  | .silent => false
  | .flat writer => writer.settings.level.value ≤ level.value
  | .nested writer => writer.settings.level.value ≤ level.value

def write (handler : Handler) (record : Record) : Bytes :=
  match handler with
  | .silent => []
  | .flat writer => if writer.settings.discard then [] else writer.write record
  | .nested writer => if writer.settings.discard then [] else writer.write record

def withAttrs (handler : Handler) (attrs : List Attr) : Handler :=
  match handler with
  | .silent => .silent
  | .flat writer => .flat (writer.withAttrs attrs)
  | .nested writer => .nested (writer.withAttrs attrs)

def withGroup (handler : Handler) (name : Bytes) : Handler :=
  match handler with
  | .silent => .silent
  | .flat writer => .flat (writer.withGroup name)
  | .nested writer => .nested (writer.withGroup name)

end Handler

/-- A handler with the settings it was made from. -/
inductive Logger where
  | silent
  | active (settings : Settings) (handler : Handler)

instance : Inhabited Logger := ⟨.silent⟩

namespace Logger

def ofSettings (settings : Settings) : Logger := .active settings (.ofSettings settings)

def make (steps : List Setting) : Logger := ofSettings (Settings.apply {} steps)

def makeDiscarding (steps : List Setting) : Logger :=
  ofSettings (Settings.apply { discard := true } steps)

/-- The logger with changed settings, without the attributes that were added to this one. -/
def wrap (logger : Logger) (steps : List Setting) : Logger :=
  match logger with
  | .silent => makeDiscarding steps
  | .active settings _ => ofSettings (settings.apply steps)

def withAttrs (logger : Logger) (attrs : List Attr) : Logger :=
  match logger with
  | .silent => .silent
  | .active settings handler => .active settings (handler.withAttrs attrs)

def level : Logger → Level
  | .silent => .info
  | .active settings _ => settings.level

def format : Logger → Format
  | .silent => .json
  | .active settings _ => settings.format

def discards : Logger → Bool
  | .silent => true
  | .active settings _ => settings.discard

def handler : Logger → Handler
  | .silent => .silent
  | .active _ handler => handler

def write (logger : Logger) (level : Level) (message : Bytes) (attrs : List Attr) : Bytes :=
  match logger with
  | .silent => []
  | .active settings handler =>
      if handler.enabled level then handler.write (.make (some settings.now) level message attrs)
      else []

end Logger

end Inlay.Log
