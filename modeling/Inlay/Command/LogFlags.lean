import Inlay.Log.Logger

/-!
The flags of the log. They are looked for among the arguments before anything else is read, so that
what is wrong with the other arguments is already reported as they ask.
-/

namespace Inlay

structure LogFlags where
  level : Bytes := []
  format : Bytes := []
  layout : Bytes := []
  caller : Bool := false
  pretty : Bool := false
  deriving DecidableEq, Repr, Inhabited

namespace LogFlags

def settings (flags : LogFlags) : List Log.Setting :=
  [.level (.parse flags.level), .format (.parse flags.format), .layout flags.layout,
    .caller flags.caller, .pretty flags.pretty]

end LogFlags

inductive LogText where
  | level
  | format
  | layout
  deriving DecidableEq, Repr

inductive LogSwitch where
  | caller
  | pretty
  deriving DecidableEq, Repr

inductive LogArgument where
  /-- A flag with its value, or with none if the next argument may hold it. -/
  | text (flag : LogText) (value : Option Bytes)
  | switch (flag : LogSwitch) (on : Bool)
  deriving DecidableEq, Repr

/-- The flags of the log as far as they are known, and the logger that follows them. -/
structure LogScan where
  flags : LogFlags
  logger : Log.Logger

def truthWord? (word : Bytes) : Option Bool :=
  if (["1", "t", "T", "TRUE", "true", "True"].map utf8).contains word then some true
  else if (["0", "f", "F", "FALSE", "false", "False"].map utf8).contains word then some false
  else none

namespace LogSwitch

/-- Whether a switch is on after an argument: it is, unless a word or a negation says otherwise. -/
def state? (value : Option Bytes) (negated : Bool) : Option Bool :=
  match value with
  | none => some !negated
  | some word => (truthWord? word).map fun on => on != negated

end LogSwitch

namespace LogArgument

def cutValue (argument : Bytes) : Bytes × Option Bytes :=
  match Bytes.cut (utf8 "=") argument with
  | some (name, value) => (name, some value)
  | none => (argument, none)

def ofArgument? (argument : Bytes) : Option LogArgument :=
  let (name, value) := cutValue argument
  let switch (flag : LogSwitch) (negated : Bool) : Option LogArgument :=
    (LogSwitch.state? value negated).map (.switch flag)
  match Bytes.dropStart? (utf8 "--no-log-") name with
  | some key =>
      if key = utf8 "pretty" then switch .pretty true
      else if key = utf8 "caller" then switch .caller true
      else none
  | none =>
      match Bytes.dropStart? (utf8 "--log-") name with
      | none => none
      | some key =>
          if key = utf8 "level" then some (.text .level value)
          else if key = utf8 "format" then some (.text .format value)
          else if key = utf8 "time-layout" then some (.text .layout value)
          else if key = utf8 "pretty" || key = utf8 "no-pretty" then switch .pretty false
          else if key = utf8 "caller" || key = utf8 "no-caller" then switch .caller false
          else none

end LogArgument

namespace LogScan

def setText (scan : LogScan) (flag : LogText) (value : Bytes) : LogScan :=
  match flag with
  | .level => ⟨{ scan.flags with level := value }, scan.logger.wrap [.level (.parse value)]⟩
  | .format => ⟨{ scan.flags with format := value }, scan.logger.wrap [.format (.parse value)]⟩
  | .layout => ⟨{ scan.flags with layout := value }, scan.logger.wrap [.layout value]⟩

def setSwitch (scan : LogScan) (flag : LogSwitch) (on : Bool) : LogScan :=
  match flag with
  | .caller => ⟨{ scan.flags with caller := on }, scan.logger.wrap [.caller on]⟩
  | .pretty => ⟨{ scan.flags with pretty := on }, scan.logger.wrap [.pretty on]⟩

def isFlag (argument : Bytes) : Bool := argument.head? = some 45

def run (scan : LogScan) : List Bytes → LogScan
  | [] => scan
  | argument :: rest =>
      if argument = utf8 "--" then scan
      else match LogArgument.ofArgument? argument with
        | none => run scan rest
        | some (.switch flag on) => run (scan.setSwitch flag on) rest
        | some (.text flag (some value)) => run (scan.setText flag value) rest
        | some (.text flag none) =>
            match rest with
            | [] => scan.setText flag []
            | next :: more =>
                if isFlag next then run (scan.setText flag []) (next :: more)
                else run (scan.setText flag next) more

end LogScan

end Inlay
