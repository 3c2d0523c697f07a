import Inlay.Log.Attr

/-!
Settings of a log: from which severity records are written, how, and with which time.
-/

namespace Inlay.Log

structure Settings where
  level : Level := .info
  format : Format := .json
  /-- The layout of the time; records without one show no time. -/
  layout : Option Bytes := some Timestamp.secondsLayout
  caller : Bool := false
  pretty : Bool := true
  discard : Bool := false
  now : Timestamp := .epoch
  deriving Inhabited

abbrev Setting := Settings → Settings

namespace Setting

def level (level : Level) : Setting := fun s => { s with level }

def format (format : Format) : Setting := fun s => { s with format }

def layout (layout : Bytes) : Setting := fun s => { s with layout := Timestamp.layout? layout }

def caller (caller : Bool) : Setting := fun s => { s with caller }

def pretty (pretty : Bool) : Setting := fun s => { s with pretty }

def discard : Setting := fun s => { s with discard := true }

def now (now : Timestamp) : Setting := fun s => { s with now }

end Setting

def Settings.apply (settings : Settings) (steps : List Setting) : Settings :=
  steps.foldl (fun s step => step s) settings

structure Origin where
  function : Bytes
  file : Bytes
  line : Nat
  deriving DecidableEq, Repr, Inhabited

def Origin.text (origin : Origin) : Bytes := origin.file ++ utf8 ":" ++ Bytes.ofNat origin.line

/-- One entry of a log; some records have no time or no origin. -/
structure Record where
  time : Option Timestamp
  level : Level
  message : Bytes
  attrs : List Attr
  origin : Option Origin := none

def Record.make (time : Option Timestamp) (level : Level) (message : Bytes) (attrs : List Attr) :
    Record :=
  { time, level, message, attrs := attrs.filter fun a => !a.2.isEmptyGroup }

/-- The attribute that takes the place of one outside of every group: the time and the severity are
written as texts, and a time that is not to be shown disappears. -/
def Settings.replace? (settings : Settings) (attr : Attr) : Option Attr :=
  match attr with
  | (key, .time t) =>
      if key = utf8 "time" then
        match settings.layout with
        | none => none
        | some layout =>
            let text := t.format layout
            if text.isEmpty then none else some (key, .string text)
      else some attr
  | (key, .level l) => if key = utf8 "level" then some (key, .string l.label) else some attr
  | _ => some attr

/-- What takes the place of an attribute inside groups; one without a name is left out. -/
abbrev Replacement := List Bytes → Attr → Attr

def Settings.replacement (settings : Settings) : Replacement := fun groups attr =>
  if groups.isEmpty then (settings.replace? attr).getD ([], .data .null) else attr

/-- The attributes that every record has, its origin among them if the settings ask for it. -/
def Record.builtin (settings : Settings) (told : Origin → Value) (record : Record) : List Attr :=
  (match record.time with
    | some t => [(utf8 "time", .time t)]
    | none => []) ++
  [(utf8 "level", .level record.level)] ++
  (match record.origin with
    | some origin => if settings.caller then [(utf8 "source", told origin)] else []
    | none => []) ++
  [(utf8 "msg", .string record.message)]

end Inlay.Log
