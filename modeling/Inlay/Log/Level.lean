import Inlay.Text.Blank

/-!
Severities and formats of log records. A severity is a number; five of them have names, and any
other one is written as the named one below it and the distance to it.
-/

namespace Inlay.Log

structure Level where
  value : Int
  deriving DecidableEq, Repr, Inhabited

namespace Level

def trace : Level := ⟨-8⟩
def debug : Level := ⟨-4⟩
def info : Level := ⟨0⟩
def warn : Level := ⟨4⟩
def error : Level := ⟨8⟩

def named : List (Level × String) :=
  [(trace, "trace"), (debug, "debug"), (info, "info"), (warn, "warn"), (error, "error")]

def name (level : Level) : Bytes :=
  match named.lookup level with
  | some name => utf8 name
  | none => utf8 "Level(" ++ Bytes.ofInt level.value ++ utf8 ")"

/-- A name and a signed distance, which is left out if it is zero. -/
def offset (base : String) (distance : Int) : Bytes :=
  if distance = 0 then utf8 base
  else if distance < 0 then utf8 base ++ Bytes.ofInt distance
  else utf8 base ++ utf8 "+" ++ Bytes.ofInt distance

/-- A severity by the nearest standard one that is not above it, `INFO+2`. -/
def text (level : Level) : Bytes :=
  if level.value < 0 then offset "DEBUG" (level.value + 4)
  else if level.value < 4 then offset "INFO" level.value
  else if level.value < 8 then offset "WARN" (level.value - 4)
  else offset "ERROR" (level.value - 8)

/-- A severity as records show it: everything up to trace is `TRACE`. -/
def label (level : Level) : Bytes :=
  if level.value ≤ trace.value then utf8 "TRACE" else level.text

/-- The upper case of a character, where that is a letter of ASCII. The dotless i has one too. -/
def upperAscii (c : Char) : Char := if c = 'ı' then 'I' else c.toUpper

def standard? (name : List Char) : Option Level :=
  let name := String.ofList (name.map upperAscii)
  if name = "DEBUG" then some debug
  else if name = "INFO" then some info
  else if name = "WARN" then some warn
  else if name = "ERROR" then some error
  else none

def signed? : List Char → Option Int
  | sign :: digits =>
      match Bytes.toNat? (Utf8.ofChars digits) with
      | some n =>
          if sign = '+' && n < 0x8000000000000000 then some n
          else if sign = '-' && n ≤ 0x8000000000000000 then some (-n)
          else none
      | none => none
  | [] => none

/-- The severity that a setting names, in any case and with a signed distance if it likes; what
names none is the default. -/
def parse (text : Bytes) : Level :=
  let chars := Utf8.chars (trim text)
  if chars.map Char.toLower = "trace".toList then trace
  else
    let (name, rest) := chars.span fun c => c != '+' && c != '-'
    let distance := if rest.isEmpty then some 0 else signed? rest
    match distance, standard? name with
    | some distance, some base => ⟨(base.value + distance).bmod 0x10000000000000000⟩
    | _, _ => info

end Level

inductive Format where
  | text
  | json
  | other (code : Int)
  deriving DecidableEq, Repr, Inhabited

namespace Format

def named : List Format := [.json, .text]

def name : Format → Bytes
  | .text => utf8 "text"
  | .json => utf8 "json"
  | .other code => utf8 "Format(" ++ Bytes.ofInt code ++ utf8 ")"

def parse (text : Bytes) : Format :=
  if (Utf8.chars (trim text)).map Char.toLower = "text".toList then .text else .json

end Format

end Inlay.Log
