import Inlay.Log.Settings
import Inlay.Text.Width

/-!
Records for people to read. Groups are flattened into dotted names; a record is one line of `k=v`
pairs, or one pair on each line between braces.
-/

namespace Inlay.Log

/-- A writer of flat records: the pairs that every record has, already flattened, and the groups
that the attributes of a record are in. -/
structure Flat where
  settings : Settings
  /-- What takes the place of attributes with plain values, if anything does. -/
  replacement : Option Replacement := some settings.replacement
  braces : Bool
  pairs : List Attr := []
  groups : List Bytes := []

namespace Flat

def dotted (groups : List Bytes) (key : Bytes) : Bytes :=
  if groups.isEmpty then key else Bytes.join (utf8 ".") groups ++ utf8 "." ++ key

def pair (replacement : Option Replacement) (groups : List Bytes) (attr : Attr) : List Attr :=
  let replaced := match replacement with
    | some replace => replace groups attr
    | none => attr
  if replaced.1.isEmpty then [] else [(dotted groups replaced.1, replaced.2)]

mutual

def flatten (replacement : Option Replacement) (groups : List Bytes) (key : Bytes) :
    Value → List Attr
  | .group members =>
      flattenAll replacement (if key.isEmpty then groups else groups ++ [key]) members
  | .deferred v => flatten replacement groups key v
  | .string s => pair replacement groups (key, .string s)
  | .int n => pair replacement groups (key, .int n)
  | .float x => pair replacement groups (key, .float x)
  | .bool b => pair replacement groups (key, .bool b)
  | .duration ns => pair replacement groups (key, .duration ns)
  | .time t => pair replacement groups (key, .time t)
  | .level l => pair replacement groups (key, .level l)
  | .data v => pair replacement groups (key, .data v)

def flattenAll (replacement : Option Replacement) (groups : List Bytes) :
    List (Bytes × Value) → List Attr
  | [] => []
  | (key, v) :: rest => flatten replacement groups key v ++ flattenAll replacement groups rest

end

def withAttrs (writer : Flat) (attrs : List Attr) : Flat :=
  { writer with pairs := writer.pairs ++ flattenAll writer.replacement writer.groups attrs }

/-- The writer whose further attributes are in a group; a group without a name is none. -/
def withGroup (writer : Flat) (name : Bytes) : Flat :=
  if name.isEmpty then writer else { writer with groups := writer.groups ++ [name] }

def plainSpaces : Bytes → Bytes
  | 9 :: rest => utf8 "    " ++ plainSpaces rest
  | 13 :: 10 :: rest => 10 :: plainSpaces rest
  | b :: rest => b :: plainSpaces rest
  | [] => []

def lines : Bytes → List Bytes
  | [] => [[]]
  | b :: rest =>
      if b == 10 then [] :: lines rest
      else match lines rest with
        | [] => [[b]]
        | line :: more => (b :: line) :: more

/-- A text as a block: if it has several lines, all of them are as wide as the widest. -/
def block (text : Bytes) : Bytes :=
  match lines (plainSpaces text) with
  | [line] => line
  | many =>
      let widest := (many.map Width.ofText).foldl max 0
      Bytes.join (utf8 "\n") (many.map fun line =>
        line ++ List.replicate (widest - Width.ofText line) 32)

def valueText : Value → Bytes
  | .data .null => utf8 "null"
  | v => v.text

def shown (pair : Attr) : Bytes :=
  block (if pair.1 = utf8 "level" then pair.2.text else valueText pair.2)

def layOut (braces : Bool) (pairs : List Attr) : Bytes :=
  if braces then
    utf8 "\x7b" ++ Bytes.join (utf8 ",") (pairs.map fun p =>
      utf8 "\n  " ++ block p.1 ++ utf8 ": " ++ shown p) ++ utf8 "\n\x7d\n"
  else
    Bytes.join (utf8 " ") (pairs.map fun p => block p.1 ++ utf8 "=" ++ shown p) ++ utf8 "\n"

/-- All pairs of a record: those that every record has, those of the writer and those of its own. -/
def fields (writer : Flat) (record : Record) : List Attr :=
  (record.builtin writer.settings fun origin => .string origin.text).flatMap
    (pair writer.replacement []) ++
    writer.pairs ++ flattenAll writer.replacement writer.groups record.attrs

def write (writer : Flat) (record : Record) : Bytes := layOut writer.braces (writer.fields record)

end Flat

end Inlay.Log
