import Inlay.File.Disk
import Inlay.Problem
import Inlay.Text.Blank
import Inlay.Text.Quoted

/-!
The history of a playground: texts of earlier sessions, the oldest first, each of them once. A file
keeps every entry as a quoted text on a line of its own.
-/

namespace Inlay

structure History where
  entries : List Bytes := []
  deriving DecidableEq, Repr, Inhabited

/-- What an addition to a history does to its file. -/
inductive Saving where
  | nothing
  | appended (line : Bytes)
  | replaced (content : Bytes)
  deriving DecidableEq, Repr, Inhabited

/-- The content of a file afterwards; a file that is not there is created. -/
def Saving.apply (saving : Saving) (file : Option Bytes) : Option Bytes :=
  match saving with
  | nothing => file
  | appended line => some (file.getD [] ++ line)
  | replaced content => some content

namespace History

def isEntry (text : Bytes) : Bool := !(trim text).isEmpty

def line (entry : Bytes) : Bytes := Quoted.encode entry ++ utf8 "\n"

def file (entries : List Bytes) : Bytes := entries.flatMap line

def lineLimit : Nat := 1048576

/-- The lines of a file, without the carriage returns at their ends. The last one may lack its line
break. -/
def lines (content : Bytes) : List Bytes :=
  let parts := Bytes.split (utf8 "\n") content
  if parts.getLast? = some [] then parts.dropLast else parts

def entryOf? (line : Bytes) : Option Bytes :=
  match Quoted.decode (Bytes.dropEnding line (utf8 "\r")) with
  | some text => if isEntry text then some text else none
  | none => none

/-- The entries of a file, up to a line that is too long. -/
def read (content : Bytes) : List Bytes :=
  ((lines content).takeWhile fun line => line.length < lineLimit).filterMap entryOf?

def isTooLong (content : Bytes) : Bool := (lines content).any fun line => lineLimit ≤ line.length

def load (history : History) (file : Option Bytes) : History :=
  match file with
  | none => history
  | some content => ⟨read content⟩

/-- The history with one more entry, which comes last and is not repeated, and what this does to the
file. Texts without content and a repetition of the last entry are passed over. -/
def add (history : History) (text : Bytes) : History × Saving :=
  if !isEntry text || history.entries.getLast? = some text then (history, .nothing)
  else if history.entries.contains text then
    let entries := history.entries.erase text ++ [text]
    (⟨entries⟩, .replaced (file entries))
  else (⟨history.entries ++ [text]⟩, .appended (line text))

def get? (history : History) (index : Int) : Option Bytes :=
  if index < 0 then none else history.entries[index.toNat]?

def get (history : History) (index : Int) : Except Problem Bytes :=
  match history.get? index with
  | some entry => .ok entry
  | none => .error (.plain (utf8 "index out of range"))

/-- Loads the history from a file on a disk; an empty path stands for no file. The second result
tells what went wrong. -/
def loadFrom (history : History) (disk : Disk) (path : Bytes) : History × Option Bytes :=
  if path.isEmpty then (history, none)
  else match disk.locate path with
    | .error .missing => (history, none)
    | .error fault => (history, some (fault.report "open" path))
    | .ok (_, .file content) =>
        (history.load (some content),
          if isTooLong content then some (utf8 "bufio.Scanner: token too long") else none)
    | .ok _ => ({}, some (DiskFault.isFolder.report "read" path))

/-- Adds an entry to the history and to its file on a disk; an empty path stands for no file. The
last result tells what went wrong. -/
def addTo (history : History) (disk : Disk) (path text : Bytes) : History × Disk × Option Bytes :=
  let (after, saving) := history.add text
  let changed : Except Bytes Disk := match saving with
    | .nothing => .ok disk
    | .appended line => if path.isEmpty then .ok disk else disk.append path line
    | .replaced content => if path.isEmpty then .ok disk else disk.write path content
  match changed with
  | .ok disk => (after, disk, none)
  | .error message => (after, disk, some message)

end History

end Inlay
