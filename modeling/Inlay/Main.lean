import Inlay.Command.Run
import Std.Time.DateTime.Timestamp

/-!
The program. It copies the files that a run may need to a disk in memory, runs there, and writes
back what the run has changed.
-/

namespace Inlay.Program

def text (bytes : Bytes) : String := String.ofList (Utf8.chars bytes)

def pathsIn (argument : Bytes) : List Bytes :=
  [argument, argument.drop 2, (argument.dropWhile (· != 61)).drop 1].filter fun path =>
    !path.isEmpty

def pathsOf (documents : List FlagDocument) : List Bytes :=
  documents.flatMap fun document => [Flag.output, Flag.data].filterMap fun flag =>
    match document flag with
    | some (.string path) => some path
    | _ => none

/-- The disk with a copy of what is at a path, if anything, and of the folders that lead there. A
path that leads through links becomes a link itself. -/
def copy (home : Place) (disk : Disk) (path : Bytes) : IO Disk := do
  let absolute := Path.absolute home disk.working path
  let place := (Path.names absolute).foldl Path.step []
  let add (disk : Disk) (place : Place) (item : DiskItem) : Disk :=
    { disk with items := Disk.put place item disk.items }
  let reach (disk : Disk) (place : Place) : IO Disk := do
    try
      let real ← IO.FS.realPath (text (Path.ofPlace place))
      if !(← real.pathExists) then return disk
      let target := Path.names (utf8 real.toString)
      let item ← if ← real.isDir then pure DiskItem.folder
        else pure (DiskItem.file (← IO.FS.readBinFile real).toList)
      let disk := add disk target item
      return if target = place then disk else add disk place (.link (Path.ofPlace target))
    catch _ => return disk
  reach (← reach disk place.dropLast) place

/-- The folder of the program below one that the environment names, or else below one at home. -/
def folder (setting fallback : String) (home : Place) (name : Bytes) : IO Bytes := do
  let path := (← IO.getEnv setting).getD ""
  return if path.isEmpty then Path.ofPlace (home ++ [utf8 fallback, name])
    else utf8 path ++ utf8 "/" ++ name

def world (arguments : List Bytes) : IO World := do
  let home := Path.names (utf8 ((← IO.getEnv "HOME").getD ""))
  let name := utf8 ((← IO.appPath).fileStem.getD "jsxc")
  let settings ← folder "XDG_CONFIG_HOME" ".config" home name
  let cache ← folder "XDG_CACHE_HOME" ".cache" home name
  IO.FS.createDirAll (text settings)
  IO.FS.createDirAll (text cache)
  let time := (← Std.Time.Timestamp.now).val
  let now := Log.Timestamp.ofSeconds time.second.val time.nano.val.toNat
  let disk : Disk := { working := Path.names (utf8 (← IO.currentDir).toString) }
  let world : World := { disk, home, settings, logger := .make [.now now] }
  let disk ← [world.settingsPath "config.json",
      world.settingsPath "config.yaml"].foldlM (copy home) disk
  let documents := match { world with disk }.documents with
    | .ok documents => documents
    | .error _ => []
  let disk ← (arguments.flatMap pathsIn ++ pathsOf documents).foldlM (copy home) disk
  return { world with disk }

def store (before after : Disk) : IO Unit :=
  after.items.forM fun (place, item) =>
    match item with
    | .file content =>
        if before.items.lookup place = some item then pure ()
        else IO.FS.writeBinFile (text (Path.ofPlace place)) ⟨content.toArray⟩
    | _ => pure ()

end Inlay.Program

open Inlay

/-- Runs with the arguments of the command line. The standard input is read if a run without it asks
for it. -/
def main (arguments : List String) : IO UInt32 := do
  let arguments := arguments.map utf8
  let start ← Program.world arguments
  let input ←
    if (run arguments start).2.inputRead then (← IO.getStdin).readBinToEnd else pure .empty
  let (ending, final) := run arguments { start with input := input.toList }
  Program.store start.disk final.disk
  (← IO.getStdout).write ⟨final.output.toArray⟩
  (← IO.getStderr).write ⟨final.session.log.toArray⟩
  return if ending.message?.isSome then 1 else 0
