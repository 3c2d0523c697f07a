import Inlay.Command.World

/-!
Sources. The paths among the arguments of a command name its sources; a file is a source once,
however often and by whatever paths it is named, and the standard input comes last.
-/

namespace Inlay

structure Source where
  name : Bytes
  path : Option Bytes
  deriving DecidableEq, Repr, Inhabited

/-- Where a path leads: the path without links, and what tells the file from all others. -/
structure Located (κ : Type) where
  path : Bytes
  key : κ

namespace Source

def inputName : Bytes := utf8 "-"

def input : Source := ⟨inputName, none⟩

def file (name path : Bytes) : Source := ⟨name, some path⟩

def unopened (name cause : Bytes) : Problem :=
  (Problem.openSource.causedBy (.plain cause)).withAttrs [Log.Attr.string "file" name]

/-- The files that paths lead to, each where it is first named and not among `seen`. -/
def files {κ : Type} [DecidableEq κ] (locate : Bytes → Except Bytes (Located κ)) :
    (seen : List κ) → List Bytes → Except Problem (List Source)
  | _, [] => .ok []
  | seen, name :: rest =>
      if name = inputName then files locate seen rest
      else match locate name with
        | .error cause => .error (unopened name cause)
        | .ok located =>
            if located.key ∈ seen then files locate seen rest
            else match files locate (located.key :: seen) rest with
              | .error problem => .error problem
              | .ok more => .ok (file name located.path :: more)

/-- The sources that paths name; without any paths that is the standard input. -/
def resolve {κ : Type} [DecidableEq κ] (locate : Bytes → Except Bytes (Located κ))
    (paths : List Bytes) : Except Problem (List Source) :=
  if paths.isEmpty then .ok [input]
  else match files locate [] paths with
    | .error problem => .error problem
    | .ok found => .ok (if paths.contains inputName then found ++ [input] else found)

end Source

namespace Disk

def realPath (disk : Disk) (path : Bytes) : Bytes :=
  match disk.walk path with
  | .error _ => path
  | .ok (place, _) => Path.ofPlace place

/-- Where a path leads. A file is told from others by its place, which all of its names have in
common. -/
def located (disk : Disk) (path : Bytes) : Except Bytes (Located Place) :=
  match disk.locate path with
  | .error fault => .error (fault.report "lstat" path)
  | .ok (place, _) =>
      .ok ⟨if Path.isAbsolute path then disk.realPath path
        else if path.isEmpty then utf8 "." else path, place⟩

end Disk

namespace CommandM

def sources (paths : List Bytes) : CommandM (List Source) := do
  match Source.resolve (← get).disk.located paths with
  | .ok sources => return sources
  | .error problem => throw problem

def read (source : Source) : CommandM Bytes := do
  match source.path with
  | none =>
      modify fun w => { w with inputRead := true }
      return (← get).input
  | some path =>
      match (← get).disk.read path with
      | .ok content => return content
      | .error cause => throw (Source.unopened source.name cause)

end CommandM

end Inlay
