import Inlay.File.Path

/-!
Disks. A disk has files, folders and links to other places, and a file can have further names; every
operation follows links and either succeeds or tells why it does not.
-/

namespace Inlay

inductive DiskItem where
  | file (content : Bytes)
  | folder
  | link (target : Bytes)
  /-- A further name of the file at a place. -/
  | hardLink (file : Place)
  deriving DecidableEq, Repr, Inhabited

inductive DiskFault where
  | missing
  | notFolder
  | isFolder
  | tooManyLinks
  deriving DecidableEq, Repr, Inhabited

def DiskFault.text : DiskFault → Bytes
  | missing => utf8 "no such file or directory"
  | notFolder => utf8 "not a directory"
  | isFolder => utf8 "is a directory"
  | tooManyLinks => utf8 "too many levels of symbolic links"

def DiskFault.report (fault : DiskFault) (operation : String) (path : Bytes) : Bytes :=
  utf8 operation ++ utf8 " " ++ path ++ utf8 ": " ++ fault.text

/-- The items of a disk by their places, and the folder that paths start from. -/
structure Disk where
  items : List (Place × DiskItem) := []
  working : Place := []
  deriving Repr, Inhabited

namespace Disk

/-- What a place holds. Whatever lies below a place makes it a folder. -/
def item? (disk : Disk) (place : Place) : Option DiskItem :=
  match disk.items.lookup place with
  | some item => some item
  | none =>
      if place.isEmpty || place.isPrefixOf disk.working ||
          disk.items.any (fun item => place.isPrefixOf item.1) then some .folder
      else none

/-- The place that names lead to from `place`, and what it holds, if anything. At most `fuel` names
are followed, those in links included. -/
def follow (disk : Disk) : (fuel : Nat) → Place → List Bytes →
    Except DiskFault (Place × Option DiskItem)
  | 0, _, _ => .error .tooManyLinks
  | _ + 1, place, [] => .ok (place, disk.item? place)
  | fuel + 1, place, name :: rest =>
      if name = utf8 ".." then follow disk fuel place.dropLast rest
      else match disk.item? (place ++ [name]) with
        | some (.link target) =>
            follow disk fuel (if Path.isAbsolute target then [] else place)
              (Path.names target ++ rest)
        | some .folder => follow disk fuel (place ++ [name]) rest
        | some item => if rest.isEmpty then .ok (place ++ [name], some item) else .error .notFolder
        | none => if rest.isEmpty then .ok (place ++ [name], none) else .error .missing

/-- Where a path leads by its names, links followed. -/
def walk (disk : Disk) (path : Bytes) : Except DiskFault (Place × Option DiskItem) :=
  let names := Path.names path
  disk.follow (names.length + 256) (if Path.isAbsolute path then [] else disk.working) names

/-- The place of the file that a name stands for, which is the same for all of its names. -/
def owner (disk : Disk) (found : Place × Option DiskItem) : Place × Option DiskItem :=
  match found.2 with
  | some (.hardLink file) => (file, disk.item? file)
  | _ => found

/-- The file, folder or missing file that a path leads to, by whichever of its names. -/
def resolve (disk : Disk) (path : Bytes) : Except DiskFault (Place × Option DiskItem) :=
  (disk.walk path).map disk.owner

def locate (disk : Disk) (path : Bytes) : Except DiskFault (Place × DiskItem) :=
  match disk.resolve path with
  | .error fault => .error fault
  | .ok (_, none) => .error .missing
  | .ok (place, some item) => .ok (place, item)

def read (disk : Disk) (path : Bytes) : Except Bytes Bytes :=
  match disk.locate path with
  | .error fault => .error (fault.report "open" path)
  | .ok (_, .file content) => .ok content
  | .ok _ => .error (DiskFault.isFolder.report "read" path)

def put (place : Place) (item : DiskItem) : List (Place × DiskItem) → List (Place × DiskItem)
  | [] => [(place, item)]
  | (p, old) :: rest => if p = place then (p, item) :: rest else (p, old) :: put place item rest

/-- The disk on which the content of a file is what `change` makes of it; a file that is not there
is created, its content being empty before. -/
def modify (disk : Disk) (path : Bytes) (change : Bytes → Bytes) : Except Bytes Disk :=
  match disk.resolve path with
  | .error fault => .error (fault.report "open" path)
  | .ok (place, none) => .ok { disk with items := put place (.file (change [])) disk.items }
  | .ok (place, some (.file content)) =>
      .ok { disk with items := put place (.file (change content)) disk.items }
  | .ok _ => .error (DiskFault.isFolder.report "open" path)

def write (disk : Disk) (path content : Bytes) : Except Bytes Disk :=
  disk.modify path fun _ => content

def append (disk : Disk) (path more : Bytes) : Except Bytes Disk :=
  disk.modify path fun old => old ++ more

def isThere (disk : Disk) (path : Bytes) : Bool :=
  match disk.locate path with
  | .ok _ => true
  | .error _ => false

end Disk

end Inlay
