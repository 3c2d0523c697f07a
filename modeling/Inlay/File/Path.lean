import Inlay.Text.Bytes

/-!
Paths. A path names a file by the folders that lead to it, from the root or from the folder one
works in; a place is the list of names from the root down.
-/

namespace Inlay

abbrev Place := List Bytes

namespace Path

def isAbsolute (path : Bytes) : Bool := path.head? = some 47

/-- The names in a path; empty ones and single dots lead nowhere. -/
def names (path : Bytes) : List Bytes :=
  (Bytes.split (utf8 "/") path).filter fun name => name != [] && name != utf8 "."

/-- The place that a name leads to: two dots lead to the folder around. -/
def step (place : Place) (name : Bytes) : Place :=
  if name = utf8 ".." then place.dropLast else place ++ [name]

def ofPlace (place : Place) : Bytes := utf8 "/" ++ Bytes.join (utf8 "/") place

/-- The path from the root that a path stands for: one that starts at the root stands for itself,
and a tilde for the home folder. -/
def absolute (home working : Place) (path : Bytes) : Bytes :=
  if isAbsolute path then path
  else match Bytes.dropStart? (utf8 "~/") path with
    | some rest => ofPlace ((names rest).foldl step home)
    | none => ofPlace ((names path).foldl step working)

end Path

end Inlay
