import Inlay.Markup.Tag

/-!
Fragments between boundaries. A fragment begins at a tag after any one character, or anywhere on a
line after `(` and a line end or after an empty line; it runs to a closing tag that stands before
one of the trailing boundaries. Of all matches the one that begins first is taken, and of these the
one whose parts end first, except that a closing tag and the text on the lines around extend as far
as they can.
-/

namespace Inlay.Boundary

def skip? : List Char → List Mark → Option (List Mark)
  | [], marks => some marks
  | _ :: _, [] => none
  | c :: cs, m :: rest => if m.char = c then skip? cs rest else none

/-- The marks after the end of the line, one character on the next line and `ending`. -/
def skipToNextLine? (ending : List Char) (marks : List Mark) : Option (List Mark) :=
  match marks.dropWhile fun m => m.char != '\n' with
  | _ :: m :: rest => if m.char = '\n' then none else skip? ending rest
  | _ => none

def trailing? (marks : List Mark) : Option (List Mark) :=
  match ["\n\n", ")\n\n", ");", "\n)", "\n\x7d", " \x7d", "\x7d\n"].findSome? fun boundary =>
    skip? boundary.toList marks with
  | some rest => some rest
  | none => (skipToNextLine? [')', ';'] marks).or (skipToNextLine? [')'] marks)

/-- The marks after a fragment, and those after its trailing boundary. -/
structure Ends where
  after : List Mark
  resume : List Mark

/-- The last `>` on the line that a trailing boundary follows. -/
def lastOnLine : List Mark → Option Ends
  | [] => none
  | m :: rest =>
      if m.char = '\n' then none
      else match lastOnLine rest with
        | some ends => some ends
        | none => if m.char = '>' then (trailing? rest).map fun resume => ⟨rest, resume⟩ else none

/-- The first closing tag that ends a fragment, before a NUL. -/
def closing : List Mark → Option Ends
  | [] => none
  | m :: rest =>
      match if startsClosing (m :: rest) then lastOnLine (rest.drop 1) else none with
      | some ends => some ends
      | none => if m.char = '\x00' then none else closing rest

/-- The first `>` without a slash before it from which the fragment can be completed. -/
def afterName : List Mark → Option Ends
  | [] => none
  | m :: rest =>
      let here := match rest with
        | n :: after => if m.char != '/' && n.char = '>' then closing after else none
        | [] => none
      match here with
      | some ends => some ends
      | none => if m.char = '\x00' then none else afterName rest

def fragment? : List Mark → Option (List Mark × Ends)
  | m :: n :: rest =>
      if m.char = '<' && (n.char.isAlphanum || n.char = '_') then
        (afterName rest).map fun ends => (m :: n :: rest, ends)
      else none
  | _ => none

def lastFragment? : List Mark → Option (List Mark × Ends)
  | [] => none
  | m :: rest =>
      (if m.char = '\n' then none else lastFragment? rest).or (fragment? (m :: rest))

def leading? : List Mark → Option (List Mark × Ends)
  | [] => none
  | m :: rest =>
      let next := rest.head?.map (·.char)
      (if m.char = '\n' then none else fragment? rest).or <|
        (fragment? (m :: rest)).or <|
          if next = some '\n' && (m.char = '(' || m.char = '\n') then lastFragment? (rest.drop 1)
          else none

/-- The first fragment: the marks from it on, and its ends. -/
def search : List Mark → Option (List Mark × Ends)
  | [] => none
  | m :: rest =>
      match leading? (m :: rest) with
      | some found => some found
      | none => search rest

end Inlay.Boundary
