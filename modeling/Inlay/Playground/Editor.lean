import Inlay.Text.Utf8

/-!
The editor of a playground: a text with a cursor in it.
-/

namespace Inlay

/-- A text with a cursor: the characters before it, the nearest first, and those after it. -/
structure Editor where
  before : List Char := []
  after : List Char := []
  deriving DecidableEq, Repr, Inhabited

inductive EditKey where
  | insert (c : Char)
  | newline
  | back
  | delete
  | left
  | right
  | lineStart
  | lineEnd
  | textStart
  | textEnd
  | cutBefore
  | cutAfter
  deriving DecidableEq, Repr

namespace Editor

def chars (editor : Editor) : List Char := editor.before.reverse ++ editor.after

def text (editor : Editor) : Bytes := Utf8.ofChars editor.chars

def lineCount (chars : List Char) : Nat := chars.count '\n' + 1

def lineLimit : Nat := 10000

def keyLineLimit : Nat := 99

/-- What a character becomes in the text: tabs become spaces, all line breaks are alike, and other
control characters are dropped. -/
def clean (c : Char) : List Char :=
  if c = Utf8.replacement then []
  else if c = '\r' || c = '\n' then ['\n']
  else if c = '\t' then [' ', ' ', ' ', ' ']
  else if c.toNat < 0x20 || (0x7F ≤ c.toNat && c.toNat < 0xA0) then []
  else [c]

def takeLines : (count : Nat) → List Char → List Char
  | 0, _ => []
  | _, [] => []
  | count + 1, c :: rest =>
      if c = '\n' then if count = 0 then [] else c :: takeLines count rest
      else c :: takeLines (count + 1) rest

/-- The editor with characters put in before the cursor, as many lines of them as there can be. -/
def insert (editor : Editor) (chars : List Char) : Editor :=
  let room := lineLimit - lineCount editor.chars + 1
  { editor with before := (takeLines room (chars.flatMap clean)).reverse ++ editor.before }

def ofText (text : Bytes) : Editor := insert {} (Utf8.chars text)

def press (editor : Editor) : EditKey → Editor
  | .insert c => editor.insert [c]
  | .newline =>
      if keyLineLimit ≤ lineCount editor.chars then editor
      else { editor with before := '\n' :: editor.before }
  | .back => { editor with before := editor.before.tail }
  | .delete => { editor with after := editor.after.tail }
  | .left =>
      match editor.before with
      | c :: rest => ⟨rest, c :: editor.after⟩
      | [] => editor
  | .right =>
      match editor.after with
      | c :: rest => ⟨c :: editor.before, rest⟩
      | [] => editor
  | .lineStart =>
      let (line, rest) := editor.before.span (· != '\n')
      ⟨rest, line.reverse ++ editor.after⟩
  | .lineEnd =>
      let (line, rest) := editor.after.span (· != '\n')
      ⟨line.reverse ++ editor.before, rest⟩
  | .textStart => ⟨[], editor.chars⟩
  | .textEnd => ⟨editor.chars.reverse, []⟩
  | .cutBefore =>
      let (line, rest) := editor.before.span (· != '\n')
      { editor with before := if line.isEmpty then rest.tail else rest }
  | .cutAfter =>
      let (line, rest) := editor.after.span (· != '\n')
      { editor with after := if line.isEmpty then rest.tail else rest }

end Editor

end Inlay
