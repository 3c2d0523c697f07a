import Inlay.Log.Settings

/-!
Records for programs to read: one JSON object on a line, with an object for each group, or one line
of `k=v` pairs with dotted names, quoted where they need it.
-/

namespace Inlay.Log

namespace Nested

def needsQuote (g : Glyph) : Bool :=
  let c := g.char
  if c.toNat < 0x80 then c.toNat < 0x20 || c = ' ' || c = '"' || c = '='
  else c = Utf8.replacement || isBlank c || !isPrintable c

def needsQuotes (text : Bytes) : Bool := text.isEmpty || (Utf8.glyphs text).any needsQuote

def quoteIfNeeded (text : Bytes) : Bytes := if needsQuotes text then Quoted.encode text else text

end Nested

def Origin.value (json : Bool) (origin : Origin) : Value :=
  if origin = ⟨[], [], 0⟩ then .group []
  else if json then
    .group
      ((if origin.function.isEmpty then [] else [(utf8 "function", .string origin.function)]) ++
      (if origin.file.isEmpty then [] else [(utf8 "file", .string origin.file)]) ++
      (if origin.line = 0 then [] else [(utf8 "line", .int origin.line)]))
  else .string origin.text

structure Draft where
  json : Bool
  text : Bytes := []
  separator : Bytes := []
  /-- The names of the open groups with a point after each, which precede the names of pairs. -/
  path : Bytes := []
  depth : Nat := 0

namespace Draft

def between (draft : Draft) : Bytes := if draft.json then utf8 "," else utf8 " "

def add (draft : Draft) (text : Bytes) : Draft := { draft with text := draft.text ++ text }

def name (draft : Draft) (key : Bytes) : Bytes :=
  if draft.json then Json.Style.bare.quote key
  else if draft.path.isEmpty then Nested.quoteIfNeeded key
  else if Nested.needsQuotes draft.path || Nested.needsQuotes key then
    Quoted.encode (draft.path ++ key)
  else draft.path ++ key

def key (draft : Draft) (key : Bytes) : Draft :=
  { draft with
    text := draft.text ++ draft.separator ++ draft.name key ++
      (if draft.json then utf8 ":" else utf8 "=")
    separator := draft.between }

def openGroup (draft : Draft) (name : Bytes) : Draft :=
  let opened :=
    if draft.json then { (draft.key name).add (utf8 "\x7b") with separator := [] }
    else { draft with path := draft.path ++ name ++ utf8 "." }
  { opened with depth := draft.depth + 1 }

def closeGroup (draft : Draft) (name : Bytes) : Draft :=
  let closed :=
    if draft.json then draft.add (utf8 "\x7d")
    else { draft with path := draft.path.take (draft.path.length - name.length - 1) }
  { closed with separator := draft.between, depth := draft.depth - 1 }

def jsonValue : Value → Bytes
  | .string s => Json.Style.bare.quote s
  | .int n => Bytes.ofInt n
  | .float x => Number.Layout.json.text x
  | .bool true => utf8 "true"
  | .bool false => utf8 "false"
  | .duration ns => Bytes.ofInt ns
  | .time t => Json.Style.bare.quote (t.format Timestamp.preciseLayout)
  | .level l => Json.Style.bare.quote l.text
  | .data v => ((v.toJson?).getD .null).write .bare
  | v => Json.Style.bare.quote v.text

def pairValue : Value → Bytes
  | .time t => t.format Timestamp.millisLayout
  | .string s => Nested.quoteIfNeeded s
  | .level l => Nested.quoteIfNeeded l.text
  | .data v => Nested.quoteIfNeeded v.text
  | v => v.text

def isVoidAttr : Attr → Bool
  | ([], .data .null) => true
  | _ => false

def leaf (settings : Settings) (draft : Draft) (key : Bytes) (value : Value) : Draft × Bool :=
  let replaced := if draft.depth = 0 then settings.replace? (key, value) else some (key, value)
  match replaced with
  | none => (draft, false)
  | some attr =>
      if isVoidAttr attr then (draft, false)
      else
        let value := if draft.json then jsonValue attr.2 else pairValue attr.2
        ((draft.key attr.1).add value, true)

mutual

/-- Adds an attribute, and tells whether there was something to add. A group of which nothing was
added leaves no text, though the attributes after it count as inside of it. -/
def attr (settings : Settings) (draft : Draft) (key : Bytes) : Value → Draft × Bool
  | .group [] => (draft, true)
  | .group (member :: members) =>
      let opened := if key.isEmpty then draft else draft.openGroup key
      let (after, added) := attrs settings opened (member :: members)
      if added then (if key.isEmpty then after else after.closeGroup key, true)
      else ({ after with text := draft.text }, false)
  | .deferred v => attr settings draft key v
  | .string s => leaf settings draft key (.string s)
  | .int n => leaf settings draft key (.int n)
  | .float x => leaf settings draft key (.float x)
  | .bool b => leaf settings draft key (.bool b)
  | .duration ns => leaf settings draft key (.duration ns)
  | .time t => leaf settings draft key (.time t)
  | .level l => leaf settings draft key (.level l)
  | .data v => leaf settings draft key (.data v)

def attrs (settings : Settings) (draft : Draft) : List (Bytes × Value) → Draft × Bool
  | [] => (draft, false)
  | (key, v) :: rest =>
      let (first, added) := attr settings draft key v
      let (last, more) := attrs settings first rest
      (last, added || more)

end

def openGroups (draft : Draft) (names : List Bytes) : Draft := names.foldl openGroup draft

end Draft

/-- A writer of nested records: the text of the attributes that every record has, the groups that
the attributes of a record are in, and how many of these groups that text has opened. -/
structure Nested where
  settings : Settings
  json : Bool
  fixed : Bytes := []
  path : Bytes := []
  groups : List Bytes := []
  opened : Nat := 0

namespace Nested

def separatorAfter (writer : Nested) (text : Bytes) : Bytes :=
  if writer.json then if text.getLast? = some 0x7B then [] else utf8 "," else utf8 " "

def withAttrs (writer : Nested) (attrs : List Attr) : Nested :=
  if attrs.all fun a => a.2.isEmptyGroup then writer
  else
    let draft : Draft :=
      { json := writer.json
        text := writer.fixed
        separator := if writer.fixed.isEmpty then [] else writer.separatorAfter writer.fixed
        path := writer.path
        depth := writer.opened }
    let (draft, added) :=
      (draft.openGroups (writer.groups.drop writer.opened)).attrs writer.settings attrs
    if added then
      { writer with fixed := draft.text, path := draft.path, opened := writer.groups.length }
    else writer

def withGroup (writer : Nested) (name : Bytes) : Nested :=
  { writer with groups := writer.groups ++ [name] }

def write (writer : Nested) (record : Record) : Bytes :=
  let start : Draft := { json := writer.json, text := if writer.json then utf8 "\x7b" else [] }
  let (start, _) :=
    start.attrs writer.settings (record.builtin writer.settings (Origin.value writer.json))
  let start :=
    if writer.fixed.isEmpty then start
    else { start.add (start.separator ++ writer.fixed) with
      separator := writer.separatorAfter writer.fixed }
  let start := { start with depth := writer.opened }
  let (text, opened) :=
    if record.attrs.isEmpty then (start.text, writer.opened)
    else
      let inside := { start with path := writer.path }
      let (draft, added) :=
        (inside.openGroups (writer.groups.drop writer.opened)).attrs writer.settings record.attrs
      if added then (draft.text, writer.groups.length) else (start.text, writer.opened)
  text ++ (if writer.json then List.replicate (opened + 1) 0x7D else []) ++ utf8 "\n"

end Nested

end Inlay.Log
