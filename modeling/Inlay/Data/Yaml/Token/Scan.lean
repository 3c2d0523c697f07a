import Inlay.Data.Yaml.Token.Block
import Inlay.Data.Yaml.Token.Quoted

/-!
From the characters of a document to its tokens, one character after the other. A line that does not
begin behind the column of the last key or list mark ends what came before it.
-/

namespace Inlay.Yaml

/-- How the first character of a line stands to the last key or list mark: this is no first
character, or it is behind the mark, or it is not. -/
inductive Scan.Turn where
  | along
  | deeper
  | back
  deriving DecidableEq, Repr, Inhabited

/-- A document while it is read. `edge` is the column of the last key or list mark, `indent` the
width of the margin of the line, and `lineStart` tells that only blanks came before in the line. The
characters after an anchor, an alias or a directive are its name. `held` is the token that is not
complete, with the source of it, and `saved` the place where it began if that was in an earlier
line. -/
structure Scan where
  line : Nat := 1
  column : Nat := 1
  edge : Nat := 0
  indent : Nat := 0
  lineStart : Bool := true
  turn : Scan.Turn := .along
  inAnchor : Bool := false
  inAlias : Bool := false
  inDirective : Bool := false
  lists : Int := 0
  maps : Nat := 0
  saved : Option (Nat × Nat) := none
  held : Held := {}
  source : List Char := []
  block : Option Block := none
  before : Option Char := none
  tokens : List Token := []

namespace Scan

/-- The document after a step, and the characters that are left; none if the text is no document. -/
abbrev Step := Option (Scan × List Char)

def inFlow (s : Scan) : Bool := 0 < s.lists || 0 < s.maps

def last? (s : Scan) : Option Token := s.tokens.head?

def advance (s : Scan) (columns : Nat) : Scan := { s with column := s.column + columns }

def nextLine (s : Scan) : Scan :=
  { s with
    line := s.line + 1, column := 1, indent := 0, lineStart := true, inAnchor := false
    inAlias := false, inDirective := false }

def note (s : Scan) (c : Char) : Scan := { s with source := c :: s.source }

def clear (s : Scan) : Scan := { s with held := {}, source := [], block := none }

def emit (s : Scan) (kind : Token.Kind) (text : List Char) : Scan :=
  { s with
    tokens :=
      { kind, text, source := s.source.reverse, line := s.line, column := s.column } :: s.tokens }

def content (s : Scan) : List Char :=
  match s.block with
  | some block => block.content s.held
  | none => s.held.kept.reverse

/-- The token that is held, and the document without it. The lines of a text have no column of their
own. -/
def cut (s : Scan) : Option Token × Scan :=
  let text := s.content
  let here := (s.line, if s.block.isSome then 0 else s.column - s.held.chars.length)
  let (line, column) := s.saved.getD here
  if text.isEmpty then (none, { s with saved := none, held := {} })
  else
    let isText := s.block.isSome || (s.last?.map Token.isPrivateTag).getD false
    (some { kind := if isText then .text else .plain, text, source := s.source.reverse, line
            column },
      { s with saved := none, held := {}, source := [] })

def flush (s : Scan) : Scan :=
  match s.cut with
  | (some token, s) => { s with tokens := token :: s.tokens }
  | (none, s) => s

def measure (s : Scan) (c : Char) : Scan :=
  if !s.lineStart then { s with turn := .along }
  else if Token.isBreak c || c = '\t' then s
  else if c = ' ' then { s with indent := s.indent + 1 }
  else
    { s with
      turn := if s.edge = 0 then s.turn else if s.edge < s.column then .deeper else .back
      lineStart := false }

def hold (s : Scan) (c : Char) (rest : List Char) : Step :=
  some (({ s with held := s.held.add c }.note c).advance 1, rest)

def sign (s : Scan) (kind : Token.Kind) (c : Char) (rest : List Char) : Step :=
  some (((s.flush.note c).emit kind [c]).advance 1 |>.clear, rest)

def edgeSign (s : Scan) (kind : Token.Kind) (c : Char) (rest : List Char) : Step :=
  { s with edge := s.column }.sign kind c rest

def afterTab (s : Scan) : Bool :=
  let source := s.source.reverse
  let source := if source.head? = some ' ' then source.drop 1 else source
  source.head? = some '\t' && s.held.chars.getLast? != some '\t'

/-- The end of a line. In a plain text it stands for a space, and at an empty line for itself. -/
def lineBreak (s : Scan) (c : Char) (rest : List Char) : Step :=
  let s := if s.held.chars.isEmpty || s.saved.isSome then s
    else { s with saved := some (s.line, s.column - s.held.kept.length) }
  let s := if (s.source.head?.map Token.isGap).getD false then
      { s with source := s.source.dropWhile Token.isGap, held := s.held.trimmed }
    else s
  let (s, c, rest) := match rest with
    | '\n' :: more => if c = '\r' then (s.note c, '\n', more) else (s, c, rest)
    | _ => (s, c, rest)
  let s := if rest.isEmpty || s.inAnchor || s.inAlias || s.inDirective then s.flush else s
  let held := if s.held.isEmpty || !s.lineStart then s.held.add ' '
    else match s.held.chars with
      | ' ' :: more => { s.held with chars := '\n' :: more }
      | chars => { chars := '\n' :: chars, spare := s.held.spare + 1 }
  some (({ s with held }.note c).nextLine, rest)

def remark (s : Scan) (rest : List Char) : Step :=
  let text := rest.takeWhile fun c => !Token.isBreak c
  some ((s.flush.emit .remark text).clear.nextLine, rest.drop (text.length + 1))

def colon? (s : Scan) (rest : List Char) : Option Step :=
  if s.inDirective || s.inAnchor || s.inAlias || (s.maps = 0 && !Token.endsWord rest) ||
      (0 < s.maps && (rest.head? = some '/' || s.last?.map (·.kind) = some .colon)) then none
  else if s.afterTab then some none
  else
    let (key, after) := s.cut
    let after := match key with
      | some key => { after with edge := key.column, tokens := key :: after.tokens }
      | none =>
          match s.last? with
          | some token =>
              if token.kind = Token.Kind.quoted then { after with edge := token.column } else after
          | none => after
    some (some ((({ after with source := [] }.emit .colon [':']).advance 1).clear, rest))

/-- The header of a text of several lines: what it says of the margin and of the end. -/
def blockHeader (s : Scan) (style : Block.Style) (rest : List Char) : Step :=
  let (line, more) := rest.span fun c => !Token.isBreak c
  let line := if more.isEmpty then line.dropLast else line
  let ending := if (line.idxOf '#') = 0 then line else line.takeWhile (· != '#')
  let ending := (ending.reverse.dropWhile Token.isGap).reverse
  let more := match more with
    | '\r' :: '\n' :: more => more
    | _ => more.drop 1
  match Block.width? ending with
  | none => none
  | some width =>
      let s := if s.column = 1 then { s with edge := 1 } else s
      let (kind, sign) := if style = .literal then (Token.Kind.literal, '|') else (.folded, '>')
      let block : Block := { style, ending, margin := if width = 0 then 0 else s.edge + width }
      some ({ (s.emit kind (sign :: ending)).clear with block }.nextLine, more)

def tag (s : Scan) (rest : List Char) : Step :=
  let name := rest.takeWhile fun c =>
    !(c = ' ' || Token.isBreak c || c = '\x7b' || c = '\x7d' || (c = ',' && s.inFlow))
  match rest.drop name.length with
  | [] => some (s.clear, [])
  | c :: more =>
      if c = '\x7b' || c = '\x7d' then none
      else
        let s := (s.emit .tag ('!' :: name)).clear
        if c = ' ' then some (s.advance (name.length + 1), more)
        else some (s.advance name.length, c :: more)

def quoted (s : Scan) (quote : Char) (rest : List Char) : Step := do
  let start : Quotation.Reading := { line := s.line, column := s.column + 1 }
  let (r, after) ← Quotation.read quote s.edge (rest.length + 1) start rest
  let source := s.source.reverse ++ quote :: rest.take (rest.length - after.length)
  let token : Token :=
    { kind := .quoted, text := r.text.reverse, source, line := s.line, column := s.column }
  let s := if r.line = s.line then s else { s.nextLine with line := r.line }
  some ({ s.clear with column := r.column, tokens := token :: s.tokens }, after)

def isMerge (rest : List Char) : Bool :=
  match rest with
  | '<' :: more =>
      match more.dropWhile (· = ' ') with
      | ':' :: next :: _ => next = ' ' || Token.isBreak next
      | _ => false
  | _ => false

def isTriple (c : Char) (rest : List Char) : Bool := (rest.takeWhile (· = c)).length = 2

def tab (s : Scan) (rest : List Char) : Step :=
  if (!s.held.isEmpty && s.edge = 0) || s.edge < s.column then
    some ({ s with indent := s.indent + 1 }.note '\t', rest)
  else if s.inFlow || !s.lineStart then s.hold '\t' rest
  else none

def space (s : Scan) (rest : List Char) : Step :=
  if s.lineStart then some ((s.note ' ').advance 1, rest)
  else if s.inDirective then some ((s.flush.note ' ').advance 1, rest)
  else if s.inAnchor || s.inAlias then
    { s.flush with inAnchor := false, inAlias := false }.hold ' ' rest
  else s.hold ' ' rest

/-- A hyphen: the start of a document, a list mark, or part of a text. As first character of a
further line of a text it makes the lines that follow part of the text. -/
def hyphen (s : Scan) (rest : List Char) : Step :=
  if s.indent = 0 && s.column = 1 && isTriple '-' rest then
    let s := (s.flush.emit .header []).clear
    some ({ s with edge := 0, saved := none }.advance 3, rest.drop 2)
  else if !s.held.isEmpty && s.turn = .deeper then
    let block := ({ style := .running : Block }).enter s.column
    { s with block }.hold '-' rest
  else if s.held.isEmpty && Token.endsWord rest then
    if s.afterTab then none else s.edgeSign .item '-' rest
  else s.hold '-' rest

def character (s : Scan) (c : Char) (rest : List Char) : Step :=
  let free := s.held.isEmpty
  match c with
  | '\x7b' =>
      if free || s.inFlow then { s with maps := s.maps + 1 }.sign .openMap c rest else s.hold c rest
  | '\x7d' =>
      if 0 < s.maps then { s with maps := s.maps - 1 }.sign .closeMap c rest else s.hold c rest
  | '[' =>
      if free || s.inFlow then { s with lists := s.lists + 1 }.sign .openList c rest
      else s.hold c rest
  | ']' =>
      if free || 0 < s.lists then { s with lists := s.lists - 1 }.sign .closeList c rest
      else s.hold c rest
  | ',' => if s.inFlow then s.sign .comma c rest else s.hold c rest
  | '.' =>
      if s.indent = 0 && s.column = 1 && isTriple '.' rest then
        some ((s.flush.emit .ending []).clear.advance 3, rest.drop 2)
      else s.hold c rest
  | '<' =>
      if isMerge rest then
        some (({ s with edge := s.column }.emit .merge ['<', '<']).advance 2, rest.drop 1)
      else s.hold c rest
  | '-' => s.hyphen rest
  | ':' =>
      match s.colon? rest with
      | some step => step
      | none => s.hold c rest
  | '|' => if free then s.blockHeader .literal rest else s.hold c rest
  | '>' => if free then s.blockHeader .folded rest else s.hold c rest
  | '!' => if free && !s.inDirective then s.tag rest else s.hold c rest
  | '%' =>
      if free && s.indent = 0 then
        (s.sign .directive c rest).map fun (s, rest) => ({ s with inDirective := true }, rest)
      else s.hold c rest
  | '?' =>
      if free && (rest.head?.map Token.isGap).getD false then s.edgeSign .question c rest
      else s.hold c rest
  | '&' =>
      if free then (s.sign .ampersand c rest).map fun (s, rest) =>
        ({ s with inAnchor := true }, rest)
      else s.hold c rest
  | '*' =>
      if free then (s.sign .star c rest).map fun (s, rest) => ({ s with inAlias := true }, rest)
      else s.hold c rest
  | '#' =>
      if free || (s.before.map fun b => Token.isGap b || Token.isBreak b).getD false then
        s.remark rest
      else s.hold c rest
  | '\'' => if free then s.quoted c rest else s.hold c rest
  | '"' => if free then s.quoted c rest else s.hold c rest
  | '\n' => s.lineBreak c rest
  | '\r' => s.lineBreak c rest
  | ' ' => s.space rest
  | '\t' => s.tab rest
  | '@' => if free then none else s.hold c rest
  | '`' => if free then none else s.hold c rest
  | _ => s.hold c rest

def blockCharacter (s : Scan) (block : Block) (c : Char) (rest : List Char) : Step :=
  let s := s.note c
  let (c, rest) := match rest with
    | '\n' :: more => if c = '\r' then ('\n', more) else (c, rest)
    | _ => (if c = '\r' then '\n' else c, rest)
  if rest.isEmpty then
    let (block, held) := if s.lineStart && c = ' ' then block.indent s.held s.column
      else (block, s.held.add c)
    let block := block.enter s.column
    if block.fits then some (((s.emit .text (block.content held)).clear).advance 1, rest) else none
  else if c = '\n' then
    let held := s.held.add c
    let s := { s with held, block := block.leave s.column }.nextLine
    if Token.atMarker rest then some ((s.emit .text (block.content held)).clear, rest)
    else some (s, rest)
  else if s.lineStart && c = ' ' then
    let (block, held) := block.indent s.held s.column
    some ({ s with block, held }.advance 1, rest)
  else if c = '\t' && !(block.inMargin s.column) then
    some ({ s with held := s.held.addTab c }.advance 1, rest)
  else if c = '\t' && s.lineStart then none
  else if block.margin = 0 && s.column < block.bare then none
  else
    let block := block.enter s.column
    if !block.fits then none
    else
      let edge := if block.margin ≤ 1 then s.edge else block.margin - 1
      let (block, held) := block.join s.held s.column
      some ({ s with edge, block, held := held.addTab c }.advance 1, rest)

def step (s : Scan) (c : Char) (rest : List Char) : Step :=
  let s := s.measure c
  let s := if s.turn = .back then s.flush else s
  match s.block with
  | none => s.character c rest
  | some block =>
      if s.turn != .back then s.blockCharacter block c rest
      else
        match s.last? with
        | none => { s with block := none }.character c rest
        | some token =>
            if token.column = 1 then none
            else
              let s := if token.kind = .text then s else { s with source := [] }.emit .text []
              { s with block := none }.character c rest

def run : (fuel : Nat) → Scan → List Char → Option Scan
  | _, s, [] => some s.flush
  | 0, _, _ => none
  | fuel + 1, s, c :: rest => do
      let (s, rest) ← s.step c rest
      run fuel { s with before := some c } rest

end Scan

def Token.scan? (text : List Char) : Option (List Token) := do
  let s ← Scan.run text.length {} text
  some (s.tokens.reverse.filter fun token => token.kind != .remark)

end Inlay.Yaml
