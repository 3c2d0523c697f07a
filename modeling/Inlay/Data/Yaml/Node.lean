import Inlay.Data.Yaml.Phrase
import Inlay.Data.Yaml.Scalar
import Inlay.Data.Yaml.Token.Scan

/-!
The tree of a document. Keys of one mapping stand in one column, and so do the marks of one list;
what stands behind that column belongs to the key or mark before it. Between brackets, commas take
the place of columns. The functions that call one another take fuel, of which every step uses up a
little; a token takes only a few steps.
-/

namespace Inlay.Yaml

/-- A part of a document. Anchors give parts a name, and aliases stand for the part with their
name. -/
inductive Node where
  | scalar (value : Yaml)
  | merge
  | reference (name : List Char)
  | anchor (name : List Char) (value : Node)
  | tagged (tag : List Char) (value : Node)
  | mapping (entries : List (Node × Node))
  | sequence (items : List Node)
  | directive
  deriving Inhabited

namespace Node

def isMerge : Node → Bool
  | .merge => true
  | .tagged _ value => value.isMerge
  | _ => false

def isAnchor : Node → Bool
  | .anchor _ _ => true
  | _ => false

def ofToken? (token : Token) : Option Node :=
  match token.kind with
  | .merge => some .merge
  | .plain => some (.scalar (ofPlain (Utf8.ofChars token.text)))
  | .text => some (.scalar (.string (Utf8.ofChars token.text)))
  | .quoted => some (.scalar (.string (Utf8.ofChars token.text)))
  | _ => none

def name? : List Phrase → Option (List Char)
  | [.token t] => (ofToken? t).map fun _ => t.text
  | _ => none

def blockText? : List Phrase → Option Node
  | [] => some (.scalar (.string []))
  | [.token t] => if t.kind = .text then ofToken? t else none
  | _ => none

def isScalar (phrase : Phrase) : Bool :=
  match phrase with
  | .token t => t.kind = .tag || (ofToken? t).isSome
  | .group role _ _ => [Phrase.Role.anchor, .anchorName, .reference, .block, .tagged].contains role

def isMapping (phrase : Phrase) : Bool :=
  match phrase with
  | .token t => t.kind = .openMap || t.kind = .closeMap
  | .group _ _ _ => phrase.isKeyed

def emptyScalar? (tag : List Char) : Option Yaml :=
  if tag = "!!int".toList || tag = "!!float".toList then some (.int 0)
  else if tag = "!!bool".toList then some (.bool false)
  else if tag = "!!null".toList then some .null
  else if Phrase.scalarTags.any fun known => known.toList = tag then some (.string [])
  else none

/-- The words of a directive are right: the version of the format is known. -/
def isDirective (words : List Phrase) : Bool :=
  match words.map fun p => p.head.text with
  | [] => false
  | name :: more =>
      if name = "YAML".toList then
        match more with
        | [version] => ["1.0", "1.1", "1.2", "1.3"].any fun known => known.toList = version
        | _ => false
      else name != "TAG".toList || more.length = 2

/-- The text by which keys of one mapping are told apart; all aliases count as one. -/
def keyText : Phrase → List Char
  | .token t => t.text
  | .group .reference _ _ => []
  | .group .block first _ => first.head.text
  | .group _ first [] => keyText first
  | .group _ _ (last :: _) => keyText last

def isKeyLine (flow : Bool) (key colon : Token) : Bool :=
  let isWord := match ofToken? key with
    | some (.scalar (.string _)) => true
    | _ => false
  let isSpace (c : Char) : Bool := c = ' ' || Token.isBreak c
  let source := key.source.dropWhile isSpace
  let source :=
    if flow && isWord && key.kind != .quoted then (source.reverse.dropWhile isSpace).reverse
    else source
  let isBroken := source.any Token.isBreak
  if flow then !(key.line < colon.line && isBroken) else !(isWord && isBroken)

/-- The phrase of a key without its question mark and colon, and the token behind it. -/
def keyParts? : Phrase → Option (Phrase × List Phrase × Token)
  | .group .key (.token t) more =>
      if t.kind = .question then more.head?.map fun key => (key, [], key.head)
      else more.head?.map fun colon => (.token t, more, colon.head)
  | .group .key (.group .key _ inner) more => inner.head?.map fun key =>
      (key, [], (more.head?.map Phrase.head).getD key.head)
  | .group .key first more => more.head?.map fun colon => (first, more, colon.head)
  | _ => none

def readEmptyAnchor (anchor : Phrase) (rest : List Phrase) : Option (Node × List Phrase) :=
  match anchor with
  | .group _ _ names => do some (.anchor (← name? names) (.scalar .null), rest)
  | .token _ => none

mutual

def read (flow : Bool) : (fuel : Nat) → List Phrase → Option (Node × List Phrase)
  | 0, _ => none
  | _, [] => none
  | fuel + 1, p :: rest =>
      match p with
      | .group .key _ _ => do
          let (entries, rest) ← readMapping flow fuel [] (p :: rest)
          some (.mapping entries, rest)
      | .group .entry _ _ => do
          let (entries, rest) ← readMapping flow fuel [] (p :: rest)
          some (.mapping entries, rest)
      | .group .directive _ words => if isDirective words then some (.directive, rest) else none
      | .group .anchor (.group _ _ names) values => do
          let name ← name? names
          let (value, _) ← read flow fuel values
          if value.isAnchor then none else some (.anchor name value, rest)
      | .group .anchor _ _ => none
      | .group .anchorName _ names => do
          let name ← name? names
          let (value, rest) ← read flow fuel rest
          if value.isAnchor then none else some (.anchor name value, rest)
      | .group .reference _ names => do some (.reference (← name? names), rest)
      | .group .block _ text => do some (← blockText? text, rest)
      | .group .tagged tag values => do
          let (value, _) ← readTagged flow fuel tag.head.text values
          some (value, rest)
      | .token t =>
          match t.kind with
          | .tag => readTagged flow fuel t.text rest
          | .openMap => do
              let (entries, rest) ← readEntries fuel [] true rest
              some (.mapping entries, rest)
          | .openList => do
              let (items, rest) ← readItems fuel true rest
              some (.sequence items, rest)
          | .item => do
              let (items, rest) ← readSequence flow fuel t (p :: rest)
              some (.sequence items, rest)
          | _ => (ofToken? t).map fun node => (node, rest)

def readTagged (flow : Bool) : (fuel : Nat) → (tag : List Char) → List Phrase →
    Option (Node × List Phrase)
  | 0, _, _ => none
  | _, tag, [] => some (.tagged tag (.scalar .null), [])
  | fuel + 1, tag, p :: rest =>
      if tag = "!!map".toList || tag = "!!set".toList then
        if isMapping p then do
          let (value, rest) ← read flow fuel (p :: rest)
          some (.tagged tag value, rest)
        else none
      else if tag = "!!seq".toList || tag = "!!omap".toList then
        if p.kind = .openList || p.kind = .item then do
          let (value, rest) ← read flow fuel (p :: rest)
          some (.tagged tag value, rest)
        else some (.tagged tag (.sequence []), p :: rest)
      else match emptyScalar? tag with
        | none => do
            let (value, rest) ← read flow fuel (p :: rest)
            some (.tagged tag value, rest)
        | some empty =>
            if p.kind = .comma || p.kind = .colon then some (.tagged tag (.scalar empty), p :: rest)
            else if isScalar p then do
              let (value, rest) ← read flow fuel (p :: rest)
              some (.tagged tag value, rest)
            else none

def readKey (flow : Bool) : (fuel : Nat) → Phrase → Option Node
  | 0, _ => none
  | fuel + 1, p => do
      let (key, more, colon) ← keyParts? p
      if !isScalar key || !isKeyLine flow p.head colon then none
      else
        let (node, _) ← read flow fuel (key :: more)
        some node

/-- Reads the entries of a mapping whose keys stand in the column of the first phrase. The keys that
were read already are `seen`. -/
def readMapping (flow : Bool) : (fuel : Nat) → (seen : List (List Char)) → List Phrase →
    Option (List (Node × Node) × List Phrase)
  | 0, _, _ => none
  | _, _, [] => none
  | fuel + 1, seen, p :: rest => do
      let keyed := match p with
        | .group .entry key _ => key
        | _ => p
      let text ← (keyParts? keyed).map fun parts => keyText parts.1
      if seen.contains text then none
      else
        let key ← readKey flow fuel keyed
        let (value, rest) ← match p with
          | .group .entry _ values => do
              let (value, _) ← read flow fuel values
              match rest with
              | [] => some (value, rest)
              | q :: _ =>
                  if p.column < q.column &&
                    !(flow && (q.kind = .comma || q.kind = .closeList)) then none
                  else some (value, rest)
          | _ => readValue flow fuel p rest
        match rest with
        | [] => some ([(key, value)], [])
        | q :: more =>
            if q.column != p.column || (flow && q.kind = .closeList) then
              some ([(key, value)], rest)
            else if !isMapping q then none
            else if q.kind = .closeMap then some ([(key, value)], more)
            else
              let (entries, rest) ← readMapping flow fuel (text :: seen) rest
              some ((key, value) :: entries, rest)

/-- Reads the value of a key that stands behind it or in the lines below it; there may be none. -/
def readValue (flow : Bool) :
    (fuel : Nat) → (key : Phrase) → List Phrase → Option (Node × List Phrase)
  | 0, _, _ => none
  | _, _, [] => some (.scalar .null, [])
  | fuel + 1, key, q :: rest =>
      let nextColumn := (rest.head?.map Phrase.column).getD 0
      let isName := q.role? = some .anchorName
      let isNameOnly := key.sameLine q && isName
      if key.sameLine q && (q.kind = .item || (q.column != key.column && q.isKeyed)) then none
      else if q.column = key.column && isMapping q then some (.scalar .null, q :: rest)
      else if isNameOnly && nextColumn = key.column && (rest.head?.map isMapping).getD false then
        readEmptyAnchor q rest
      else if q.column ≤ key.column && (isName || q.kind = .tag) then none
      else if q.column < key.column then some (.scalar .null, q :: rest)
      else if isNameOnly && nextColumn < key.column then readEmptyAnchor q rest
      else readBehind flow fuel key.column (q :: rest)

/-- Reads a part that stands behind a column. A tag below an anchor stands behind it too. -/
def readBehind (flow : Bool) : (fuel : Nat) → (column : Nat) → List Phrase →
    Option (Node × List Phrase)
  | 0, _, _ => none
  | _, _, [] => none
  | fuel + 1, column, q :: rest =>
      let isLow : Bool := match rest with
        | r :: _ => q.kind = .ampersand && r.kind = .tag && !q.sameLine r && r.column ≤ column
        | [] => false
      if isLow then none else read flow fuel (q :: rest)

def readSequence (flow : Bool) : (fuel : Nat) → (mark : Token) → List Phrase →
    Option (List Node × List Phrase)
  | 0, _, _ => none
  | _, _, [] => some ([], [])
  | fuel + 1, mark, p :: rest =>
      if p.kind != .item || p.column != mark.column then some ([], p :: rest)
      else do
        let (item, rest) ← readItem flow fuel mark rest
        let (items, rest) ← readSequence flow fuel mark rest
        some (item :: items, rest)

def readItem (flow : Bool) :
    (fuel : Nat) → (mark : Token) → List Phrase → Option (Node × List Phrase)
  | 0, _, _ => none
  | _, _, [] => some (.scalar .null, [])
  | fuel + 1, mark, q :: rest =>
      let nextColumn := (rest.head?.map Phrase.column).getD 0
      let isName := q.role? = some .anchorName
      let isNameOnly := q.line = mark.line && isName
      if q.column = mark.column && q.kind = .item then some (.scalar .null, q :: rest)
      else if isNameOnly && nextColumn = mark.column &&
          (rest.head?.map Phrase.kind) = some .item then
        readEmptyAnchor q rest
      else if q.column ≤ mark.column && (isName || q.kind = .tag) then none
      else if q.column < mark.column then some (.scalar .null, q :: rest)
      else if isNameOnly && nextColumn < mark.column then readEmptyAnchor q rest
      else readBehind flow fuel mark.column (q :: rest)

def readEntries : (fuel : Nat) → (seen : List (List Char)) → (first : Bool) → List Phrase →
    Option (List (Node × Node) × List Phrase)
  | 0, _, _, _ => none
  | _, _, _, [] => none
  | fuel + 1, seen, first, p :: rest =>
      if p.kind = .closeMap then some ([], rest)
      else if p.kind != .comma && !first then none
      else
        let next := if p.kind = .comma then rest else p :: rest
        match next with
        | [] => none
        | key :: rest =>
            if key.kind = .closeMap then some ([], rest)
            else do
              let keyed := match key with
                | .group .entry key _ => key
                | _ => key
              let text := ((keyParts? keyed).map fun parts => keyText parts.1).getD (keyText key)
              let (entry, rest) ← readEntry fuel key rest
              if key.isKeyed && seen.contains text then none
              else
                let seen := if key.isKeyed then text :: seen else seen
                let (entries, rest) ← readEntries fuel seen false rest
                some (entry :: entries, rest)

def readEntry : (fuel : Nat) → (key : Phrase) → List Phrase → Option ((Node × Node) × List Phrase)
  | 0, _, _ => none
  | fuel + 1, p, rest => do
      let isOver := (rest.head?.map fun q => q.kind = .closeMap || q.kind = .comma).getD false
      match p with
      | .group .entry keyed values => do
          let key ← readKey true fuel keyed
          let (value, _) ← read true fuel values
          some ((key, value), rest)
      | .group .key _ _ => do
          let key ← readKey true fuel p
          if isOver then some ((key, .scalar .null), rest)
          else
            let (value, rest) ← read true fuel rest
            some ((key, value), rest)
      | _ =>
          if !isOver || !isScalar p then none
          else do
            let (key, _) ← read true fuel (p :: rest)
            some ((key, .scalar .null), rest)

def readItems : (fuel : Nat) → (first : Bool) → List Phrase → Option (List Node × List Phrase)
  | 0, _, _ => none
  | _, _, [] => none
  | fuel + 1, first, p :: rest =>
      if p.kind = .closeList then some ([], rest)
      else if (p.kind = .comma) = first then none
      else
        let next := if p.kind = .comma then rest else p :: rest
        match next with
        | [] => none
        | item :: rest =>
            if item.kind = .closeList then some ([], rest)
            else do
              let (item, rest) ← read true fuel (item :: rest)
              let (items, rest) ← readItems fuel false rest
              some (item :: items, rest)

end

def size : Phrase → Nat
  | .token _ => 1
  | .group _ first more => size first + 4 * (more.length + 1)

/-- The tree of a document, without the marks that begin and end it; there is none if nothing else
stands in the document. -/
def ofDocument? (document : List Phrase) : Option (Option Node) :=
  let body : List Phrase := match document with
    | p :: rest => if p.kind = .header then rest else p :: rest
    | [] => []
  let body : List Phrase := match body.getLast? with
    | some p => if p.kind = .ending then body.dropLast else body
    | none => []
  if body.isEmpty then some none
  else do
    let (node, rest) ← read false (8 * body.foldl (fun n p => n + size p) 1) body
    if rest.isEmpty then some (some node) else none

end Node

def Node.parse? (text : Bytes) : Option (List (Option Node)) := do
  let tokens ← Token.scan? (Utf8.chars text)
  (← Phrase.ofTokens? tokens).mapM Node.ofDocument?

end Inlay.Yaml
