import Inlay.Data.Yaml.Token

/-!
Tokens that belong together. What a key is, is known only at the colon behind it, and so tokens are
joined to phrases before the tree of a document is read.
-/

namespace Inlay.Yaml

/-- What the tokens of a phrase are together. An entry is a key with its value in the same line. -/
inductive Phrase.Role where
  | block
  | anchorName
  | anchor
  | reference
  | tagged
  | key
  | entry
  | directive
  deriving DecidableEq, Repr, Inhabited

/-- A token, or phrases that belong together. -/
inductive Phrase where
  | token (t : Token)
  | group (role : Phrase.Role) (first : Phrase) (more : List Phrase)
  deriving Inhabited

namespace Phrase

def head : Phrase → Token
  | .token t => t
  | .group _ first _ => first.head

def kind (phrase : Phrase) : Token.Kind := phrase.head.kind

def line (phrase : Phrase) : Nat := phrase.head.line

def column (phrase : Phrase) : Nat := phrase.head.column

def role? : Phrase → Option Role
  | .token _ => none
  | .group role _ _ => some role

def isKeyed (phrase : Phrase) : Bool := phrase.role? = some .key || phrase.role? = some .entry

def isScalar (phrase : Phrase) : Bool :=
  !phrase.isKeyed &&
    [Token.Kind.ampersand, .star, .literal, .folded, .plain, .text, .quoted].contains phrase.kind

def sameLine (a b : Phrase) : Bool := a.line = b.line

def joinBlocks : List Phrase → List Phrase
  | [] => []
  | [p] => if p.kind = .literal || p.kind = .folded then [.group .block p []] else [p]
  | p :: q :: rest =>
      if p.kind = .literal || p.kind = .folded then .group .block p [q] :: joinBlocks rest
      else p :: joinBlocks (q :: rest)

def joinNames : List Phrase → Option (List Phrase)
  | [] => some []
  | [p] => if p.kind = .ampersand || p.kind = .star then none else some [p]
  | [p, q] =>
      if p.kind = .ampersand then none
      else if p.kind = .star then some [.group .reference p [q]]
      else (joinNames [q]).map (p :: ·)
  | p :: q :: r :: rest =>
      if p.kind = .ampersand then
        let name := Phrase.group .anchorName p [q]
        if p.sameLine r && r.kind = .item then none
        else if p.sameLine r && r.isScalar then
          (joinNames rest).map (.group .anchor name [r] :: ·)
        else (joinNames (r :: rest)).map (name :: ·)
      else if p.kind = .star then (joinNames (r :: rest)).map (.group .reference p [q] :: ·)
      else (joinNames (q :: r :: rest)).map (p :: ·)

def scalarTags : List String :=
  ["!!int", "!!float", "!!str", "!!binary", "!!timestamp", "!!bool", "!!null"]

/-- A tag is joined to the phrase behind it; none if there has to be another one. -/
def takesTag? (tag next : Phrase) : Option Bool :=
  let name := tag.head.text
  let isNext := tag.sameLine next && next.role? != some .anchorName
  if name.take 2 != ['!', '!'] then
    some (isNext && !([Token.Kind.openMap, .closeMap, .openList, .item].contains next.kind))
  else if scalarTags.any fun tag => tag.toList = name then some (isNext && next.isScalar)
  else if name = "!!merge".toList && isNext then if next.kind = .merge then some true else none
  else some false

def joinTags : List Phrase → Option (List Phrase)
  | [] => some []
  | [p] => some [p]
  | p :: q :: rest =>
      if p.kind = .tag then do
        if ← takesTag? p q then (joinTags rest).map (.group .tagged p [q] :: ·)
        else (joinTags (q :: rest)).map (p :: ·)
      else (joinTags (q :: rest)).map (p :: ·)

def joinAnchors : List Phrase → Option (List Phrase)
  | [] => some []
  | [p] => if p.role? = some .anchorName then none else some [p]
  | p :: q :: rest =>
      if p.role? = some .anchorName && p.sameLine q && q.role? = some .tagged then
        (joinAnchors rest).map (.group .anchor p [q] :: ·)
      else (joinAnchors (q :: rest)).map (p :: ·)

def joinQuestions : List Phrase → Option (List Phrase)
  | [] => some []
  | [p] => if p.kind = .question then none else some [p]
  | p :: q :: rest =>
      if p.kind = .question then (joinQuestions rest).map (.group .key p [q] :: ·)
      else (joinQuestions (q :: rest)).map (p :: ·)

def isNoKey (phrase : Phrase) : Bool :=
  [Token.Kind.directive, .header, .ending, .comma, .openMap, .colon, .closeMap, .openList, .item,
    .closeList].contains phrase.kind

def joinKeys : List Phrase → Option (List Phrase)
  | [] => some []
  | [p] => if p.kind = .colon then none else some [p]
  | p :: q :: rest =>
      if p.kind = .colon then none
      else if q.kind = .colon then
        if p.isNoKey then none
        else match rest with
          | [] => some [.group .key p [q]]
          | r :: more =>
              if r.kind = .colon then none
              else (joinKeys (r :: more)).map (.group .key p [q] :: ·)
      else (joinKeys (q :: rest)).map (p :: ·)

def isEntryValue (phrase : Phrase) : Bool :=
  phrase.role? = some .tagged ||
    (phrase.isScalar && phrase.role? != some .anchor && phrase.role? != some .anchorName)

def joinEntries : List Phrase → List Phrase
  | [] => []
  | [p] => [p]
  | p :: q :: rest =>
      if p.role? = some .key && p.sameLine q && q.isEntryValue then
        .group .entry p [q] :: joinEntries rest
      else p :: joinEntries (q :: rest)

/-- Joins the words of a directive, which stand in one line. A document has to follow. -/
def joinDirectives : (open? : Option (Phrase × List Phrase)) → List Phrase → Option (List Phrase)
  | none, [] => some []
  | some _, [] => none
  | none, p :: rest =>
      if p.kind = .directive then joinDirectives (some (p, [])) rest
      else (joinDirectives none rest).map (p :: ·)
  | some (first, words), p :: rest =>
      if words.isEmpty || first.sameLine p then joinDirectives (some (first, words ++ [p])) rest
      else if p.kind = .header then
        (joinDirectives none rest).map fun more => .group .directive first words :: p :: more
      else none

def isMisplaced (header next : Phrase) : Bool :=
  header.sameLine next && (next.isKeyed || next.kind = .item)

/-- The documents of a stream; `read` is the start of the first one, the latest phrase first. A
header belongs to the document behind it, an end mark to the one before it. -/
def documents (read : List Phrase) : List Phrase → Option (List (List Phrase))
  | [] => some [read.reverse]
  | p :: rest =>
      if p.kind = .header then do
        let before := if read.isEmpty then [] else [read.reverse]
        match rest with
        | [] => some (before ++ [[p]])
        | q :: more =>
            if isMisplaced p q then none
            else
              let following ← documents [] (q :: more)
              if q.kind = .header then some (before ++ [p] :: following)
              else match following with
                | [] => some (before ++ [[p]])
                | first :: others => some (before ++ (p :: first) :: others)
      else if p.kind = .ending then do
        let before := if read.isEmpty then [] else [(p :: read).reverse]
        match rest with
        | [] => some before
        | q :: more =>
            if q.isScalar then none
            else
              let following ← documents [] (q :: more)
              some (before ++ following)
      else documents (p :: read) rest

def ofTokens? (tokens : List Token) : Option (List (List Phrase)) := do
  let phrases ← joinNames (joinBlocks (tokens.map .token))
  let phrases ← joinTags phrases
  let phrases ← joinAnchors phrases
  let phrases ← joinQuestions phrases
  let phrases ← joinKeys phrases
  let phrases ← joinDirectives none (joinEntries phrases)
  documents [] phrases

end Phrase

end Inlay.Yaml
