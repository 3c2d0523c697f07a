import Inlay.Text.Utf8

/-!
The tokens of a YAML document. A token knows the line and the column in which it begins, because
those tell which tokens belong together.
-/

namespace Inlay.Yaml

/-- What a token is. A plain scalar may stand for a number, a truth or nothing; a text stands for
itself. -/
inductive Token.Kind where
  | ampersand
  | star
  | tag
  | merge
  | header
  | ending
  | directive
  | item
  | comma
  | openMap
  | closeMap
  | openList
  | closeList
  | question
  | colon
  | literal
  | folded
  | plain
  | text
  | quoted
  | remark
  deriving DecidableEq, Repr, Inhabited

/-- A token: its text, and its source with the blanks and line breaks before it. -/
structure Token where
  kind : Token.Kind
  text : List Char := []
  source : List Char := []
  line : Nat
  column : Nat
  deriving DecidableEq, Repr, Inhabited

namespace Token

def isBreak (c : Char) : Bool := c = '\n' || c = '\r'

def isGap (c : Char) : Bool := c = ' ' || c = '\t'

def endsWord (next : List Char) : Bool :=
  match next with
  | [] => true
  | c :: _ => isGap c || isBreak c

def atMarker (next : List Char) : Bool :=
  let word := next.take 3
  (word = ['-', '-', '-'] || word = ['.', '.', '.']) && endsWord (next.drop 3)

def knownTags : List String :=
  ["!!int", "!!float", "!!null", "!!seq", "!!map", "!!str", "!!binary", "!!omap", "!!set",
    "!!timestamp", "!!bool", "!!merge"]

def isPrivateTag (token : Token) : Bool :=
  token.kind = .tag && !knownTags.any fun tag => tag.toList = token.text

end Token

end Inlay.Yaml
