import Inlay.Text.Utf8
import Inlay.Text.Upper

/-!
Kinds of nodes, and what a tag name says about its tag: names with an upper case letter belong to
components, and some element names never have a body.
-/

namespace Inlay

inductive Kind where
  | element
  | component
  | text
  | unknown
  deriving DecidableEq, Repr, Inhabited

namespace Kind

def name : Kind → Bytes
  | .element => utf8 "element"
  | .component => utf8 "component"
  | .text => utf8 "text"
  | .unknown => utf8 "unknown"

def ofName (name : Bytes) : Kind :=
  if (Utf8.chars name).any isUpper then .component else .element

end Kind

def voidNames : List Bytes :=
  ["area", "base", "br", "col", "embed", "hr", "img", "input", "keygen", "link", "meta", "param",
    "source", "track", "wbr"].map utf8

def isVoidName (name : Bytes) : Bool := voidNames.contains name

end Inlay
