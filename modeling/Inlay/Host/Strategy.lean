import Inlay.Problem
import Inlay.Text.Blank

/-!
Strategies to find fragments in host text.
-/

namespace Inlay

/-- How fragments are found: by reading the host text token by token, or by the text around them. A
strategy with a bare code has no name and reads token by token. -/
inductive Strategy where
  | scoped
  | pattern
  | other (code : Int)
  deriving DecidableEq, Repr, Inhabited

namespace Strategy

def named : List Strategy := [.scoped, .pattern]

def name : Strategy → Bytes
  | .scoped => utf8 "scoped"
  | .pattern => utf8 "pattern"
  | .other _ => utf8 "unknown"

/-- The strategy with this name, in any case; the first one for no name. -/
def parse (text : Bytes) : Except Problem Strategy :=
  let name := Bytes.asciiLower (trim text)
  if name.isEmpty || name = Strategy.scoped.name then .ok .scoped
  else if name = Strategy.pattern.name then .ok .pattern
  else .error (Problem.unknownOption.withAttrs [Log.Attr.string "locator" text])

end Strategy

end Inlay
