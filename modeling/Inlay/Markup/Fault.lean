import Inlay.Text.Mark

/-!
Faults: what can be wrong with the structure of a fragment, and where.
-/

namespace Inlay

inductive FaultKind where
  /-- A tag, a quoted value or an element runs to the end of the text. -/
  | unterminatedTag
  | unbalancedExpression
  /-- A closing tag does not match the innermost open element. -/
  | unmatchedClosingTag
  deriving DecidableEq, Repr, Inhabited

namespace FaultKind

def name : FaultKind → Bytes
  | .unterminatedTag => utf8 "UnterminatedTag"
  | .unbalancedExpression => utf8 "UnbalancedExpression"
  | .unmatchedClosingTag => utf8 "UnmatchedClosingTag"

def message : FaultKind → Bytes
  | .unterminatedTag => utf8 "unterminated tag"
  | .unbalancedExpression => utf8 "unbalanced expression"
  | .unmatchedClosingTag => utf8 "unmatched closing tag"

end FaultKind

structure Fault where
  kind : FaultKind
  pos : Position
  notes : List (String × Bytes) := []
  deriving DecidableEq, Repr, Inhabited

def Fault.note (fault : Fault) (key : String) (text : Bytes) : Fault :=
  { fault with notes := fault.notes ++ [(key, text)] }

end Inlay
