import Inlay.Value

/-!
Expressions: what can be written between the braces of markup and in the code made from it.
-/

namespace Inlay

/-- An operator between two expressions. Equality between two integers or two texts is checked as
such, and so is membership in a list of integer or text literals; `intMember` is the membership of
an integer in anything else. -/
inductive BinaryOp where
  | or | and
  | equal | equalInts | equalTexts
  | notEqual | notEqualInts | notEqualTexts
  | less | greater | lessEqual | greaterEqual
  | member | intMember | memberInts | memberTexts
  | contains | startsWith | endsWith
  | range | add | subtract | multiply | divide | modulo | power
  | coalesce
  deriving DecidableEq, Repr

inductive UnaryOp where
  | not | minus | plus
  deriving DecidableEq, Repr

inductive Expr where
  | null
  | bool (b : Bool)
  | int (n : Int64)
  | float (x : Float)
  | string (s : Bytes)
  | name (name : Bytes)
  | unary (op : UnaryOp) (e : Expr)
  | binary (op : BinaryOp) (left right : Expr)
  /-- An item of a list or the value of a key; an optional one of nothing is nothing. -/
  | member (base key : Expr) (optional : Bool)
  /-- Members of members, all of which are nothing if an optional one is. -/
  | chain (e : Expr)
  | call (callee : Expr) (arguments : List Expr)
  | length (arguments : List Expr)
  | choice (condition yes no : Expr)
  | list (items : List Expr)
  /-- A list of literals, made before the expression is computed. -/
  | literals (items : List Value)
  | map (pairs : List (Expr × Expr))
  | sequence (items : List Expr)
  deriving Inhabited

end Inlay
