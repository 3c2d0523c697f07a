import Inlay.Expr.Basic
import Inlay.Number.Power

/-!
Constant parts of expressions, computed in advance. A truth that decides an `and` or an `or` decides
it whatever the other operand is, and a remainder by a constant zero is refused. An integer is in a
range of constants if it is not below the first and not above the last.
-/

namespace Inlay.Expr

def foldInts (op : BinaryOp) (a b : Int64) : Option Expr :=
  match op with
  | .add => some (.int (a + b))
  | .subtract => some (.int (a - b))
  | .multiply => some (.int (a * b))
  | .modulo => some (.int (a % b))
  | .equalInts => some (.bool (a == b))
  | _ => none

def foldFloats (op : BinaryOp) (a b : Float) : Option Expr :=
  match op with
  | .add => some (.float (a + b))
  | .subtract => some (.float (a - b))
  | .multiply => some (.float (a * b))
  | .divide => some (.float (a / b))
  | .power => some (.float (Number.power a b))
  | _ => none

def foldAnd (left right : Expr) : Expr :=
  match left, right with
  | .bool true, _ => right
  | _, .bool true => left
  | .bool false, _ => .bool false
  | _, .bool false => .bool false
  | _, _ => .binary .and left right

def foldOr (left right : Expr) : Expr :=
  match left, right with
  | .bool false, _ => right
  | _, .bool false => left
  | .bool true, _ => .bool true
  | _, .bool true => .bool true
  | _, _ => .binary .or left right

def foldBinary (op : BinaryOp) (left right : Expr) : Option Expr :=
  match op with
  | .and => some (foldAnd left right)
  | .or => some (foldOr left right)
  | _ =>
      match left, right with
      | .int a, .int b =>
          if op = .modulo && b == 0 then none
          else some (((foldInts op a b).or (foldFloats op a.toFloat b.toFloat)).getD
            (.binary op left right))
      | .int a, .float b => some ((foldFloats op a.toFloat b).getD (.binary op left right))
      | .float a, .int b => some ((foldFloats op a b.toFloat).getD (.binary op left right))
      | .float a, .float b => some ((foldFloats op a b).getD (.binary op left right))
      | .string a, .string b =>
          match op with
          | .add => some (.string (a ++ b))
          | .equalTexts => some (.bool (a = b))
          | _ => some (.binary op left right)
      | .bool a, .bool b =>
          if op = .equal then some (.bool (a == b)) else some (.binary op left right)
      | _, .binary .range (.int low) (.int high) =>
          if op = .intMember then
            some (.binary .and (.binary .greaterEqual left (.int low))
              (.binary .lessEqual left (.int high)))
          else some (.binary op left right)
      | _, _ => some (.binary op left right)

def number? : Expr → Option Value
  | .int n => some (.int n)
  | .float x => some (.float x)
  | _ => none

def text? : Expr → Option Value
  | .string s => some (.string s)
  | _ => none

/-- A list of expressions whose parts are folded. A list of numbers or of texts is made at once. -/
def foldList (items : List Expr) : Expr :=
  if items.isEmpty then .list items
  else match (items.mapM number?).or (items.mapM text?) with
    | some values => .literals values
    | none => .list items

def foldUnary (op : UnaryOp) (e : Expr) : Expr :=
  match op, e with
  | .minus, .int n => .int (-n)
  | .minus, .float x => .float (-x)
  | .plus, .int n => .int n
  | .plus, .float x => .float x
  | .not, .bool b => .bool !b
  | _, _ => .unary op e

mutual

def fold : Expr → Option Expr
  | .null => some .null
  | .bool b => some (.bool b)
  | .int n => some (.int n)
  | .float x => some (.float x)
  | .string s => some (.string s)
  | .name id => some (.name id)
  | .unary op e => do
      let e ← fold e
      return foldUnary op e
  | .binary op left right => do
      let left ← fold left
      let right ← fold right
      foldBinary op left right
  | .member base key optional => do
      let base ← fold base
      let key ← fold key
      return .member base key optional
  | .chain e => do
      let e ← fold e
      return .chain e
  | .call callee arguments => do
      let callee ← fold callee
      let arguments ← foldAll arguments
      return .call callee arguments
  | .length arguments => do
      let arguments ← foldAll arguments
      return .length arguments
  | .choice condition yes no => do
      let condition ← fold condition
      let yes ← fold yes
      let no ← fold no
      return .choice condition yes no
  | .list items => do
      let items ← foldAll items
      return foldList items
  | .literals items => some (.literals items)
  | .map pairs => do
      let pairs ← foldPairs pairs
      return .map pairs
  | .sequence items => do
      let items ← foldAll items
      return .sequence items

def foldAll : List Expr → Option (List Expr)
  | [] => some []
  | e :: rest => do
      let e ← fold e
      let rest ← foldAll rest
      return e :: rest

def foldPairs : List (Expr × Expr) → Option (List (Expr × Expr))
  | [] => some []
  | (key, value) :: rest => do
      let key ← fold key
      let value ← fold value
      let rest ← foldPairs rest
      return (key, value) :: rest

end

end Inlay.Expr
