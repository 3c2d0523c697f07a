import Inlay.Expr.Basic
import Inlay.Value.Member
import Inlay.Number.Power

/-!
Operators on values. An operator that does not fit its operands has no value. Integers of different
types are one type in sums, differences and products, and with a floating point number they are
floating point numbers.
-/

namespace Inlay

namespace Value

def arithmetic? (ints : Int64 → Int64 → Int64) (floats : Float → Float → Float) (a b : Value) :
    Option Value :=
  match a.toInteger?, b.toInteger? with
  | some x, some y => some (.int (ints x y))
  | _, _ => do
      let x ← a.toFloat?
      let y ← b.toFloat?
      return .float (floats x y)

/-- A comparison of two numbers, two texts or two points in time; those compare as their digits
do. -/
def compare? (ints : Int64 → Int64 → Bool) (floats : Float → Float → Bool)
    (texts : Bytes → Bytes → Bool) (a b : Value) : Option Value :=
  match a, b with
  | .string x, .string y => some (.bool (texts x y))
  | .time x, .time y =>
      some (.bool (texts (Bytes.padded 24 x.instant.toNat) (Bytes.padded 24 y.instant.toNat)))
  | _, _ =>
      match a.toInteger?, b.toInteger? with
      | some x, some y => some (.bool (ints x y))
      | _, _ => do
          let x ← a.toFloat?
          let y ← b.toFloat?
          return .bool (floats x y)

/-- A test on two texts; it fails for nothing. -/
def testTexts? (test : Bytes → Bytes → Bool) (a b : Value) : Option Value :=
  if a.isNothing || b.isNothing then some (.bool false)
  else match a, b with
    | .string x, .string y => some (.bool (test x y))
    | _, _ => none

def sameInts? : Value → Value → Option Bool
  | .int x, .int y => some (x == y)
  | _, _ => none

def sameTexts? : Value → Value → Option Bool
  | .string x, .string y => some (x == y)
  | _, _ => none

def sum? : Value → Value → Option Value
  | .string x, .string y => some (.string (x ++ y))
  | a, b => arithmetic? (· + ·) (· + ·) a b

def remainder? (a b : Value) : Option Value := do
  let x ← a.toInteger?
  let y ← b.toInteger?
  if y == 0 then none else some (.int (x % y))

/-- The size of a range, in 64 bits; below zero there is nothing in it. -/
def rangeSize (low high : Int64) : Nat := (high - low + 1).toInt.toNat

def range? (a b : Value) : Option Value := do
  let low ← a.toInt?
  let high ← b.toInt?
  return .ints ((List.range (rangeSize low high)).map fun i => low + Int64.ofNat i)

end Value

def BinaryOp.compute? (op : BinaryOp) (a b : Value) : Option Value :=
  match op with
  | .equal => some (.bool (a.same b))
  | .equalInts => (a.sameInts? b).map .bool
  | .equalTexts => (a.sameTexts? b).map .bool
  | .notEqual => some (.bool !(a.same b))
  | .notEqualInts => (a.sameInts? b).map fun same => .bool !same
  | .notEqualTexts => (a.sameTexts? b).map fun same => .bool !same
  | .less => a.compare? (fun x y => x < y) (fun x y => x < y) (fun x y => !Bytes.le y x) b
  | .greater => a.compare? (fun x y => y < x) (fun x y => y < x) (fun x y => !Bytes.le x y) b
  | .lessEqual => a.compare? (fun x y => x ≤ y) (fun x y => x ≤ y) Bytes.le b
  | .greaterEqual => a.compare? (fun x y => y ≤ x) (fun x y => y ≤ x) (fun x y => Bytes.le y x) b
  | .member | .intMember => (a.isIn? b).map .bool
  | .memberInts =>
      match a with
      | .int _ => (a.isIn? b).map .bool
      | .null => (Value.isIn? (.int 0) b).map .bool
      | _ => none
  | .memberTexts =>
      match a with
      | .string _ => (a.isIn? b).map .bool
      | .null => (Value.isIn? (.string []) b).map .bool
      | _ => none
  | .contains => a.testTexts? (fun x y => Bytes.contains x y) b
  | .startsWith => a.testTexts? (fun x y => y.isPrefixOf x) b
  | .endsWith => a.testTexts? Bytes.endsWith b
  | .range => a.range? b
  | .add => a.sum? b
  | .subtract => a.arithmetic? (· - ·) (· - ·) b
  | .multiply => a.arithmetic? (· * ·) (· * ·) b
  | .divide => do
      let x ← a.toFloat?
      let y ← b.toFloat?
      return .float (x / y)
  | .power => do
      let x ← a.toFloat?
      let y ← b.toFloat?
      return .float (Number.power x y)
  | .modulo => a.remainder? b
  | .or | .and | .coalesce => none

def UnaryOp.compute? : UnaryOp → Value → Option Value
  | .not, .bool b => some (.bool !b)
  | .minus, .int n => some (.int (-n))
  | .minus, .long n => some (.long (-n))
  | .minus, .unsigned n => some (.unsigned (-n))
  | .minus, .byte b => some (.byte (-b))
  | .minus, .float x => some (.float (-x))
  | .plus, v => some v
  | _, _ => none

end Inlay
