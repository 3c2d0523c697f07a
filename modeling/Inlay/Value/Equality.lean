import Inlay.Value

/-!
Equality of values. Numbers are equal if their values are, whatever their types, and lists if their
items are. All other values are equal only if they are identical: of one type and with identical
parts.
-/

namespace Inlay.Value

def toInteger? : Value → Option Int64
  | .int n => some n
  | .long n => some n
  | .unsigned n => some n.toInt64
  | .byte b => some (Int64.ofNat b.toNat)
  | _ => none

def toFloat? : Value → Option Float
  | .int n => some n.toFloat
  | .long n => some n.toFloat
  | .unsigned n => some n.toFloat
  | .byte b => some b.toFloat
  | .float x => some x
  | _ => none

def isNothing : Value → Bool
  | .null | .noMap | .noNode | .nodes [] => true
  | _ => false

mutual

/-- Two values are of one type and have identical parts. -/
def identical : Value → Value → Bool
  | .null, .null => true
  | .bool a, .bool b => a == b
  | .int a, .int b => a == b
  | .long a, .long b => a == b
  | .unsigned a, .unsigned b => a == b
  | .byte a, .byte b => a == b
  | .float a, .float b => a == b
  | .string a, .string b => a == b
  | .bytes a, .bytes b => a == b
  | .time a, .time b => a.instant == b.instant
  | .list as, .list bs => identicalAll as bs
  | .ints as, .ints bs => as == bs
  | .map as, .map bs => as.length == bs.length && identicalEntries as bs
  | .noMap, .noMap => true
  | .node a, .node b => identicalNodes a b
  | .noNode, .noNode => true
  | .nodes as, .nodes bs => identicalItems as bs
  | .nodeKind a, .nodeKind b => a = b
  | _, _ => false

def identicalAll : List Value → List Value → Bool
  | [], [] => true
  | a :: as, b :: bs => identical a b && identicalAll as bs
  | _, _ => false

def identicalEntries : List (Bytes × Value) → List (Bytes × Value) → Bool
  | [], _ => true
  | (key, a) :: rest, bs => (match findEntry bs key with
      | some b => identical a b
      | none => false) && identicalEntries rest bs

def identicalNodes : Descriptor → Descriptor → Bool
  | .mk kind type props children text, .mk kind' type' props' children' text' =>
      kind = kind' && type == type' && text == text' &&
        (match props, props' with
          | none, none => true
          | some as, some bs => as.length == bs.length && identicalEntries as bs
          | _, _ => false) &&
        identicalChildren children children'

def identicalChildren : List Descriptor → List Descriptor → Bool
  | [], [] => true
  | a :: as, b :: bs => identicalNodes a b && identicalChildren as bs
  | _, _ => false

def identicalItems : List (Option Descriptor) → List (Option Descriptor) → Bool
  | [], [] => true
  | none :: as, none :: bs => identicalItems as bs
  | some a :: as, some b :: bs => identicalNodes a b && identicalItems as bs
  | _, _ => false

end

/-- Two numbers are equal; nothing is said about other values. -/
def sameNumber? (a b : Value) : Option Bool :=
  match a.toInteger?, b.toInteger? with
  | some x, some y => some (x == y)
  | _, _ => do
      let x ← a.toFloat?
      let y ← b.toFloat?
      return x == y

def sameNumbers : List Value → List Value → Bool
  | [], [] => true
  | a :: as, b :: bs => (sameNumber? a b).getD false && sameNumbers as bs
  | _, _ => false

def sameScalar (a b : Value) : Bool :=
  match sameNumber? a b with
  | some same => same
  | none => (a.isNothing && b.isNothing) || identical a b

mutual

def same : Value → Value → Bool
  | .list as, .list bs => sameAll as bs
  | .list as, .ints bs => sameNumbers as (bs.map .int)
  | .ints as, .list bs => sameNumbers bs (as.map .int)
  | .list as, .bytes bs => sameNumbers as (bs.map .byte)
  | .bytes as, .list bs => sameNumbers bs (as.map .byte)
  | a, b => sameScalar a b

def sameAll : List Value → List Value → Bool
  | [], [] => true
  | a :: as, b :: bs => same a b && sameAll as bs
  | _, _ => false

end

end Inlay.Value
