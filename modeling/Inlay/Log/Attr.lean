import Inlay.Value.Json
import Inlay.Log.Level
import Inlay.Log.Timestamp

/-!
Attributes of log records: names with values. A group is a list of attributes, and a deferred value
is one that a record computes when it is written; both end in plain values.
-/

namespace Inlay.Log

inductive Value where
  | string (s : Bytes)
  | int (n : Int)
  | float (x : Float)
  | bool (b : Bool)
  | duration (nanoseconds : Int)
  | time (t : Timestamp)
  | level (l : Level)
  | data (v : Inlay.Value)
  | group (members : List (Bytes × Value))
  | deferred (v : Value)
  deriving Inhabited

abbrev Attr := Bytes × Value

namespace Value

def isEmptyGroup : Value → Bool
  | .group [] => true
  | _ => false

def ofAttrs (attrs : List Attr) : Value := .group (attrs.filter fun a => !a.2.isEmptyGroup)

end Value

def Attr.string (key : String) (text : Bytes) : Attr := (utf8 key, .string text)

def Attr.int (key : String) (n : Int) : Attr := (utf8 key, .int n)

def Attr.bool (key : String) (b : Bool) : Attr := (utf8 key, .bool b)

namespace Duration

/-- The decimals of a fraction with `places` of them, the zeros at its end dropped, after a
point. -/
def fraction (places n : Nat) : Bytes :=
  let digits := ((Bytes.padded places n).reverse.dropWhile (· == 48)).reverse
  if n = 0 then [] else utf8 "." ++ digits

/-- The length of a time without sign: the unit is the largest one that makes it at least one, up to
seconds; longer ones have minutes and hours in front. -/
def size (n : Nat) : Bytes :=
  if n = 0 then utf8 "0s"
  else if n < 1000 then Bytes.ofNat n ++ utf8 "ns"
  else if n < 1000000 then Bytes.ofNat (n / 1000) ++ fraction 3 (n % 1000) ++ utf8 "µs"
  else if n < 1000000000 then Bytes.ofNat (n / 1000000) ++ fraction 6 (n % 1000000) ++ utf8 "ms"
  else
    let total := n / 1000000000
    let seconds := Bytes.ofNat (total % 60) ++ fraction 9 (n % 1000000000) ++ utf8 "s"
    if total < 60 then seconds
    else if total < 3600 then Bytes.ofNat (total / 60) ++ utf8 "m" ++ seconds
    else Bytes.ofNat (total / 3600) ++ utf8 "h" ++ Bytes.ofNat (total / 60 % 60) ++
      utf8 "m" ++ seconds

/-- The length of a time in nanoseconds, such as `1h2m3.5s`. -/
def text (nanoseconds : Int) : Bytes :=
  if nanoseconds < 0 then utf8 "-" ++ size nanoseconds.natAbs else size nanoseconds.natAbs

end Duration

namespace Value

mutual

def text : Value → Bytes
  | .string s => s
  | .int n => Bytes.ofInt n
  | .float x => Number.Layout.general.text x
  | .bool true => utf8 "true"
  | .bool false => utf8 "false"
  | .duration ns => Duration.text ns
  | .time t => t.text
  | .level l => l.text
  | .data v => v.text
  | .group members => utf8 "[" ++ Bytes.join (utf8 " ") (memberTexts members) ++ utf8 "]"
  | .deferred v => text v

def memberTexts : List (Bytes × Value) → List Bytes
  | [] => []
  | (key, v) :: rest => (key ++ utf8 "=" ++ text v) :: memberTexts rest

end

def ofData : Inlay.Value → Value
  | .string s => .string s
  | .int n => .int n.toInt
  | .float x => .float x
  | .bool b => .bool b
  | v => .data v

end Value

end Inlay.Log
