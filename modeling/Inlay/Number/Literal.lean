import Inlay.Text.Bytes

/-!
Decimal literals: digits with a point among them and an exponent after them, read as the number
nearest to their value.
-/

namespace Inlay.Number

structure Literal where
  whole : Bytes
  fraction : Bytes := []
  exponent : Int := 0

namespace Literal

def isDigit (b : UInt8) : Bool := 48 ≤ b && b ≤ 57

def digits (text : Bytes) : Nat := text.foldl (fun n b => n * 10 + (b.toNat - 48)) 0

def exponent? (text : Bytes) : Option Int :=
  match text with
  | 45 :: rest => (Bytes.toNat? rest).map fun n => -(n : Int)
  | 43 :: rest => (Bytes.toNat? rest).map fun n => (n : Int)
  | _ => (Bytes.toNat? text).map fun n => (n : Int)

def parse? (text : Bytes) : Option Literal :=
  let (whole, rest) := text.span isDigit
  let (fraction, rest) := match rest with
    | 46 :: more => more.span isDigit
    | _ => ([], rest)
  if whole.isEmpty && fraction.isEmpty then none
  else match rest with
    | [] => some { whole, fraction }
    | mark :: more =>
        if mark == 101 || mark == 69 then
          (exponent? more).map fun exponent => { whole, fraction, exponent }
        else none

/-- The number nearest to the value. Exponents far beyond the range of numbers count as the end of
it. -/
def toFloat (literal : Literal) : Float :=
  let mantissa := digits (literal.whole ++ literal.fraction)
  let exponent := literal.exponent - literal.fraction.length
  let size := (literal.whole ++ literal.fraction).length
  if mantissa = 0 then 0.0
  else if exponent < -(400 + size : Int) then 0.0
  else if 400 < exponent then Float.ofScientific mantissa false 400
  else if exponent < 0 then Float.ofScientific mantissa true exponent.natAbs
  else Float.ofScientific mantissa false exponent.natAbs

end Literal

def parse? (text : Bytes) : Option Float :=
  match text with
  | 45 :: rest => (Literal.parse? rest).map fun literal => -literal.toFloat
  | 43 :: rest => (Literal.parse? rest).map Literal.toFloat
  | _ => (Literal.parse? text).map Literal.toFloat

def parseInt? (text : Bytes) : Option Int :=
  let value := match text with
    | 45 :: rest => (Bytes.toNat? rest).map fun n => -(n : Int)
    | 43 :: rest => (Bytes.toNat? rest).map fun n => (n : Int)
    | _ => (Bytes.toNat? text).map fun n => (n : Int)
  value.bind fun n => if -0x8000000000000000 ≤ n && n < 0x8000000000000000 then some n else none

end Inlay.Number
