import Inlay.Number.Exponential

/-!
Powers of numbers, by repeated squaring of mantissa and exponent apart.
-/

namespace Inlay.Number

structure Scaled where
  mantissa : Float
  exponent : Int

/-- The product of `acc` and the `n`-th power of a number whose mantissa is at least one half; a
number far too large or too small ends the work. -/
def Scaled.power (acc base : Scaled) (n : Nat) : Scaled :=
  if n = 0 then acc
  else if base.exponent < -4096 || 4096 < base.exponent then
    { acc with exponent := acc.exponent + base.exponent }
  else
    let acc := if n % 2 = 1 then
        ⟨acc.mantissa * base.mantissa, acc.exponent + base.exponent⟩
      else acc
    let square := base.mantissa * base.mantissa
    let base : Scaled :=
      if square < 0.5 then ⟨square + square, base.exponent * 2 - 1⟩ else ⟨square, base.exponent * 2⟩
    power acc base (n / 2)
termination_by n
decreasing_by omega

def isOdd (y : Float) : Bool :=
  let size := y.abs
  size.floor == size && size < 9007199254740992.0 && size.toUInt64 % 2 == 1

def finitePower (x y : Float) : Float :=
  let size := y.abs
  let whole := size.floor
  let part := size - whole
  if part != 0.0 && x < 0.0 then 0.0 / 0.0
  else if 9223372036854775808.0 ≤ whole then
    if x == -1.0 then 1.0 else if (x.abs < 1.0) == (0.0 < y) then 0.0 else 1.0 / 0.0
  else
    let (whole, part) := if 0.5 < part then (whole + 1.0, part - 1.0) else (whole, part)
    let start := if part == 0.0 then 1.0 else exponential (part * logarithm x)
    let (mantissa, exponent) := x.frExp
    let result := Scaled.power ⟨start, 0⟩ ⟨mantissa, exponent⟩ whole.toUInt64.toNat
    if y < 0.0 then (1.0 / result.mantissa).scaleB (-result.exponent)
    else result.mantissa.scaleB result.exponent

def power (x y : Float) : Float :=
  let infinity := 1.0 / 0.0
  if y == 0.0 || x == 1.0 then 1.0
  else if y == 1.0 then x
  else if x.isNaN || y.isNaN then 0.0 / 0.0
  else if x == 0.0 then
    let signed := 1.0 / x < 0.0 && isOdd y
    if y < 0.0 then if signed then -infinity else infinity
    else if signed then x else 0.0
  else if y.isInf then
    if x == -1.0 then 1.0 else if (x.abs < 1.0) == (0.0 < y) then 0.0 else infinity
  else if x.isInf then
    let negative := x < 0.0 && isOdd y
    if y < 0.0 then if negative then -0.0 else 0.0
    else if negative then -infinity else infinity
  else if y == 0.5 then x.sqrt
  else if y == -0.5 then 1.0 / x.sqrt
  else finitePower x y

end Inlay.Number
