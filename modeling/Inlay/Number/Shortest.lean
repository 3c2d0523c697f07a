import Inlay.Text.Bytes

/-!
The shortest decimal of a floating point number: the fewest digits that read back as the number,
and of those the nearest to it. All arithmetic is exact, on the mantissa and the binary exponent.
-/

namespace Inlay.Number

/-- The positive decimal `0.d₁d₂… · 10 ^ point`, with no zero at either end of the digits. -/
structure Decimal where
  digits : List Nat
  point : Int
  deriving DecidableEq, Repr

/-- A positive number `mantissa · 2 ^ exponent`; `narrow` if the gap below it is half the gap
above. -/
structure Binary where
  mantissa : Nat
  exponent : Int
  narrow : Bool
  deriving DecidableEq, Repr

def Binary.ofBits (bits : UInt64) : Binary :=
  let fraction : Nat := bits.toNat % 0x10000000000000
  let scale : Nat := bits.toNat / 0x10000000000000 % 0x800
  if scale = 0 then ⟨fraction, -1074, false⟩
  else ⟨fraction + 0x10000000000000, (scale : Int) - 1075, fraction = 0 && 1 < scale⟩

/-- The reals that read as a number, as fractions over one denominator. -/
structure Interval where
  low : Nat
  mid : Nat
  high : Nat
  denominator : Nat
  closed : Bool

/-- The reals nearer to `b` than to any other number; those half way too if the mantissa is even. -/
def Binary.interval (b : Binary) : Interval :=
  let low := 4 * b.mantissa - (if b.narrow then 1 else 2)
  let mid := 4 * b.mantissa
  let high := 4 * b.mantissa + 2
  let closed := b.mantissa % 2 = 0
  match b.exponent - 2 with
  | .ofNat up => ⟨low * Nat.pow 2 up, mid * Nat.pow 2 up, high * Nat.pow 2 up, 1, closed⟩
  | .negSucc down => ⟨low, mid, high, Nat.pow 2 (down + 1), closed⟩

/-- How many zeros follow the point of the fraction `num / den`, which is below one. -/
def leadingZeros (num den : Nat) : (fuel : Nat) → Nat
  | 0 => 0
  | fuel + 1 => if num * 10 < den then leadingZeros (num * 10) den fuel + 1 else 0

/-- The number of digits before the point of `num / den`, negative for zeros after it. -/
def magnitude (num den : Nat) : Int :=
  if den ≤ num then (Nat.toDigits 10 (num / den)).length
  else -(leadingZeros num den 400 : Int)

def Interval.scaled (i : Interval) (unit : Int) : Interval :=
  match unit with
  | .ofNat up => { i with denominator := i.denominator * Nat.pow 10 up }
  | .negSucc down =>
      let factor := Nat.pow 10 (down + 1)
      { i with low := i.low * factor, mid := i.mid * factor, high := i.high * factor }

def Interval.holds (i : Interval) (count : Nat) : Bool :=
  let at_ := count * i.denominator
  if i.closed then i.low ≤ at_ && at_ ≤ i.high else i.low < at_ && at_ < i.high

/-- The neighbour of the value on a grid of whole units that reads back, the nearer one of two. -/
def Interval.hit (i : Interval) : Option Nat :=
  let below := i.mid / i.denominator
  let above := below + 1
  match i.holds below, i.holds above with
  | true, true =>
      let down := i.mid - below * i.denominator
      let up := above * i.denominator - i.mid
      some (if down < up || (down = up && below % 2 = 0) then below else above)
  | true, false => some below
  | false, true => some above
  | false, false => none

def digitsOf (n : Nat) : List Nat := (Nat.toDigits 10 n).map fun c => c.toNat - 48

/-- The first grid of at least `places` digits that holds a decimal reading back as the number. -/
def searchDigits (i : Interval) (magnitude : Int) : (places fuel : Nat) → Decimal
  | _, 0 => ⟨[], 0⟩
  | places, fuel + 1 =>
      match (i.scaled (magnitude - places)).hit with
      | some count =>
          let digits := digitsOf count
          ⟨(digits.reverse.dropWhile (· == 0)).reverse, magnitude + (digits.length - places)⟩
      | none => searchDigits i magnitude (places + 1) fuel

def Binary.shortest (b : Binary) : Decimal :=
  let i := b.interval
  searchDigits i (magnitude i.mid i.denominator) 1 17

end Inlay.Number
