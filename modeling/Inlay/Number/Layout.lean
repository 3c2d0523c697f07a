import Inlay.Number.Shortest

/-!
Number texts. A finite number is written with its shortest digits, in positional notation for the
decimal exponents that the layout names and in scientific notation beyond.
-/

namespace Inlay.Number

/-- Which decimal exponents are written positionally, and how wide an exponent is at least. -/
structure Layout where
  positional : Int → Bool
  exponentPlaces : Nat

/-- Values as text: positional from `0.0001` up to `999999`, exponents of two places. -/
def Layout.general : Layout := ⟨fun e => -4 ≤ e && e < 6, 2⟩

/-- Numbers of a JSON document: positional from `0.000001` up to below `1e+21`. -/
def Layout.json : Layout := ⟨fun e => -6 ≤ e && e < 21, 1⟩

def Layout.plain : Layout := ⟨fun _ => true, 1⟩

def digitText (digits : List Nat) : Bytes := digits.map fun d => (48 + d).toUInt8

def Decimal.positional (d : Decimal) : Bytes :=
  let n := d.digits.length
  if d.point ≤ 0 then
    utf8 "0." ++ digitText (List.replicate (-d.point).toNat 0 ++ d.digits)
  else if n ≤ d.point.toNat then
    digitText (d.digits ++ List.replicate (d.point.toNat - n) 0)
  else
    digitText (d.digits.take d.point.toNat) ++ utf8 "." ++ digitText (d.digits.drop d.point.toNat)

/-- A decimal in scientific notation with at least `places` digits in the exponent. -/
def Decimal.scientific (d : Decimal) (places : Nat) : Bytes :=
  let exponent := d.point - 1
  let fraction := match d.digits.drop 1 with
    | [] => []
    | more => utf8 "." ++ digitText more
  let sign := if exponent < 0 then utf8 "e-" else utf8 "e+"
  digitText (d.digits.take 1) ++ fraction ++ sign ++ Bytes.padded places exponent.natAbs

def Layout.decimal (layout : Layout) (d : Decimal) : Bytes :=
  if layout.positional (d.point - 1) then d.positional else d.scientific layout.exponentPlaces

def Layout.text (layout : Layout) (x : Float) : Bytes :=
  let bits := x.toBits
  let magnitude := bits.toNat % 0x8000000000000000
  let negative := 0x8000000000000000 ≤ bits.toNat
  if 0x7FF0000000000000 < magnitude then utf8 "NaN"
  else if magnitude = 0x7FF0000000000000 then if negative then utf8 "-Inf" else utf8 "+Inf"
  else
    let body := if magnitude = 0 then utf8 "0" else layout.decimal (Binary.ofBits bits).shortest
    if negative then utf8 "-" ++ body else body

def isFinite (x : Float) : Bool := x.toBits.toNat % 0x8000000000000000 < 0x7FF0000000000000

end Inlay.Number
