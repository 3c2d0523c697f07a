import Inlay.Number.Shortest

/-!
Exponential and natural logarithm. Both bring their argument near zero or one, sum a short series
there and scale the result back. The steps and their order are fixed, since every one of them
rounds: the same argument has the same last digit everywhere.
-/

namespace Inlay.Number

/-- A finite number as an integer times a power of two. -/
structure Dyadic where
  mantissa : Int
  exponent : Int
  deriving DecidableEq, Repr

def Dyadic.ofFloat (x : Float) : Dyadic :=
  let size := Binary.ofBits x.toBits
  ⟨if x.toBits &&& 0x8000000000000000 = 0 then size.mantissa else -size.mantissa, size.exponent⟩

/-- The same value over a lower exponent, `down` places below. -/
def Dyadic.lower (d : Dyadic) (down : Nat) : Dyadic :=
  ⟨d.mantissa * Nat.pow 2 down, d.exponent - down⟩

def Dyadic.mul (a b : Dyadic) : Dyadic := ⟨a.mantissa * b.mantissa, a.exponent + b.exponent⟩

def Dyadic.add (a b : Dyadic) : Dyadic :=
  let low := min a.exponent b.exponent
  let a := a.lower (a.exponent - low).toNat
  let b := b.lower (b.exponent - low).toNat
  ⟨a.mantissa + b.mantissa, low⟩

/-- A natural number over `2 ^ places`, rounded to the nearest integer; a half goes to the even
neighbour. -/
def roundShift (n places : Nat) : Nat :=
  let unit := Nat.pow 2 places
  let below := n / unit
  let rest := 2 * (n % unit)
  if rest < unit || (rest = unit && below % 2 = 0) then below else below + 1

def Dyadic.round (d : Dyadic) : Float :=
  let size := d.mantissa.natAbs
  let bits := if size = 0 then 0 else Nat.log2 size + 1
  let places := max (bits - 53) (-1074 - d.exponent).toNat
  let rounded := (Float.ofNat (roundShift size places)).scaleB (d.exponent + places)
  if d.mantissa < 0 then -rounded else rounded

def mulAdd (a b c : Float) : Float :=
  (((Dyadic.ofFloat a).mul (Dyadic.ofFloat b)).add (Dyadic.ofFloat c)).round

def nearestInt (x : Float) : Int :=
  let d := Dyadic.ofFloat x
  let size := match d.exponent with
    | .ofNat up => d.mantissa.natAbs * Nat.pow 2 up
    | .negSucc down => roundShift d.mantissa.natAbs (down + 1)
  if d.mantissa < 0 then -size else size

/-- The coefficients of the exponential's series after the first, from the highest power. -/
def exponentialSeries : List Float :=
  [1.9841269841269841270e-4, 1.3888888888888888889e-3, 8.3333333333333333333e-3,
   4.1666666666666666667e-2, 1.6666666666666666667e-1, 0.5, 1.0]

/-- The exponential of a number of moderate size. The argument less a multiple of the logarithm of
two is divided by sixteen; four doublings of `exp x - 1` undo the division. -/
def exponential (x : Float) : Float :=
  let twos := nearestInt (x * 1.4426950408889634073599246810018920)
  let count := Float.ofInt twos
  let high := mulAdd (-0.69314718055966295651160180568695068359375) count x
  let small := mulAdd (-0.28235290563031577122588448175013436025525412068e-12) count high * 0.0625
  let factor := exponentialSeries.foldl (fun sum c => mulAdd sum small c) 2.4801587301587301587e-5
  let double (y : Float) := y * (y + 2.0)
  let eighth := double (double (double (small * factor)))
  (mulAdd eighth (eighth + 2.0) 1.0).scaleB twos

def logarithm (x : Float) : Float :=
  let (part, twos) := x.frExp
  let (part, twos) := if part < 0.70710678118654752440 then (part * 2.0, twos - 1) else (part, twos)
  let count := Float.ofInt twos
  let f := part - 1.0
  let s := f / (2.0 + f)
  let s2 := s * s
  let s4 := s2 * s2
  let odd := s2 * (6.666666666666735130e-01 + s4 * (2.857142874366239149e-01 +
    s4 * (1.818357216161805012e-01 + s4 * 1.479819860511658591e-01)))
  let even := s4 * (3.999999999940941908e-01 + s4 * (2.222219843214978396e-01 +
    s4 * 1.531383769920937332e-01))
  let half := 0.5 * f * f
  count * 6.93147180369123816490e-01 -
    ((half - (s * (half + (odd + even)) + count * 1.90821492927058770002e-10)) - f)

end Inlay.Number
