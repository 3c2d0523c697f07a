import Inlay.Data.Yaml

/-!
Plain scalars. A text without quotes stands for a number, a truth, nothing or itself; a string that
would not stand for itself has to be quoted.
-/

namespace Inlay.Yaml

/-- The value of digits in a base, if there are digits and all are below it. -/
def digitsValue? (base : Nat) (digits : Bytes) : Option Nat :=
  if digits.isEmpty then none
  else digits.foldlM (fun n b => do
    let digit ← Quoted.hexValue? (Char.ofNat b.toNat)
    if digit < base then some (n * base + digit) else none) 0

/-- An integer with a sign or without: 64 bits hold it. -/
def integer? (negative : Bool) (base : Nat) (digits : Bytes) : Option Yaml := do
  let n ← digitsValue? base digits
  if negative then if n ≤ 0x8000000000000000 then some (.int (-(n : Int))) else none
  else if n < 0x10000000000000000 then some (.int n) else none

def fraction? (text : Bytes) : Option Yaml := do
  let x ← Number.parse? text
  if Number.isFinite x then some (.float x) else none

/-- What a text is as a number, if it is written as one. A number with a point is a fraction; all
others are integers, in a base that their first digits tell. Underscores between the digits do not
count. -/
def asNumber? {α : Type} (integer : Bool → Nat → Bytes → Option α) (fraction : Bytes → Option α)
    (text : Bytes) : Option α :=
  let points := text.count 46
  if text.isEmpty || text.head? = some 95 || 1 < points then none
  else
    let negative := text.head? = some 45
    let unsigned := match text with
      | 43 :: 45 :: rest => rest
      | 43 :: rest => rest
      | 45 :: rest => rest
      | _ => text
    let digits := unsigned.filter (· != 95)
    match digits with
    | 48 :: 120 :: rest => integer negative 16 rest
    | 48 :: 111 :: rest => integer negative 8 rest
    | 48 :: 98 :: rest => integer negative 2 rest
    | _ =>
        if digits.head? = some 48 && 1 < digits.length && points = 0 then integer negative 8 digits
        else if points = 1 then fraction (if negative then 45 :: digits else digits)
        else integer negative 10 digits

def number? : Bytes → Option Yaml := asNumber? integer? fraction?

def areDigits (base : Nat) : (value : Nat) → Bytes → Bool
  | _, [] => true
  | value, b :: rest =>
      match Quoted.hexValue? (Char.ofNat b.toNat) with
      | none => false
      | some digit =>
          digit < base &&
            (0x10000000000000000 ≤ value * base + digit ||
              areDigits base (value * base + digit) rest)

def isNumeric (text : Bytes) : Bool :=
  (asNumber? (fun _ base digits =>
      if !digits.isEmpty && areDigits base 0 digits then some () else none)
    (fun text => (Number.parse? text).map fun _ => ()) text).isSome

def nullWords : List Bytes := ["null", "Null", "NULL", "~"].map utf8

def trueWords : List Bytes := ["true", "True", "TRUE"].map utf8

def falseWords : List Bytes := ["false", "False", "FALSE"].map utf8

def specialNumbers : List (Bytes × Float) :=
  [(utf8 ".inf", 1 / 0), (utf8 ".Inf", 1 / 0), (utf8 ".INF", 1 / 0), (utf8 "-.inf", -1 / 0),
    (utf8 "-.Inf", -1 / 0), (utf8 "-.INF", -1 / 0), (utf8 ".nan", 0 / 0), (utf8 ".NaN", 0 / 0),
    (utf8 ".NAN", 0 / 0)]

def ofPlain (text : Bytes) : Yaml :=
  if text.isEmpty || nullWords.contains text then .null
  else if trueWords.contains text then .bool true
  else if falseWords.contains text then .bool false
  else match specialNumbers.lookup text with
    | some x => .float x
    | none => (number? text).getD (.string text)

def legacyWords : List Bytes :=
  ["y", "Y", "yes", "Yes", "YES", "n", "N", "no", "No", "NO", "on", "On", "ON", "off", "Off",
    "OFF"].map utf8

def isReserved (text : Bytes) : Bool :=
  nullWords.contains text || trueWords.contains text || falseWords.contains text ||
    legacyWords.contains text || (specialNumbers.lookup text).isSome

/-- Splits off a number of two digits, or of one if that is allowed. -/
def twoDigits? (orOne : Bool) : Bytes → Option (Nat × Bytes)
  | a :: rest =>
      if !Number.Literal.isDigit a then none
      else match rest with
        | b :: more =>
            if Number.Literal.isDigit b then some ((a.toNat - 48) * 10 + (b.toNat - 48), more)
            else if orOne then some (a.toNat - 48, rest) else none
        | [] => if orOne then some (a.toNat - 48, []) else none
  | [] => none

def after? (byte : UInt8) : Bytes → Option Bytes
  | b :: rest => if b == byte then some rest else none
  | [] => none

def daysIn (year month : Nat) : Nat :=
  if month = 2 then if year % 4 = 0 && (year % 100 != 0 || year % 400 = 0) then 29 else 28
  else if month = 4 || month = 6 || month = 9 || month = 11 then 30 else 31

def afterDate? (text : Bytes) : Option Bytes := do
  let year ← Bytes.toNat? (text.take 4)
  let rest ← after? 45 (text.drop 4)
  let (month, rest) ← twoDigits? false rest
  let rest ← after? 45 rest
  let (day, rest) ← twoDigits? false rest
  if (text.take 4).length = 4 && 1 ≤ month && month ≤ 12 && 1 ≤ day && day ≤ daysIn year month then
    some rest
  else none

def afterClock? (text : Bytes) : Option Bytes := do
  let (hour, rest) ← twoDigits? true text
  let rest ← after? 58 rest
  let (minute, rest) ← twoDigits? false rest
  let rest ← after? 58 rest
  let (second, rest) ← twoDigits? false rest
  if 24 ≤ hour || 60 ≤ minute || 60 ≤ second then none
  else match rest with
    | mark :: digit :: more =>
        if (mark == 46 || mark == 44) && Number.Literal.isDigit digit then
          some (more.dropWhile Number.Literal.isDigit)
        else some rest
    | _ => some rest

/-- A zone: universal time, or the distance to it. -/
def isZone (text : Bytes) : Bool :=
  match text with
  | [90] => true
  | sign :: rest =>
      (sign == 43 || sign == 45) && (do
        let (hours, rest) ← twoDigits? false rest
        let rest ← after? 58 rest
        let (minutes, rest) ← twoDigits? false rest
        return hours ≤ 24 && minutes ≤ 60 && rest.isEmpty).getD false
  | [] => false

def isHourMinute (text : Bytes) : Bool :=
  (do
    let (hour, rest) ← twoDigits? true text
    let rest ← after? 58 rest
    let (minute, rest) ← twoDigits? true rest
    return hour < 24 && minute < 60 && rest.isEmpty).getD false

def isTimestamp (text : Bytes) : Bool :=
  isHourMinute text ||
    match afterDate? text with
    | none => false
    | some [] => true
    | some (mark :: rest) =>
        if mark == 84 || mark == 116 then
          match afterClock? rest with
          | some zone => isZone zone
          | none => false
        else mark == 32 && afterClock? (rest.dropWhile (· == 32)) == some []

def hasIndicator : Bytes → Bool
  | a :: b :: rest => ((a == 58 || a == 45) && b == 32) || hasIndicator (b :: rest)
  | _ => false

def isOpening (b : UInt8) : Bool := List.elem b (utf8 "*&[\x7b\x7d],!|>%'\"@ `")

def needsQuotes (text : Bytes) : Bool :=
  match text with
  | [] => true
  | first :: _ =>
      isReserved text || isNumeric text || text == utf8 "-" || isOpening first ||
        text.getLast? == some 58 || text.getLast? == some 32 || isTimestamp text ||
        text.any (fun b => b == 35 || b == 92) || hasIndicator text

end Inlay.Yaml
