import Inlay.Data.Yaml.Scalar

/-!
Points in time that scalars with a tag stand for. Months, days and the parts of the time of the day
have one digit or two.
-/

namespace Inlay.Yaml

/-- A date with or without a time of the day, before its fraction of a second and its zone are
known. -/
structure Moment where
  year : Nat
  month : Nat
  day : Nat
  hour : Nat := 0
  minute : Nat := 0
  second : Nat := 0
  deriving DecidableEq, Repr, Inhabited

namespace Moment

def date? (text : Bytes) : Option (Moment × Bytes) := do
  let year ← Bytes.toNat? (text.take 4)
  let rest ← after? 45 (text.drop 4)
  let (month, rest) ← twoDigits? true rest
  let rest ← after? 45 rest
  let (day, rest) ← twoDigits? true rest
  if (text.take 4).length = 4 && 1 ≤ month && month ≤ 12 && 1 ≤ day && day ≤ daysIn year month then
    some ({ year, month, day }, rest)
  else none

def clock? (moment : Moment) (text : Bytes) : Option (Moment × Bytes) := do
  let (hour, rest) ← twoDigits? true text
  let rest ← after? 58 rest
  let (minute, rest) ← twoDigits? true rest
  let rest ← after? 58 rest
  let (second, rest) ← twoDigits? true rest
  if hour < 24 && minute < 60 && second < 60 then some ({ moment with hour, minute, second }, rest)
  else none

def fraction (text : Bytes) : Nat × Bytes :=
  match text with
  | mark :: rest =>
      let (digits, more) := rest.span Number.Literal.isDigit
      if (mark == 46 || mark == 44) && !digits.isEmpty then
        ((Bytes.toNat? ((digits ++ List.replicate 9 48).take 9)).getD 0, more)
      else (0, text)
  | [] => (0, [])

def zone? (text : Bytes) : Option Int :=
  match text with
  | [90] => some 0
  | sign :: rest => do
      let (hours, rest) ← twoDigits? false rest
      let rest ← after? 58 rest
      let (minutes, rest) ← twoDigits? false rest
      let distance : Int := (hours * 60 + minutes) * 60
      if !rest.isEmpty || 24 < hours || 60 < minutes then none
      else if sign == 45 then some (-distance)
      else if sign == 43 then some distance
      else none
  | [] => none

def toTime (moment : Moment) (nanosecond : Nat) (offset : Int) : Log.Timestamp :=
  { year := moment.year, month := moment.month, day := moment.day, hour := moment.hour
    minute := moment.minute, second := moment.second, nanosecond, offset
    zone := if offset = 0 then utf8 "UTC" else [] }

end Moment

/-- The point in time that a text stands for: a date, or a date and a time of the day with a zone
after the letter t, or without one after a space. -/
def time? (text : Bytes) : Option Log.Timestamp := do
  let (date, rest) ← Moment.date? text
  match rest with
  | [] => some (date.toTime 0 0)
  | mark :: more =>
      if mark == 84 || mark == 116 then
        let (moment, rest) ← date.clock? more
        let (nanosecond, rest) := Moment.fraction rest
        let offset ← Moment.zone? rest
        some (moment.toTime nanosecond offset)
      else if mark == 32 then
        let (moment, rest) ← date.clock? (more.dropWhile (· == 32))
        let (nanosecond, rest) := Moment.fraction rest
        if rest.isEmpty then some (moment.toTime nanosecond 0) else none
      else none

end Inlay.Yaml
