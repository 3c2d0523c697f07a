import Inlay.Text.Blank

/-!
Points in time and how a layout writes them. A layout shows the reference time, the second of
January 2006 at five seconds past 15:04 in the zone seven hours behind, and each of its parts
stands for that part of the time.
-/

namespace Inlay.Log

/-- A point in time on a calendar, `offset` seconds ahead of universal time. -/
structure Timestamp where
  year : Int
  month : Nat
  day : Nat
  hour : Nat
  minute : Nat
  second : Nat
  nanosecond : Nat
  offset : Int
  zone : Bytes
  deriving DecidableEq, Repr, Inhabited

namespace Timestamp

def epoch : Timestamp := ⟨1970, 1, 1, 0, 0, 0, 0, 0, utf8 "UTC"⟩

def dayNumber (year : Int) (month day : Nat) : Int :=
  let shifted := if month ≤ 2 then year - 1 else year
  let place := if month ≤ 2 then month + 9 else month - 3
  365 * shifted + shifted.fdiv 4 - shifted.fdiv 100 + shifted.fdiv 400 + (153 * place + 2) / 5 + day

/-- The point in time so many seconds after the first instant of 1970, in universal time. Years are
counted from March here, so that leap days come last. -/
def ofSeconds (seconds : Int) (nanosecond : Nat) : Timestamp :=
  let clock := (seconds.fmod 86400).toNat
  let day := seconds.fdiv 86400 + 719468
  let era := day.fdiv 146097
  let dayOfEra := (day.fmod 146097).toNat
  let yearOfEra := (dayOfEra - dayOfEra / 1460 + dayOfEra / 36524 - dayOfEra / 146096) / 365
  let dayOfYear := dayOfEra - (365 * yearOfEra + yearOfEra / 4 - yearOfEra / 100)
  let place := (5 * dayOfYear + 2) / 153
  let month := if place < 10 then place + 3 else place - 9
  let year : Int := yearOfEra + era * 400
  { year := if month ≤ 2 then year + 1 else year
    month, day := dayOfYear - (153 * place + 2) / 5 + 1
    hour := clock / 3600, minute := clock / 60 % 60, second := clock % 60, nanosecond
    offset := 0, zone := utf8 "UTC" }

def instant (t : Timestamp) : Int :=
  (dayNumber t.year t.month t.day * 86400 + (t.hour * 60 + t.minute) * 60 + t.second - t.offset) *
    1000000000 + t.nanosecond

def weekday (t : Timestamp) : Nat := ((dayNumber t.year t.month t.day + 2).fmod 7).toNat

def yearDay (t : Timestamp) : Nat :=
  (dayNumber t.year t.month t.day - dayNumber t.year 1 1 + 1).toNat

def monthNames : List String :=
  ["January", "February", "March", "April", "May", "June", "July", "August", "September",
    "October", "November", "December"]

def weekdayNames : List String :=
  ["Sunday", "Monday", "Tuesday", "Wednesday", "Thursday", "Friday", "Saturday"]

def monthName (t : Timestamp) : Bytes := utf8 (monthNames.getD (t.month - 1) "")

def weekdayName (t : Timestamp) : Bytes := utf8 (weekdayNames.getD t.weekday "")

def hour12 (t : Timestamp) : Nat := if t.hour % 12 = 0 then 12 else t.hour % 12

def number? (width : Nat) (text : Bytes) : Option (Nat × Bytes) :=
  if text.length < width then none
  else (Bytes.toNat? (text.take width)).map fun n => (n, text.drop width)

def expect? (byte : Char) (text : Bytes) : Option Bytes :=
  match text with
  | b :: rest => if b.toNat = byte.toNat then some rest else none
  | [] => none

def parse? (text : Bytes) : Option Timestamp := do
  let (year, text) ← number? 4 text
  let text ← expect? '-' text
  let (month, text) ← number? 2 text
  let text ← expect? '-' text
  let (day, text) ← number? 2 text
  let text ← expect? 'T' text
  let (hour, text) ← number? 2 text
  let text ← expect? ':' text
  let (minute, text) ← number? 2 text
  let text ← expect? ':' text
  let (second, text) ← number? 2 text
  let (fraction, text) := match text with
    | 46 :: rest => rest.span fun b => 48 ≤ b && b ≤ 57
    | _ => ([], text)
  let nanosecond := (Bytes.toNat? ((fraction ++ List.replicate 9 48).take 9)).getD 0
  match text with
  | [90] => some ⟨year, month, day, hour, minute, second, nanosecond, 0, utf8 "UTC"⟩
  | sign :: rest =>
      let (hours, rest) ← number? 2 rest
      let rest ← expect? ':' rest
      let (minutes, rest) ← number? 2 rest
      let distance : Int := (hours * 60 + minutes) * 60
      let offset := if sign == 45 then -distance else distance
      let zone := if offset = 0 then utf8 "UTC" else []
      if rest.isEmpty && (sign == 45 || sign == 43) then
        some ⟨year, month, day, hour, minute, second, nanosecond, offset, zone⟩
      else none
  | [] => none

end Timestamp

inductive TimeField where
  | longYear | year
  | longMonth | shortMonth | month | zeroMonth
  | longWeekday | shortWeekday
  | day | spaceDay | zeroDay | spaceYearDay | zeroYearDay
  | hour | hour12 | zeroHour12
  | minute | zeroMinute
  | second | zeroSecond
  | fraction (separator : UInt8) (places : Nat) (trimmed : Bool)
  | upperHalf | lowerHalf
  | zoneName
  | offset (zulu colons : Bool) (parts : Nat)
  deriving DecidableEq, Repr

namespace TimeField

def two (n : Nat) : Bytes := Bytes.padded 2 n

/-- Blanks and a number, as wide as `width` places. -/
def spaced (width n : Nat) : Bytes :=
  let digits := Bytes.ofNat n
  List.replicate (width - digits.length) 32 ++ digits

/-- The years in four places, with a sign if they are negative. -/
def fourYears (year : Int) : Bytes :=
  if year < 0 then utf8 "-" ++ Bytes.padded 4 year.natAbs else Bytes.padded 4 year.toNat

/-- A fraction of a second with so many places, the zeros at its end dropped if `trimmed`. -/
def fractionText (separator : UInt8) (places : Nat) (trimmed : Bool) (nanosecond : Nat) : Bytes :=
  if trimmed && nanosecond = 0 then []
  else
    let digits := (Bytes.padded 9 nanosecond).take places
    let digits := if trimmed then (digits.reverse.dropWhile (· == 48)).reverse else digits
    if trimmed && digits.isEmpty then [] else separator :: digits

/-- The distance to universal time in hours, minutes and seconds, as many of them as `parts`. -/
def offsetText (colons : Bool) (parts : Nat) (offset : Int) : Bytes :=
  let minutes := offset.tdiv 60
  let colon := if colons then utf8 ":" else []
  let sign := if minutes < 0 then utf8 "-" else utf8 "+"
  let size := minutes.natAbs
  sign ++ two (size / 60) ++
    (if 1 < parts then colon ++ two (size % 60) else []) ++
    (if 2 < parts then colon ++ two (offset.natAbs % 60) else [])

def text (t : Timestamp) : TimeField → Bytes
  | .longYear => fourYears t.year
  | .year => two (t.year.toNat % 100)
  | .longMonth => t.monthName
  | .shortMonth => t.monthName.take 3
  | .month => Bytes.ofNat t.month
  | .zeroMonth => two t.month
  | .longWeekday => t.weekdayName
  | .shortWeekday => t.weekdayName.take 3
  | .day => Bytes.ofNat t.day
  | .spaceDay => spaced 2 t.day
  | .zeroDay => two t.day
  | .spaceYearDay => spaced 3 t.yearDay
  | .zeroYearDay => Bytes.padded 3 t.yearDay
  | .hour => two t.hour
  | .hour12 => Bytes.ofNat t.hour12
  | .zeroHour12 => two t.hour12
  | .minute => Bytes.ofNat t.minute
  | .zeroMinute => two t.minute
  | .second => Bytes.ofNat t.second
  | .zeroSecond => two t.second
  | .fraction separator places trimmed => fractionText separator places trimmed t.nanosecond
  | .upperHalf => if 12 ≤ t.hour then utf8 "PM" else utf8 "AM"
  | .lowerHalf => if 12 ≤ t.hour then utf8 "pm" else utf8 "am"
  | .zoneName => if t.zone.isEmpty then offsetText false 2 t.offset else t.zone
  | .offset zulu colons parts =>
      if zulu && t.offset = 0 then utf8 "Z" else offsetText colons parts t.offset

/-- The spellings of the fields in the order in which they are tried. A month or a weekday in short
form is no field if a lower case letter follows. -/
def spellings : List (String × TimeField) :=
  [("January", .longMonth), ("Jan", .shortMonth), ("Monday", .longWeekday), ("Mon", .shortWeekday),
    ("MST", .zoneName), ("01", .zeroMonth), ("02", .zeroDay), ("03", .zeroHour12),
    ("04", .zeroMinute), ("05", .zeroSecond), ("06", .year), ("002", .zeroYearDay), ("15", .hour),
    ("1", .month), ("2006", .longYear), ("2", .day), ("__2", .spaceYearDay), ("_2", .spaceDay),
    ("3", .hour12), ("4", .minute), ("5", .second), ("PM", .upperHalf), ("pm", .lowerHalf),
    ("-070000", .offset false false 3), ("-07:00:00", .offset false true 3),
    ("-0700", .offset false false 2), ("-07:00", .offset false true 2),
    ("-07", .offset false false 1), ("Z070000", .offset true false 3),
    ("Z07:00:00", .offset true true 3), ("Z0700", .offset true false 2),
    ("Z07:00", .offset true true 2), ("Z07", .offset true false 1)]

def startsLower : Bytes → Bool
  | b :: _ => 97 ≤ b && b ≤ 122
  | [] => false

def spelled? (layout : Bytes) (spelling : String) (field : TimeField) : Option (TimeField × Nat) :=
  match Bytes.dropStart? (utf8 spelling) layout with
  | none => none
  | some rest =>
      match field with
      | .shortMonth => if startsLower rest then none else some (field, 3)
      | .shortWeekday => if startsLower rest then none else some (field, 3)
      | .spaceDay =>
          if (utf8 "006").isPrefixOf rest then none else some (field, 2)
      | _ => some (field, (utf8 spelling).length)

/-- The fraction that a layout begins with: a point or comma and a run of `0` or of `9` that no
digit follows. -/
def fraction? : Bytes → Option (TimeField × Nat)
  | separator :: first :: rest =>
      if (separator == 46 || separator == 44) && (first == 48 || first == 57) then
        let (run, after) := (first :: rest).span (· == first)
        match after with
        | next :: _ =>
            if 48 ≤ next && next ≤ 57 then none
            else some (.fraction separator run.length (first == 57), run.length + 1)
        | [] => some (.fraction separator run.length (first == 57), run.length + 1)
      else none
  | _ => none

def first? (layout : Bytes) : Option (TimeField × Nat) :=
  match spellings.findSome? fun (spelling, field) => spelled? layout spelling field with
  | some found => some found
  | none => fraction? layout

end TimeField

/-- A time as the layout writes it; `skip` bytes belong to a field already written. -/
def formatFrom (t : Timestamp) : (skip : Nat) → Bytes → Bytes
  | _, [] => []
  | skip + 1, _ :: rest => formatFrom t skip rest
  | 0, byte :: rest =>
      match TimeField.first? (byte :: rest) with
      | some (field, size) => field.text t ++ formatFrom t (size - 1) rest
      | none => byte :: formatFrom t 0 rest

namespace Timestamp

def format (t : Timestamp) (layout : Bytes) : Bytes := formatFrom t 0 layout

def secondsLayout : Bytes := utf8 "2006-01-02T15:04:05Z07:00"

def preciseLayout : Bytes := utf8 "2006-01-02T15:04:05.999999999Z07:00"

def millisLayout : Bytes := utf8 "2006-01-02T15:04:05.000Z07:00"

def text (t : Timestamp) : Bytes := t.format (utf8 "2006-01-02 15:04:05.999999999 -0700 MST")

def namedLayouts : List (String × String) :=
  [("rfc3339", "2006-01-02T15:04:05Z07:00"),
    ("rfc3339nano", "2006-01-02T15:04:05.999999999Z07:00"),
    ("ansic", "Mon Jan _2 15:04:05 2006"),
    ("unixdate", "Mon Jan _2 15:04:05 MST 2006"),
    ("rubydate", "Mon Jan 02 15:04:05 -0700 2006"),
    ("rfc822", "02 Jan 06 15:04 MST"),
    ("rfc822z", "02 Jan 06 15:04 -0700"),
    ("rfc850", "Monday, 02-Jan-06 15:04:05 MST"),
    ("kitchen", "3:04PM"),
    ("stamp", "Jan _2 15:04:05"),
    ("datetime", "2006-01-02 15:04:05"),
    ("none", ""),
    ("stampmilli", "Jan _2 15:04:05.000"),
    ("ms", "Jan _2 15:04:05.000"),
    ("stampmicro", "Jan _2 15:04:05.000000"),
    ("us", "Jan _2 15:04:05.000000"),
    ("stampnano", "Jan _2 15:04:05.000000000"),
    ("ns", "Jan _2 15:04:05.000000000")]

/-- The lower case of a character, where that is a letter of ASCII. The dotted capital i and the
sign for kelvin have one too. -/
def lowerAscii (c : Char) : Char := if c = 'İ' then 'i' else if c = 'K' then 'k' else c.toLower

/-- The letters and digits of ASCII in a layout, by which the named layouts are found. -/
def layoutKey (layout : Bytes) : String :=
  String.ofList (((Utf8.chars layout).map lowerAscii).filter fun c => c.isLower || c.isDigit)

/-- The layout that a setting asks for: the named one, or the setting itself; none if it is
blank. -/
def layout? (setting : Bytes) : Option Bytes :=
  let layout := match namedLayouts.lookup (layoutKey setting) with
    | some layout => utf8 layout
    | none => setting
  if (trim layout).isEmpty then none else some layout

end Timestamp

end Inlay.Log
