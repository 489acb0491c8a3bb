import ImportMigration.Text.Lines

/-! # Timestamps

A moment in UTC, by its calendar date and its time of day down to the nanosecond. The second 60 is
a leap second.

* `Timestamp.text`: the RFC 3339 form with `Z`, with none, three, six or nine digits of the second's
  fraction, the fewest that say all. Years outside `0 … 9999` have a sign.
* `Timestamp.parse?`: reads RFC 3339 with an offset. Blanks may stand between the numbers, the date
  and the time may be divided by a space, single digits are read, and `UTC` stands for `Z`.
* `Timestamp.ofEpoch`: the moment a number of seconds after the start of 1970. -/

namespace ImportMigration

/-- A moment in UTC. -/
structure Timestamp where
  /-- The year. -/
  year : Int
  /-- The month, from 1 to 12. -/
  month : Nat
  /-- The day of the month, from 1. -/
  day : Nat
  /-- The hour, below 24. -/
  hour : Nat
  /-- The minute, below 60. -/
  minute : Nat
  /-- The second, at most 60. -/
  second : Nat
  /-- The nanosecond, below a thousand million. -/
  nanosecond : Nat
deriving DecidableEq

namespace Timestamp

/-! ## The calendar -/

/-- Whether a year of the Gregorian calendar has a 29th of February. -/
def isLeapYear (year : Int) : Bool := year % 4 == 0 && (year % 100 != 0 || year % 400 == 0)

/-- The number of days of a month. -/
def daysInMonth (year : Int) (month : Nat) : Nat :=
  match month with
  | 2 => if isLeapYear year then 29 else 28
  | 4 | 6 | 9 | 11 => 30
  | _ => 31

/-- The first year that can be read. -/
def firstYear : Int := -262143

/-- The last year that can be read. -/
def lastYear : Int := 262142

/-- Whether a date is in the calendar, between the first and the last year. -/
def isDate (year : Int) (month day : Nat) : Bool :=
  firstYear ≤ year && year ≤ lastYear && 1 ≤ month && month ≤ 12 && 1 ≤ day &&
    day ≤ daysInMonth year month

/-- The date a day earlier. -/
def previousDay (year : Int) (month day : Nat) : Int × Nat × Nat :=
  if 1 < day then (year, month, day - 1)
  else if 1 < month then (year, month - 1, daysInMonth year (month - 1))
  else (year - 1, 12, 31)

/-- The date a day later. -/
def nextDay (year : Int) (month day : Nat) : Int × Nat × Nat :=
  if day < daysInMonth year month then (year, month, day + 1)
  else if month < 12 then (year, month + 1, 1)
  else (year + 1, 1, 1)

/-! ## Writing -/

/-- A number with at least so many digits. -/
def padded (width n : Nat) : String :=
  let digits := toString n
  String.ofList (List.replicate (width - digits.length) '0') ++ digits

/-- The year, with a sign unless it has four digits. -/
def yearText (year : Int) : String :=
  if 0 ≤ year && year ≤ 9999 then padded 4 year.toNat
  else if year < 0 then "-" ++ padded 4 year.natAbs
  else "+" ++ padded 4 year.toNat

/-- The fraction of a second, in thousandths, millionths or as it is. -/
def fractionText (nanosecond : Nat) : String :=
  if nanosecond = 0 then ""
  else if nanosecond % 1000000 = 0 then "." ++ padded 3 (nanosecond / 1000000)
  else if nanosecond % 1000 = 0 then "." ++ padded 6 (nanosecond / 1000)
  else "." ++ padded 9 nanosecond

/-- The RFC 3339 form. -/
def text (t : Timestamp) : String :=
  yearText t.year ++ "-" ++ padded 2 t.month ++ "-" ++ padded 2 t.day ++ "T" ++
    padded 2 t.hour ++ ":" ++ padded 2 t.minute ++ ":" ++ padded 2 t.second ++
    fractionText t.nanosecond ++ "Z"

/-! ## Reading -/

/-- The value of decimal digits. -/
def digitsValue (digits : List Char) : Nat :=
  digits.foldl (fun n c => 10 * n + (c.toNat - 48)) 0

/-- Reads at least one and at most `width` digits. -/
def readDigits? (width : Nat) (s : List Char) : Option (Nat × List Char) :=
  let digits := (s.take width).takeWhile Char.isDigit
  if digits.isEmpty then none else some (digitsValue digits, s.drop digits.length)

/-- Reads a number of at most two digits after blanks. -/
def readPair? (s : List Char) : Option (Nat × List Char) := readDigits? 2 (Text.trimStart s)

/-- Reads a mark after blanks. -/
def readMark? (mark : Char) (s : List Char) : Option (List Char) :=
  match Text.trimStart s with
  | c :: rest => if c = mark then some rest else none
  | [] => none

/-- Reads a year after blanks: at most four digits, or any number of them after a sign. -/
def readYear? (s : List Char) : Option (Int × List Char) :=
  match Text.trimStart s with
  | '-' :: rest => (readDigits? rest.length rest).map fun (n, rest) => (-(n : Int), rest)
  | '+' :: rest => (readDigits? rest.length rest).map fun (n, rest) => ((n : Int), rest)
  | rest => (readDigits? 4 rest).map fun (n, rest) => ((n : Int), rest)

/-- Reads the fraction of a second, if there is one. Digits after the ninth are dropped. -/
def readFraction? : List Char → Option (Nat × List Char)
  | '.' :: rest =>
    match readDigits? 9 rest with
    | none => none
    | some (n, after) =>
      some (n * Nat.pow 10 (9 - (rest.length - after.length)), after.dropWhile Char.isDigit)
  | rest => some (0, rest)

/-- Whether a text starts with `UTC` in any case. -/
def startsWithUtc (s : List Char) : Bool := (s.take 3).map Char.toUpper == ['U', 'T', 'C']

/-- Reads the offset of local time from UTC in minutes: `Z`, `UTC`, or a sign, two digits of hours
and two of minutes with colons or blanks between. -/
def readOffset? (s : List Char) : Option (Int × List Char) :=
  if startsWithUtc s then some (0, s.drop 3)
  else
    match s with
    | [] => none
    | sign :: rest =>
      if sign = 'Z' || sign = 'z' then some (0, rest)
      else if sign = '+' || sign = '-' || sign = '−' then
        match rest with
        | h₁ :: h₂ :: rest =>
          match rest.dropWhile (fun c => c == ':' || Text.isBlank c) with
          | m₁ :: m₂ :: rest =>
            if [h₁, h₂, m₁, m₂].all Char.isDigit && m₁ < '6' then
              let minutes : Int := digitsValue [h₁, h₂] * 60 + digitsValue [m₁, m₂]
              some (if sign = '+' then minutes else -minutes, rest)
            else none
          | _ => none
        | _ => none
      else none

/-- The moment of a local date and time, if they exist and the offset is less than a day. -/
def ofLocal? (year : Int) (month day hour minute second nanosecond : Nat) (offset : Int) :
    Option Timestamp :=
  if !isDate year month day || 24 ≤ hour || 60 ≤ minute || 60 < second || 1440 ≤ offset.natAbs then
    none
  else
    let minutes : Int := hour * 60 + minute - offset
    let (year, month, day) :=
      if minutes < 0 then previousDay year month day
      else if 1440 ≤ minutes then nextDay year month day
      else (year, month, day)
    -- The offset is less than a day, so the date moves by one day at most.
    let inDay := (minutes % 1440).toNat
    if isDate year month day then
      some { year, month, day, hour := inDay / 60, minute := inDay % 60, second, nanosecond }
    else none

/-- Reads a timestamp. -/
def parse? (source : String) : Option Timestamp := do
  let (year, s) ← readYear? source.toList
  let s ← readMark? '-' s
  let (month, s) ← readPair? s
  let s ← readMark? '-' s
  let (day, s) ← readPair? s
  let s ← match s with
    | c :: rest => if c = 'T' || c = 't' || c = ' ' then some rest else none
    | [] => none
  let (hour, s) ← readPair? s
  let s ← readMark? ':' s
  let (minute, s) ← readPair? s
  let s ← readMark? ':' s
  let (second, s) ← readPair? s
  let (nanosecond, s) ← readFraction? s
  let (offset, s) ← readOffset? (Text.trimStart s)
  if (Text.trimStart s).isEmpty then
    ofLocal? year month day hour minute second nanosecond offset
  else none

/-! ## The clock -/

/-- The date a number of days after the first of March of the year 0, found through the cycle of
400 years, in which every fourth year is long except those at the end of three centuries. -/
def ofMarchDays (days : Nat) : Int × Nat × Nat :=
  let cycle := days / 146097
  let inCycle := days % 146097
  -- Leave out the long days of the cycle, so that every year has 365 days.
  let yearInCycle := (inCycle - inCycle / 1460 + inCycle / 36524 - inCycle / 146096) / 365
  let inYear := inCycle - (365 * yearInCycle + yearInCycle / 4 - yearInCycle / 100)
  -- From March on, five months have 153 days.
  let monthFromMarch := (5 * inYear + 2) / 153
  let day := inYear - (153 * monthFromMarch + 2) / 5 + 1
  let month := if monthFromMarch < 10 then monthFromMarch + 3 else monthFromMarch - 9
  let year := yearInCycle + cycle * 400 + if month ≤ 2 then 1 else 0
  (year, month, day)

/-- The moment so many seconds and nanoseconds after the start of 1970. -/
def ofEpoch (seconds nanosecond : Nat) : Timestamp :=
  let (year, month, day) := ofMarchDays (seconds / 86400 + 719468)
  let inDay := seconds % 86400
  { year, month, day, hour := inDay / 3600, minute := inDay % 3600 / 60, second := inDay % 60,
    nanosecond }

end Timestamp

end ImportMigration
