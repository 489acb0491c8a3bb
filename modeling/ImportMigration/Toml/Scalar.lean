import ImportMigration.Toml.Table

/-! # TOML numbers, truth values, dates and times

Words that are no strings. They are checked, and only truth values are kept.

* `Toml.integer?`, `Toml.float?`: decimal, hexadecimal, octal and binary integers, and floating
  point numbers. An underscore may stand between two digits. The answer tells whether the number
  can be represented: integers in 128 bits, floating point numbers in 64.
* `Toml.looksDecimal`: words that are taken for integers although they have none as their value.
* `Toml.isDateTime`: dates, times, and both with or without an offset. The seconds of a time may
  be left out.
* `Toml.readWord?`: the value of a word. -/

namespace ImportMigration.Toml

/-- Splits a text at the first of some characters. -/
def cutAt (isCut : Char → Bool) (s : List Char) : List Char × List Char :=
  (s.takeWhile (!isCut ·), s.dropWhile (!isCut ·))

/-- The digits of a number without the underscores between them; none if an underscore does not
stand between two digits. -/
def digits? (isDigit : Char → Bool) : List Char → Option (List Char)
  | [] => none
  | [c] => if isDigit c then some [c] else none
  | c :: '_' :: rest => if isDigit c then (digits? isDigit rest).map (c :: ·) else none
  | c :: rest => if isDigit c then (digits? isDigit rest).map (c :: ·) else none

/-- The value of digits of a base. -/
def valueOf (base : Nat) (digits : List Char) : Nat :=
  let digit (c : Char) : Nat :=
    if c.isDigit then c.toNat - 48 else (c.toLower.toNat - 97) + 10
  digits.foldl (fun n c => base * n + digit c) 0

/-- The digits of a decimal integer without a sign: no zero in front of another digit. -/
def decimal? (s : List Char) : Option (List Char) :=
  match digits? Char.isDigit s with
  | some ('0' :: _ :: _) => none
  | other => other

/-- A text without a sign in front, and whether the sign is a minus. -/
def dropSign : List Char → Bool × List Char
  | '+' :: rest => (false, rest)
  | '-' :: rest => (true, rest)
  | rest => (false, rest)

/-- A digit of a hexadecimal number. -/
def isHexDigit (c : Char) : Bool :=
  c.isDigit || ('a' ≤ c && c ≤ 'f') || ('A' ≤ c && c ≤ 'F')

/-- Whether every underscore stands between two hexadecimal digits, `afterDigit` telling whether
the text follows one. -/
def separatesDigits (afterDigit : Bool) : List Char → Bool
  | [] => true
  | '_' :: rest => afterDigit && rest.head?.any isHexDigit && separatesDigits false rest
  | c :: rest => separatesDigits (isHexDigit c) rest

/-- Whether a word is taken for a decimal integer by its shape: a sign, digits without a zero in
front, and an underscore. What follows the underscore need not be digits, but no mark of a floating
point number is among it, and every underscore stands between hexadecimal digits. -/
def looksDecimal (s : List Char) : Bool :=
  let (_, unsigned) := dropSign s
  let (front, rest) := cutAt (!·.isDigit) unsigned
  !front.isEmpty && front.head? != some '0' && rest.head? == some '_' &&
    rest.all (fun c => c != '.' && c != 'e' && c != 'E') && separatesDigits false unsigned

/-- The first number that does not fit into so many bits. -/
def bitBound (bits : Nat) : Nat := Nat.pow 2 bits

/-- Whether a word that is taken for an integer has a value, and one between `-2 ^ 127` and
`2 ^ 128`; none if the word is not taken for an integer. The mark of a base without digits, and a
word that only looks decimal, have no value. -/
def integer? (s : List Char) : Option Bool :=
  let small (base : Nat) (isDigit : Char → Bool) (rest : List Char) : Option Bool :=
    if rest.isEmpty then some false
    else (digits? isDigit rest).map fun ds => decide (valueOf base ds < bitBound 128)
  match s with
  | '0' :: 'x' :: rest => small 16 isHexDigit rest
  | '0' :: 'o' :: rest => small 8 (fun c => '0' ≤ c && c ≤ '7') rest
  | '0' :: 'b' :: rest => small 2 (fun c => c == '0' || c == '1') rest
  | _ =>
    let (negative, rest) := dropSign s
    match decimal? rest with
    | some ds =>
      if negative then some (valueOf 10 ds ≤ bitBound 127)
      else some (valueOf 10 ds < bitBound 128)
    | none => if looksDecimal s then some false else none

/-- The first number that is rounded up to infinity: it lies halfway between the greatest finite
number of 64 bits and the next power of two. -/
def floatBound : Nat := bitBound 1024 - bitBound 970

/-- Whether `mantissa * 10 ^ exponent` is rounded to a finite number of 64 bits. -/
def isFinite (mantissa : Nat) (exponent : Int) : Bool :=
  let size : Int := (toString mantissa).length + exponent
  -- Only numbers near the limit are compared with it exactly.
  if mantissa = 0 || size < 300 then true
  else if 310 < size then false
  else if 0 ≤ exponent then mantissa * Nat.pow 10 exponent.toNat < floatBound
  else mantissa < floatBound * Nat.pow 10 exponent.natAbs

/-- The value of an exponent after its mark: a sign and digits. -/
def exponent? (s : List Char) : Option Int :=
  let (negative, rest) := dropSign s
  (digits? Char.isDigit rest).map fun ds =>
    let n : Int := valueOf 10 ds
    if negative then -n else n

/-- Whether a word that is a floating point number is finite or says that it is not; none if the
word is no floating point number. -/
def float? (s : List Char) : Option Bool :=
  let (_, unsigned) := dropSign s
  if unsigned = ['i', 'n', 'f'] || unsigned = ['n', 'a', 'n'] then some true
  else
    let (whole, rest) := cutAt (fun c => c == '.' || c == 'e' || c == 'E') unsigned
    let check (fraction : List Char) (exponent : Int) : Option Bool :=
      (decimal? whole).map fun ds =>
        isFinite (valueOf 10 (ds ++ fraction)) (exponent - fraction.length)
    match rest with
    | '.' :: rest =>
      let (fraction, rest) := cutAt (fun c => c == 'e' || c == 'E') rest
      match digits? Char.isDigit fraction, rest with
      | some fraction, [] => check fraction 0
      | some fraction, _ :: rest => (exponent? rest).bind (check fraction)
      | none, _ => none
    | _ :: rest => (exponent? rest).bind (check [])
    | [] => none

/-- The number that exactly two digits write. -/
def pair? : List Char → Option (Nat × List Char)
  | a :: b :: rest =>
    if a.isDigit && b.isDigit then some (valueOf 10 [a, b], rest) else none
  | _ => none

/-- What follows a date, if the text starts with one of the calendar. -/
def dropDate? : List Char → Option (List Char)
  | a :: b :: c :: d :: '-' :: rest => do
    if !([a, b, c, d].all Char.isDigit) then none
    let year := valueOf 10 [a, b, c, d]
    let (month, rest) ← pair? rest
    let rest ← match rest with
      | '-' :: rest => some rest
      | _ => none
    let (day, rest) ← pair? rest
    let leap := year % 4 == 0 && (year % 100 != 0 || year % 400 == 0)
    let last := match month with
      | 2 => if leap then 29 else 28
      | 4 | 6 | 9 | 11 => 30
      | _ => 31
    if 1 ≤ month && month ≤ 12 && 1 ≤ day && day ≤ last then some rest else none
  | _ => none

/-- What follows the seconds of a time, with or without a fraction. -/
def dropSeconds? (s : List Char) : Option (List Char) := do
  let (second, rest) ← pair? s
  if 60 < second then none
  match rest with
  | '.' :: rest =>
    if (rest.takeWhile Char.isDigit).isEmpty then none else some (rest.dropWhile Char.isDigit)
  | rest => some rest

/-- What follows a time of day, with or without its seconds, if the text starts with one. -/
def dropTime? (s : List Char) : Option (List Char) := do
  let (hour, rest) ← pair? s
  let rest ← match rest with
    | ':' :: rest => some rest
    | _ => none
  let (minute, rest) ← pair? rest
  if 24 ≤ hour || 60 ≤ minute then none
  match rest with
  | ':' :: rest => dropSeconds? rest
  | rest => some rest

/-- Whether a text is an offset from UTC, or nothing. -/
def isOffset : List Char → Bool
  | [] => true
  | ['Z'] => true
  | ['z'] => true
  | sign :: rest =>
    (sign == '+' || sign == '-') &&
      match pair? rest with
      | some (hour, ':' :: rest) =>
        match pair? rest with
        | some (minute, []) => hour < 24 && minute < 60
        | _ => false
      | _ => false

/-- Whether a text is a time of day without an offset. -/
def isLocalTime (s : List Char) : Bool := dropTime? s == some []

/-- Whether a text is a time of day with or without an offset. -/
def isTime (s : List Char) : Bool :=
  match dropTime? s with
  | some rest => isOffset rest
  | none => false

/-- Whether a word is a date, a time, or both. -/
def isDateTime (s : List Char) : Bool :=
  match dropDate? s with
  | some [] => true
  | some (mark :: rest) => (mark == 'T' || mark == 't' || mark == ' ') && isTime rest
  | none => isLocalTime s

/-- The value of a word that is no string. -/
def readWord? (word : List Char) : Option TomlValue :=
  if word = "true".toList then some (.flag true)
  else if word = "false".toList then some (.flag false)
  else if isDateTime word then some .moment
  else ((integer? word).or (float? word)).map .number

end ImportMigration.Toml
