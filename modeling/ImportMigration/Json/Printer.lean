import ImportMigration.Json.Value

/-! # JSON text

Values are written over several lines, indented by two spaces a level; empty lists and objects stay
on one line. In strings only the quote, the backslash and control characters are escaped.

* `JsonValue.quote`: a string literal.
* `JsonValue.pretty`: a value. -/

namespace ImportMigration.JsonValue

/-- A hexadecimal digit in lower case. -/
def hexDigit (n : Nat) : Char := ("0123456789abcdef".toList)[n]?.getD '0'

/-- A character inside a string literal. -/
def escapeChar (c : Char) : List Char :=
  match c with
  | '"' => ['\\', '"']
  | '\\' => ['\\', '\\']
  | '\n' => ['\\', 'n']
  | '\r' => ['\\', 'r']
  | '\t' => ['\\', 't']
  | _ =>
    let n := c.toNat
    if n = 8 then ['\\', 'b']
    else if n = 12 then ['\\', 'f']
    else if n < 32 then ['\\', 'u', '0', '0', hexDigit (n / 16), hexDigit (n % 16)]
    else [c]

/-- A string literal. -/
def quote (s : String) : String :=
  "\"" ++ String.ofList (s.toList.flatMap escapeChar) ++ "\""

/-- A number: its integer, with an exponent where it has decimal places. -/
def numberText (mantissa : Int) (places : Nat) : String :=
  if places = 0 then toString mantissa else toString mantissa ++ "e-" ++ toString places

/-- The start of a line at a level. -/
def indent (level : Nat) : String := String.ofList (List.replicate (2 * level) ' ')

/-- Lines between brackets, the closing one at a level; nothing between them if there are none. -/
def enclose (opening closing : String) (level : Nat) (lines : List String) : String :=
  if lines.isEmpty then opening ++ closing
  else opening ++ "\n" ++ ",\n".intercalate lines ++ "\n" ++ indent level ++ closing

mutual

/-- The text of a value that starts at a level. -/
def prettyAt (level : Nat) : JsonValue → String
  | .null => "null"
  | .bool value => if value then "true" else "false"
  | .num mantissa places => numberText mantissa places
  | .str value => quote value
  | .arr items => enclose "[" "]" level (itemLines (level + 1) items)
  | .obj members => enclose "\x7b" "\x7d" level (memberLines (level + 1) members)

/-- The lines of a list's items at a level. -/
def itemLines (level : Nat) : List JsonValue → List String
  | [] => []
  | item :: rest => (indent level ++ prettyAt level item) :: itemLines level rest

/-- The lines of an object's members at a level. -/
def memberLines (level : Nat) : List (String × JsonValue) → List String
  | [] => []
  | (name, value) :: rest =>
    (indent level ++ quote name ++ ": " ++ prettyAt level value) :: memberLines level rest

end

/-- The text of a value. -/
def pretty (value : JsonValue) : String := prettyAt 0 value

end ImportMigration.JsonValue
