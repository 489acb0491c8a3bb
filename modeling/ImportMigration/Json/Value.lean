/-! # JSON values

* `JsonValue`: a value. A number is kept as written in decimal: an integer over a power of ten.
* `JsonValue.count`, `JsonValue.count?`: counts, which are unsigned 64-bit integers.
* `JsonValue.record?`: the fields of a record, which is written as an object and may also be read
  from the list of its fields' values.
* `JsonValue.variant?`: the name of a variant without content. -/

namespace ImportMigration

/-- A JSON value. -/
inductive JsonValue where
  /-- The null value. -/
  | null
  /-- A truth value. -/
  | bool (value : Bool)
  /-- The number `mantissa / 10 ^ places`. -/
  | num (mantissa : Int) (places : Nat)
  /-- A string. -/
  | str (value : String)
  /-- A list. -/
  | arr (items : List JsonValue)
  /-- An object, its members in order. -/
  | obj (members : List (String × JsonValue))
deriving Inhabited

namespace JsonValue

/-- The bound that every count lies below. -/
def countBound : Nat := UInt64.size

/-- A count as a number. -/
def count (n : Nat) : JsonValue := .num n 0

/-- The count that a value is, if it is one. -/
def count? : JsonValue → Option Nat
  | .num (.ofNat n) 0 => if n < countBound then some n else none
  | _ => none

/-- The text that a value is, if it is one. -/
def str? : JsonValue → Option String
  | .str value => some value
  | _ => none

/-- The truth value that a value is, if it is one. -/
def bool? : JsonValue → Option Bool
  | .bool value => some value
  | _ => none

/-- The items of a list. -/
def arr? : JsonValue → Option (List JsonValue)
  | .arr items => some items
  | _ => none

/-- Looks up the fields of a record with these field names: in an object by name, in a list by
position. Members of other names are ignored; a list may end early but not be too long. -/
def record? (names : List String) : JsonValue → Option (String → Option JsonValue)
  | .obj members => some fun name => members.lookup name
  | .arr items =>
    if items.length ≤ names.length then some fun name => (names.zip items).lookup name else none
  | _ => none

/-- The name of a variant without content: a string, or an object that maps it to null. -/
def variant? : JsonValue → Option String
  | .str name => some name
  | .obj [(name, .null)] => some name
  | _ => none

/-- Reads an optional field: missing and null are nothing, anything else must be readable. -/
def optional? {α : Type} (read : JsonValue → Option α) : Option JsonValue → Option (Option α)
  | none => some none
  | some .null => some none
  | some value => (read value).map some

/-- Reads a list field that defaults to the empty list when it is missing. -/
def listOrEmpty? {α : Type} (read : JsonValue → Option α) : Option JsonValue → Option (List α)
  | none => some []
  | some value => value.arr?.bind (·.mapM read)

/-- A member that is left out when there is nothing to write. -/
def member? (name : String) : Option JsonValue → List (String × JsonValue)
  | none => []
  | some value => [(name, value)]

end JsonValue

end ImportMigration
