/-! # TOML values and tables

The values a configuration document can hold, and how its statements build up tables.

* `TomlValue`: a value. Numbers, dates and times are told apart from the rest but not kept; of a
  number it is known whether it can be represented.
* `TomlValue.isReadable`: whether every number in a value can be represented.
* `TableOrigin`: how a table came to be, which decides what may still be added to it: a table with a
  header is complete with the statements below it, one that a longer header implied can still get
  its own header, one made by dotted keys can be extended by dotted keys only, and an inline table
  not at all.
* `Toml.assign?`, `Toml.openTable?`, `Toml.openTableItem?`: the three kinds of statement. They fail
  where a key or a table would be defined twice. -/

namespace ImportMigration

/-- How a table was defined. -/
inductive TableOrigin where
  /-- By its own header, or as the root. -/
  | header
  /-- By the header of a table below it. -/
  | implied
  /-- By a dotted key. -/
  | dotted
  /-- Inline, as a value. -/
  | inline
deriving DecidableEq

/-- A value of a configuration document. -/
inductive TomlValue where
  /-- A string. -/
  | text (value : String)
  /-- A truth value. -/
  | flag (value : Bool)
  /-- A number, and whether it is small enough to be represented. -/
  | number (fits : Bool)
  /-- A date, a time, or both. -/
  | moment
  /-- A list written as a value. -/
  | list (items : List TomlValue)
  /-- A table. -/
  | table (origin : TableOrigin) (entries : List (String × TomlValue))
  /-- A list of tables, each with a header. -/
  | tables (items : List TomlValue)
deriving Inhabited

mutual

/-- Whether every number in a value can be represented. -/
def TomlValue.isReadable : TomlValue → Bool
  | .number fits => fits
  | .list items => allReadable items
  | .tables items => allReadable items
  | .table _ entries => entriesReadable entries
  | .text _ => true
  | .flag _ => true
  | .moment => true

/-- Whether all values of a list are readable. -/
def allReadable : List TomlValue → Bool
  | [] => true
  | value :: rest => value.isReadable && allReadable rest

/-- Whether the values of all entries are readable. -/
def entriesReadable : List (String × TomlValue) → Bool
  | [] => true
  | (_, value) :: rest => value.isReadable && entriesReadable rest

end

namespace Toml

/-- The entries of a table. -/
abbrev Entries := List (String × TomlValue)

/-- Entries with another value for a key that is there. -/
def replace (key : String) (value : TomlValue) : Entries → Entries
  | [] => []
  | (k, v) :: rest => if k = key then (k, value) :: rest else (k, v) :: replace key value rest

/-- Applies a change to the table that a path leads to, which gets the table's origin and entries.
Tables on the way are made where they are missing. A path of dotted keys does not lead through
tables that have a header, and no path leads into inline tables. -/
def descend? (byDottedKey : Bool) (change : TableOrigin → Entries → Option Entries) :
    (path : List String) → TableOrigin → Entries → Option Entries
  | [], origin, entries => change origin entries
  | key :: path, _, entries =>
    match entries.lookup key with
    | none =>
      let origin := if byDottedKey then .dotted else .implied
      (descend? byDottedKey change path origin []).map fun below =>
        entries ++ [(key, .table origin below)]
    | some (.table origin below) =>
      if origin = .inline || (byDottedKey && origin = .header) then none
      else
        (descend? byDottedKey change path origin below).map fun below =>
          replace key (.table origin below) entries
    | some (.tables items) =>
      match items.getLast? with
      | some (.table origin below) =>
        (descend? byDottedKey change path origin below).map fun below =>
          replace key (.tables (items.dropLast ++ [.table origin below])) entries
      | _ => none
    | some _ => none

/-- Adds a key to a table, `isDotted` telling whether a dotted key leads there; tables made by
dotted keys are extended by dotted keys and by nothing else. -/
def addKey? (isDotted : Bool) (key : String) (value : TomlValue) (origin : TableOrigin)
    (entries : Entries) : Option Entries :=
  if decide (origin = .dotted) != isDotted then none
  else if (entries.lookup key).isSome then none
  else some (entries ++ [(key, value)])

/-- A key and a value in a table of the given origin. The key is not empty. -/
def assign? (keys : List String) (value : TomlValue) (origin : TableOrigin) (entries : Entries) :
    Option Entries :=
  match keys.getLast? with
  | none => none
  | some key =>
    descend? true (addKey? (1 < keys.length) key value) keys.dropLast origin entries

/-- The header of a table. -/
def openTable? (path : List String) (root : Entries) : Option Entries :=
  match path.getLast? with
  | none => none
  | some key =>
    let change (_ : TableOrigin) (entries : Entries) : Option Entries :=
      match entries.lookup key with
      | none => some (entries ++ [(key, .table .header [])])
      | some (.table .implied below) => some (replace key (.table .header below) entries)
      | some _ => none
    descend? false change path.dropLast .header root

/-- The header of an item in a list of tables. -/
def openTableItem? (path : List String) (root : Entries) : Option Entries :=
  match path.getLast? with
  | none => none
  | some key =>
    let item := TomlValue.table .header []
    let change (_ : TableOrigin) (entries : Entries) : Option Entries :=
      match entries.lookup key with
      | none => some (entries ++ [(key, .tables [item])])
      | some (.tables items) => some (replace key (.tables (items ++ [item])) entries)
      | some _ => none
    descend? false change path.dropLast .header root

/-- A key and a value below a header; the empty path is the part before the first header. -/
def assignBelow? (path keys : List String) (value : TomlValue) (root : Entries) :
    Option Entries :=
  descend? false (assign? keys value) path .header root

end Toml

end ImportMigration
