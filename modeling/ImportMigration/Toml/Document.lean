import ImportMigration.Toml.Quoted
import ImportMigration.Toml.Scalar

/-! # TOML documents

A document is a sequence of lines: blank lines and comments, table headers, and keys with values.
Lists and inline tables may run over several lines, with comments, and may end in a comma.

* `Toml.readKey?`: a dotted key, with a bound on the number of its parts.
* `Toml.readValue?`: a value, with a bound on how deep lists and inline tables are nested.
* `Toml.parse?`: the root table of a document. -/

namespace ImportMigration.Toml

/-- A text without the blanks at its start. -/
def skipSpaces (s : List Char) : List Char := s.dropWhile isSpace

/-- What follows the rest of a line: blanks, perhaps a comment, and a line end or the end of the
text. -/
def endLine? (s : List Char) : Option (List Char) :=
  let s := skipSpaces s
  let s := if s.head? == some '#' then s.dropWhile isPlain else s
  match s with
  | [] => some []
  | '\n' :: rest => some rest
  | '\r' :: '\n' :: rest => some rest
  | _ => none

/-- Skips blanks, line ends and comments, `inComment` telling whether the text starts in one. A
carriage return counts only right before a line feed. -/
def skipFrom? (inComment : Bool) : List Char → Option (List Char)
  | [] => some []
  | c :: rest =>
    if c = '\n' then skipFrom? false rest
    else if c = '\r' && rest.head? == some '\n' then skipFrom? false rest
    else if inComment then if isPlain c then skipFrom? true rest else none
    else if isSpace c then skipFrom? false rest
    else if c = '#' then skipFrom? true rest
    else some (c :: rest)

/-- Skips blanks, line ends and comments. -/
def skipLines? (s : List Char) : Option (List Char) := skipFrom? false s

/-- Whether a character may stand in a key without quotes. -/
def isBareKey (c : Char) : Bool := c.isAlphanum || c == '_' || c == '-'

/-- Reads a key without dots. -/
def readSimpleKey? (s : List Char) : Option (String × List Char) :=
  match s with
  | '"' :: rest => (readBasic? rest).map fun (key, rest) => (String.ofList key, rest)
  | '\'' :: rest => (readLiteral? rest).map fun (key, rest) => (String.ofList key, rest)
  | _ =>
    let key := s.takeWhile isBareKey
    if key.isEmpty then none else some (String.ofList key, s.drop key.length)

/-- How deep lists and inline tables may be nested, and how many parts a key may have. -/
def nestingLimit : Nat := 80

/-- Reads a dotted key of at most so many parts, and the blanks around them. -/
def readParts? : (limit : Nat) → List Char → Option (List String × List Char)
  | 0, _ => none
  | limit + 1, s =>
    match readSimpleKey? (skipSpaces s) with
    | none => none
    | some (key, rest) =>
      match skipSpaces rest with
      | '.' :: rest => (readParts? limit rest).map fun (keys, rest) => (key :: keys, rest)
      | rest => some ([key], rest)

/-- Reads a dotted key and the blanks around its parts. -/
def readKey? (s : List Char) : Option (List String × List Char) := readParts? nestingLimit s

/-- Reads the items of a list up to its closing bracket; the fuel bounds their number. -/
def readItems? (readItem? : List Char → Option (TomlValue × List Char)) :
    (fuel : Nat) → List Char → Option (List TomlValue × List Char)
  | 0, _ => none
  | fuel + 1, s =>
    match skipLines? s with
    | some (']' :: rest) => some ([], rest)
    | some s =>
      match readItem? s with
      | none => none
      | some (item, rest) =>
        match skipLines? rest with
        | some (',' :: rest) =>
          (readItems? readItem? fuel rest).map fun (items, rest) => (item :: items, rest)
        | some (']' :: rest) => some ([item], rest)
        | _ => none
    | none => none

/-- Reads a key and its value inside an inline table, where the line may end on both sides of the
equals sign. -/
def readMember? (readItem? : List Char → Option (TomlValue × List Char)) (s : List Char) :
    Option (List String × TomlValue × List Char) :=
  match readKey? s with
  | none => none
  | some (keys, rest) =>
    match skipLines? rest with
    | some ('=' :: rest) =>
      (skipLines? rest).bind fun rest =>
        (readItem? rest).map fun (value, rest) => (keys, value, rest)
    | _ => none

/-- Reads the members of an inline table up to its closing brace; the fuel bounds their number. -/
def readMembers? (readItem? : List Char → Option (TomlValue × List Char)) :
    (fuel : Nat) → Entries → List Char → Option (Entries × List Char)
  | 0, _, _ => none
  | fuel + 1, entries, s =>
    match skipLines? s with
    | none => none
    | some ('}' :: rest) => some (entries, rest)
    | some s =>
      match readMember? readItem? s with
      | none => none
      | some (keys, value, rest) =>
        match assign? keys value .inline entries, skipLines? rest with
        | some entries, some (',' :: rest) => readMembers? readItem? fuel entries rest
        | some entries, some ('}' :: rest) => some (entries, rest)
        | _, _ => none

/-- Whether a character ends a word that is no string. -/
def endsWord (c : Char) : Bool :=
  isSpace c || c == '\n' || c == '\r' || c == '#' || c == ',' || c == '=' ||
    c == '[' || c == ']' || c == '{' || c == '}'

/-- Reads a word that is no string. A date may be followed by one space and a time. -/
def readScalar? (s : List Char) : Option (TomlValue × List Char) :=
  let (word, rest) := cutAt endsWord s
  match dropDate? word, rest with
  | some [], ' ' :: c :: more =>
    if c.isDigit then
      let (time, rest) := cutAt endsWord (c :: more)
      (readWord? (word ++ ' ' :: time)).map fun value => (value, rest)
    else (readWord? word).map fun value => (value, rest)
  | _, _ => (readWord? word).map fun value => (value, rest)

/-- Reads a value in which lists and inline tables are nested at most `depth` deep and have fewer
than `size` items. -/
def readValue? (size : Nat) : (depth : Nat) → List Char → Option (TomlValue × List Char)
  | 0, s =>
    match s with
    | '"' :: _ | '\'' :: _ => (readString? s).map fun (text, rest) => (.text text, rest)
    | _ => readScalar? s
  | depth + 1, s =>
    match s with
    | '"' :: _ | '\'' :: _ => (readString? s).map fun (text, rest) => (.text text, rest)
    | '[' :: rest =>
      (readItems? (readValue? size depth) size rest).map fun (items, rest) =>
        (.list items, rest)
    | '{' :: rest =>
      (readMembers? (readValue? size depth) size [] rest).map fun (entries, rest) =>
        (.table .inline entries, rest)
    | _ => readScalar? s

/-- A document read so far: the root table, and the path of the table whose lines are read. -/
structure Progress where
  /-- The entries of the root table. -/
  root : Entries
  /-- The path of the last header. -/
  path : List String

/-- Reads one statement of a document of fewer than `size` characters. It does not start with a
blank or a comment. -/
def readStatement? (size : Nat) (progress : Progress) (s : List Char) :
    Option (Progress × List Char) :=
  match s with
  | '[' :: '[' :: rest =>
    match readKey? rest with
    | some (keys, ']' :: ']' :: rest) =>
      match openTableItem? keys progress.root, endLine? rest with
      | some root, some rest => some (⟨root, keys⟩, rest)
      | _, _ => none
    | _ => none
  | '[' :: rest =>
    match readKey? rest with
    | some (keys, ']' :: rest) =>
      match openTable? keys progress.root, endLine? rest with
      | some root, some rest => some (⟨root, keys⟩, rest)
      | _, _ => none
    | _ => none
  | _ =>
    match readKey? s with
    | some (keys, '=' :: rest) =>
      match readValue? size nestingLimit (skipSpaces rest) with
      | none => none
      | some (value, rest) =>
        match assignBelow? progress.path keys value progress.root, endLine? rest with
        | some root, some rest => some ({ progress with root }, rest)
        | _, _ => none
    | _ => none

/-- Reads statements up to the end; the fuel bounds their number. -/
def readStatements? (size : Nat) : (fuel : Nat) → Progress → List Char → Option Entries
  | 0, _, _ => none
  | fuel + 1, progress, s =>
    match skipLines? s with
    | none => none
    | some [] => some progress.root
    | some s =>
      match readStatement? size progress s with
      | none => none
      | some (progress, rest) => readStatements? size fuel progress rest

/-- The root table of a document, which may start with a byte order mark. -/
def parse? (source : String) : Option Entries :=
  let s := match source.toList with
    | '\uFEFF' :: rest => rest
    | s => s
  let size := s.length + 1
  readStatements? size size ⟨[], []⟩ s

end ImportMigration.Toml
