/-! # TOML strings

The four kinds of string. Basic strings have escapes and literal strings have none; both have a form
over several lines, in which a line end right after the opening quotes is dropped and up to two
quotes may stand right before the closing ones. Control characters other than the tab are not
allowed, apart from line ends in the long forms.

Each reader starts after the opening quotes and answers the content and what follows the closing
quotes. -/

namespace ImportMigration.Toml

/-- Whether a character may stand in a string or a comment as it is. -/
def isPlain (c : Char) : Bool :=
  c == '\t' || (32 ≤ c.toNat && c.toNat != 127)

/-- A blank inside a line. -/
def isSpace (c : Char) : Bool := c == ' ' || c == '\t'

/-- The value of a hexadecimal digit. -/
def hexValue? (c : Char) : Option Nat :=
  if c.isDigit then some (c.toNat - 48)
  else if 'a' ≤ c && c ≤ 'f' then some (c.toNat - 87)
  else if 'A' ≤ c && c ≤ 'F' then some (c.toNat - 55)
  else none

/-- The character with a hexadecimal number, if it is one. -/
def charOfHex? (digits : List Char) : Option Char :=
  match digits.mapM hexValue? with
  | none => none
  | some values =>
    let n := values.foldl (fun n d => 16 * n + d) 0
    if n.isValidChar then some (Char.ofNat n) else none

/-- The character of a one-letter escape. -/
def escaped? : Char → Option Char
  | 'b' => some (Char.ofNat 8)
  | 't' => some '\t'
  | 'n' => some '\n'
  | 'f' => some (Char.ofNat 12)
  | 'r' => some '\r'
  | 'e' => some (Char.ofNat 27)
  | '"' => some '"'
  | '\\' => some '\\'
  | _ => none

/-- A result with characters in front of its content. -/
def prepend (front : List Char) (result : Option (List Char × List Char)) :
    Option (List Char × List Char) :=
  result.map fun (content, rest) => (front ++ content, rest)

/-- A result with the character of an escape, if it is one, in front of its content. -/
def prependChar? (c? : Option Char) (result : Option (List Char × List Char)) :
    Option (List Char × List Char) :=
  match c? with
  | none => none
  | some c => prepend [c] result

/-- Reads a basic string on one line. -/
def readBasic? : List Char → Option (List Char × List Char)
  | [] => none
  | '"' :: rest => some ([], rest)
  | '\\' :: 'x' :: a :: b :: rest => prependChar? (charOfHex? [a, b]) (readBasic? rest)
  | '\\' :: 'u' :: a :: b :: c :: d :: rest =>
    prependChar? (charOfHex? [a, b, c, d]) (readBasic? rest)
  | '\\' :: 'U' :: a :: b :: c :: d :: e :: f :: g :: h :: rest =>
    prependChar? (charOfHex? [a, b, c, d, e, f, g, h]) (readBasic? rest)
  | '\\' :: c :: rest => prependChar? (escaped? c) (readBasic? rest)
  | c :: rest => if isPlain c then prepend [c] (readBasic? rest) else none

/-- Reads a literal string on one line. -/
def readLiteral? : List Char → Option (List Char × List Char)
  | [] => none
  | '\'' :: rest => some ([], rest)
  | c :: rest => if isPlain c then prepend [c] (readLiteral? rest) else none

/-- Where a reader of a long basic string stands with regard to a backslash at a line's end, which
takes the line end and all blanks after it away. -/
inductive Fold where
  /-- Not after such a backslash. -/
  | none
  /-- Between the backslash and the line end. -/
  | beforeEnd
  /-- In the blanks after the line end. -/
  | afterEnd
deriving DecidableEq

/-- Reads a basic string over several lines. -/
def readLongBasic? (fold : Fold) : List Char → Option (List Char × List Char)
  | [] => none
  | '\r' :: '\n' :: rest =>
    if fold = .none then prepend ['\r', '\n'] (readLongBasic? .none rest)
    else readLongBasic? .afterEnd rest
  | '\n' :: rest =>
    if fold = .none then prepend ['\n'] (readLongBasic? .none rest)
    else readLongBasic? .afterEnd rest
  | c :: rest =>
    if fold ≠ .none && isSpace c then readLongBasic? fold rest
    else if fold = .beforeEnd then none
    else
      match c, rest with
      -- Of a run of quotes the last three close the string.
      | '"', '"' :: '"' :: '"' :: '"' :: rest => some (['"', '"'], rest)
      | '"', '"' :: '"' :: '"' :: rest => some (['"'], rest)
      | '"', '"' :: '"' :: rest => some ([], rest)
      | '\\', 'x' :: a :: b :: rest =>
        prependChar? (charOfHex? [a, b]) (readLongBasic? .none rest)
      | '\\', 'u' :: a :: b :: c :: d :: rest =>
        prependChar? (charOfHex? [a, b, c, d]) (readLongBasic? .none rest)
      | '\\', 'U' :: a :: b :: c :: d :: e :: f :: g :: h :: rest =>
        prependChar? (charOfHex? [a, b, c, d, e, f, g, h]) (readLongBasic? .none rest)
      | '\\', c :: after =>
        if isSpace c || c == '\n' || c == '\r' then readLongBasic? .beforeEnd (c :: after)
        else prependChar? (escaped? c) (readLongBasic? .none after)
      | c, rest => if isPlain c then prepend [c] (readLongBasic? .none rest) else none

/-- Reads a literal string over several lines. -/
def readLongLiteral? : List Char → Option (List Char × List Char)
  | [] => none
  | '\'' :: '\'' :: '\'' :: '\'' :: '\'' :: rest => some (['\'', '\''], rest)
  | '\'' :: '\'' :: '\'' :: '\'' :: rest => some (['\''], rest)
  | '\'' :: '\'' :: '\'' :: rest => some ([], rest)
  | '\r' :: '\n' :: rest => prepend ['\r', '\n'] (readLongLiteral? rest)
  | c :: rest =>
    if c = '\n' || isPlain c then prepend [c] (readLongLiteral? rest) else none

/-- A text without a line end at its start. -/
def dropLineEnd : List Char → List Char
  | '\r' :: '\n' :: rest => rest
  | '\n' :: rest => rest
  | rest => rest

/-- Reads a string of any kind, starting at its opening quotes. -/
def readString? : List Char → Option (String × List Char)
  | '"' :: '"' :: '"' :: rest => finish (readLongBasic? .none (dropLineEnd rest))
  | '"' :: rest => finish (readBasic? rest)
  | '\'' :: '\'' :: '\'' :: rest => finish (readLongLiteral? (dropLineEnd rest))
  | '\'' :: rest => finish (readLiteral? rest)
  | _ => none
where
  /-- The content as a string. -/
  finish (result : Option (List Char × List Char)) : Option (String × List Char) :=
    result.map fun (content, rest) => (String.ofList content, rest)

end ImportMigration.Toml
