import ImportMigration.Text.Blank

/-! # Words and lines of a text

Texts are handled as lists of characters.

* `trim`: a text without the blanks at its two ends.
* `words`: the maximal runs of characters that are not blank.
* `lines`: the lines of a text. A line ends at a line feed, which takes one carriage return right
  before it along; a lone carriage return ends nothing, and the text after the last line feed is a
  line only when it is not empty.
* `Newline`: the line end a text is written back with. -/

namespace ImportMigration.Text

/-- A text without its leading blanks. -/
def trimStart (s : List Char) : List Char := s.dropWhile isBlank

/-- A text without its trailing blanks. -/
def trimEnd (s : List Char) : List Char := (s.reverse.dropWhile isBlank).reverse

/-- A text without the blanks at its ends. -/
def trim (s : List Char) : List Char := trimEnd (trimStart s)

/-- The words of a text, in order: what stands between blanks, empty pieces left out. -/
def words (s : List Char) : List (List Char) :=
  (s.splitOnP isBlank).filter (!·.isEmpty)

/-- The lines of a text, without their line ends. -/
def lines : List Char → List (List Char)
  | [] => []
  | '\n' :: rest => [] :: lines rest
  | '\r' :: '\n' :: rest => [] :: lines rest
  | c :: rest =>
    match lines rest with
    | [] => [[c]]
    | l :: ls => (c :: l) :: ls

/-- Whether the second text starts with the first. -/
def startsWith (start s : List Char) : Bool := start.isPrefixOf s

/-- What follows `start` in a text that starts with it. -/
def dropStart? : List Char → List Char → Option (List Char)
  | [], s => some s
  | a :: start, b :: s => if a = b then dropStart? start s else none
  | _ :: _, [] => none

/-- A line end. -/
inductive Newline where
  /-- A line feed. -/
  | feed
  /-- A carriage return and a line feed. -/
  | returnFeed
deriving DecidableEq

/-- The characters of a line end. -/
def Newline.chars : Newline → List Char
  | .feed => ['\n']
  | .returnFeed => ['\r', '\n']

/-- Whether a carriage return stands right before a line feed somewhere in the text. -/
def hasReturnFeed : List Char → Bool
  | [] => false
  | '\r' :: '\n' :: _ => true
  | _ :: rest => hasReturnFeed rest

/-- The line end of a text: carriage return and line feed as soon as one line ends so. -/
def newlineOf (s : List Char) : Newline := if hasReturnFeed s then .returnFeed else .feed

/-- Whether the last character of a text is a line feed. -/
def endsWithFeed (s : List Char) : Bool := s.getLast? == some '\n'

/-- Lines joined by a line end, with one more after the last line when `closed`. -/
def unlines (newline : Newline) (closed : Bool) (ls : List (List Char)) : List Char :=
  newline.chars.intercalate ls ++ if closed then newline.chars else []

end ImportMigration.Text
