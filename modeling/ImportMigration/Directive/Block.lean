import ImportMigration.Directive.Basic

/-! # Blocks of directives

A block is a text with one directive a line and the name of the place it came from. Blank lines and
lines that start with `//` are skipped; the first line that cannot be read fails the whole block.

* `DirectiveBlock.parse`: the directives of a block in order.
* `BlockError`: the fault of a line, with its place. -/

namespace ImportMigration

/-- Directive text and the place it came from. -/
structure DirectiveBlock where
  /-- The path of a resource, or `DirectiveBlock.additionalOrigin`. -/
  origin : String
  /-- The text, one directive a line. -/
  text : String
deriving DecidableEq

/-- The origin of directive text that the user gives. -/
def DirectiveBlock.additionalOrigin : String := "<additional>"

/-- A line of a block that is no directive. -/
structure BlockError where
  /-- The origin of the block. -/
  origin : String
  /-- The number of the line, counted from one over all lines. -/
  lineNumber : Nat
  /-- The line without the blanks at its ends. -/
  line : String
  /-- What is wrong with it. -/
  cause : SpecError
deriving DecidableEq

/-- The wording of a block's fault. -/
def BlockError.message (e : BlockError) : String :=
  e.origin ++ ":" ++ toString e.lineNumber ++ ": invalid directive `" ++ e.line ++ "`"

namespace DirectiveBlock

/-- Whether a trimmed line is blank or a comment. -/
def isSkipped (line : List Char) : Bool := line.isEmpty || Text.startsWith ['/', '/'] line

/-- Reads numbered lines in order, up to the first fault. -/
def readLines (origin : String) : List (List Char × Nat) → Except BlockError (List Directive)
  | [] => .ok []
  | (raw, index) :: rest =>
    let line := Text.trim raw
    if isSkipped line then readLines origin rest
    else
      match Directive.parse (String.ofList line) with
      | .error cause =>
        .error { origin, lineNumber := index + 1, line := String.ofList line, cause }
      | .ok directive =>
        match readLines origin rest with
        | .error fault => .error fault
        | .ok directives => .ok (directive :: directives)

/-- The directives of a block in order, or the fault of its first bad line. -/
def parse (block : DirectiveBlock) : Except BlockError (List Directive) :=
  readLines block.origin (Text.lines block.text.toList).zipIdx

end DirectiveBlock

end ImportMigration
