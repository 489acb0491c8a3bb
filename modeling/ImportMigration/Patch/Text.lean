import ImportMigration.Patch.Hunk
import ImportMigration.Text.Lines

/-! # Patch text

A diff of two texts in the unified format, as a preview of a change to a file.

* `terminatedLines`: the lines of a text with their line feeds, which is what the diff compares.
* `Hunk.text`: the header and the lines of a hunk. An empty context line has no sign, and a line
  without a line feed gets one and a remark.
* `filePatch`: the section of a file. Its lines end in line feeds alone, whatever ends the lines of
  the file. -/

namespace ImportMigration.Patch

/-- The lines of a text, each with the line feed that ends it; only the last may lack one. -/
def terminatedLines : List Char → List (List Char)
  | [] => []
  | '\n' :: rest => ['\n'] :: terminatedLines rest
  | c :: rest =>
    match terminatedLines rest with
    | [] => [[c]]
    | l :: ls => (c :: l) :: ls

/-- The remark after a line that no line feed ends. -/
def missingFeedRemark : List Char := "\n\\ No newline at end of file\n".toList

/-- A line behind its sign. -/
def signedLine (sign : Char) (line : List Char) : List Char :=
  sign :: line ++ if Text.endsWithFeed line then [] else missingFeedRemark

/-- A line of a hunk as it is written. -/
def HunkLine.text : HunkLine (List Char) → List Char
  | .context line => if line = ['\n'] then line else signedLine ' ' line
  | .removed line => signedLine '-' line
  | .added line => signedLine '+' line

/-- A range of a hunk's header: the first line, counted from one unless the range is empty, and the
number of lines unless it is one. -/
def rangeText (start length : Nat) : String :=
  let first := toString (if length = 0 then start else start + 1)
  if length = 1 then first else first ++ "," ++ toString length

/-- A hunk as it is written. -/
def Hunk.text (h : Hunk (List Char)) : List Char :=
  ("@@ -" ++ rangeText h.oldStart h.oldLength ++ " +" ++ rangeText h.newStart h.newLength ++
    " @@\n").toList ++ h.lines.flatMap (·.text)

/-- The section of a patch that turns one text of a file into another. -/
def filePatch (path before after : String) : String :=
  let body := (diff (terminatedLines before.toList) (terminatedLines after.toList)).flatMap
    (·.text)
  "diff --git a/" ++ path ++ " b/" ++ path ++ "\n--- a/" ++ path ++ "\n+++ b/" ++ path ++ "\n" ++
    String.ofList ((Text.lines body).flatMap (· ++ ['\n']))

end ImportMigration.Patch
