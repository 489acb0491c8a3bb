import ImportMigration.ImportSpec.Basic
import ImportMigration.Text.Lines
import ImportMigration.Text.Lowercase

/-! # Reading import specs

A spec is a qualified name, optionally followed by `as` and a local name, with blanks around and
between the three words. The name is cut at its dots. Its leading segments that start with a
lowercase character are the package, the last segment is the element unless it is `*`, and the
segments between are the owners; when every segment starts in lowercase, the package ends before
the last one.

* `ImportSpec.ofSegments?`: the split of a segment list into package, owners and element.
* `ImportSpec.readLocalName`: what may follow the qualified name.
* `ImportSpec.parse`: the reader. A fault after the name is reported before one in the name. -/

namespace ImportMigration

/-- Whether a segment starts with a lowercase character. -/
def startsLowercase (segment : String) : Bool :=
  match segment.toList with
  | [] => false
  | c :: _ => Text.isLowercase c

namespace ImportSpec

/-- The spec with these segments and no local name, if a segment is left for the package. The
segments are not empty and only the last of them may be `*`. -/
def ofSegments? (segments : List String) : Option ImportSpec :=
  let isWildcard := segments.getLast? == some "*"
  let names := if isWildcard then segments.dropLast else segments
  let lower := names.takeWhile startsLowercase
  let upper := names.dropWhile startsLowercase
  if lower.isEmpty then none
  else if isWildcard then
    some { package := ".".intercalate lower, owners := upper, element := none, localName := none }
  else if !upper.isEmpty then
    some { package := ".".intercalate lower, owners := upper.dropLast,
           element := upper.getLast?, localName := none }
  -- Every segment starts in lowercase, so the last one is taken for the element.
  else if lower.dropLast.isEmpty then none
  else
    some { package := ".".intercalate lower.dropLast, owners := [],
           element := lower.getLast?, localName := none }

/-- The faults of what follows a qualified name. -/
inductive TailError where
  /-- It does not start with the word `as` and a blank. -/
  | notLocalName
  /-- What follows `as` is not one word. -/
  | notOneWord

/-- Reads what follows the first blank after a qualified name: `as` and one word. -/
def readLocalName (rest : List Char) : Except TailError String :=
  match Text.trim rest with
  | 'a' :: 's' :: c :: name =>
    if Text.isBlank c then
      let name := Text.trim (c :: name)
      if name.isEmpty || name.any Text.isBlank then .error .notOneWord
      else .ok (String.ofList name)
    else .error .notLocalName
  | _ => .error .notLocalName

/-- The fault of a segment list that is no qualified name, `text` being where it was found. -/
def segmentFault? (text : String) (segments : List String) : Option SpecError :=
  if segments.any (· == "") then some (.emptySegment text)
  else if segments.dropLast.any (· == "*") then some (.misplacedWildcard text)
  else none

/-- Reads a qualified name, `text` being the whole spec it stands in. -/
def readName (text : String) (name : List Char) : Except SpecError ImportSpec :=
  let segments := (name.splitOn '.').map String.ofList
  match segmentFault? text segments with
  | some fault => .error fault
  | none =>
    match ofSegments? segments with
    | none => .error (.missingPackage text)
    | some spec => .ok spec

/-- Reads an import spec. Blanks around it are ignored. -/
def parse (source : String) : Except SpecError ImportSpec :=
  let trimmed := Text.trim source.toList
  let text := String.ofList trimmed
  if trimmed.isEmpty then .error .empty
  else
    let name := trimmed.takeWhile (!Text.isBlank ·)
    match trimmed.dropWhile (!Text.isBlank ·) with
    | [] => readName text name
    -- The first blank ends the name; what follows is judged before the name is.
    | _ :: rest =>
      match readLocalName rest with
      | .error .notLocalName => .error (.unexpectedText text)
      | .error .notOneWord => .error (.invalidLocalName text)
      | .ok localName =>
        match readName text name with
        | .error fault => .error fault
        | .ok spec => .ok { spec with localName := some localName }

end ImportSpec

end ImportMigration
