import ImportMigration.Repair

/-! # Revising source files

The import lines of a file are collected, repaired together and put where the first of them stood.

* `importText?`: the spec text of an import line, which is a line that starts with `import ` once
  the blanks at its ends are gone.
* `reviseLines`: the lines of a file. What precedes the first import line stays in front, and all
  other lines keep their order behind the imports.
* `reviseText`: a whole file, whose line end and final line end are kept. Both answer `none` when
  the imports stay as they are. -/

namespace ImportMigration

/-- An import line that cannot be read. -/
structure ImportError where
  /-- The number of the line, counted from one. -/
  lineNumber : Nat
  /-- The line as it stands in the file. -/
  line : String
  /-- What is wrong with it. -/
  cause : SpecError
deriving DecidableEq

/-- The wording of an import line's fault. -/
def ImportError.message (e : ImportError) : String :=
  "line " ++ toString e.lineNumber ++ ": invalid import `" ++ e.line ++ "`"

/-- A file with its imports repaired, and the number of imports before and after. -/
structure Revision (α : Type) where
  /-- The new lines or the new text. -/
  content : α
  /-- The number of import lines before. -/
  importsBefore : Nat
  /-- The number of import lines after. -/
  importsAfter : Nat
deriving DecidableEq

/-- What an import line starts with. -/
def importKeyword : List Char := "import ".toList

/-- The text after `import ` of an import line. -/
def importText? (line : String) : Option String :=
  (Text.dropStart? importKeyword (Text.trim line.toList)).map String.ofList

/-- Whether a line is an import line. -/
def isImportLine (line : String) : Bool := (importText? line).isSome

/-- The line that imports a spec. -/
def importLine (spec : ImportSpec) : String := String.ofList importKeyword ++ spec.text

/-- The imports and the other lines of numbered lines, each in order, up to the first fault. -/
def collectImports : List (String × Nat) → Except ImportError (List ImportSpec × List String)
  | [] => .ok ([], [])
  | (line, index) :: rest =>
    match importText? line with
    | none =>
      match collectImports rest with
      | .error fault => .error fault
      | .ok (specs, others) => .ok (specs, line :: others)
    | some text =>
      match ImportSpec.parse text with
      | .error cause => .error { lineNumber := index + 1, line, cause }
      | .ok spec =>
        match collectImports rest with
        | .error fault => .error fault
        | .ok (specs, others) => .ok (spec :: specs, others)

namespace DirectiveTable

/-- Repairs the imports of a file given by its lines. -/
def reviseLines (t : DirectiveTable) (lines : List String) :
    Except ImportError (Option (Revision (List String))) :=
  let prologue := lines.takeWhile (!isImportLine ·)
  match collectImports (lines.zipIdx.drop prologue.length) with
  | .error fault => .error fault
  | .ok (specs, epilogue) =>
    let repaired := t.repairAll specs
    -- Lines are left alone unless the list of imports itself changes.
    if repaired = specs then .ok none
    else
      .ok (some { content := prologue ++ repaired.map importLine ++ epilogue,
                  importsBefore := specs.length, importsAfter := repaired.length })

/-- Repairs the imports of a file given by its text. -/
def reviseText (t : DirectiveTable) (text : String) :
    Except ImportError (Option (Revision String)) :=
  let chars := text.toList
  match t.reviseLines ((Text.lines chars).map String.ofList) with
  | .error fault => .error fault
  | .ok none => .ok none
  | .ok (some revised) =>
    let joined := Text.unlines (Text.newlineOf chars) (Text.endsWithFeed chars)
      (revised.content.map String.toList)
    .ok (some { revised with content := String.ofList joined })

end DirectiveTable

end ImportMigration
