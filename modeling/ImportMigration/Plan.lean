import ImportMigration.Failure
import ImportMigration.Patch.Text
import ImportMigration.Report
import ImportMigration.Settings
import ImportMigration.Tree

/-! # Plans

A migration is computed in memory before anything is written. The plan holds the files whose imports
change, with their texts before and after.

* `Tree.planFile`, `Tree.planFiles`: the plan for a file and for a list of files. A file that cannot
  be read or has a bad import line fails the whole plan.
* `Plan.patch`: the preview.
* `Plan.writes`: the writes that carry a plan out, one file after the other, the copy of a file
  right before the file.
* `Tree.perform`: carries writes out in order, up to the first that fails; those before it stay.
* `Tree.applyPlan`: carries a plan out, unless the run is to write nothing. -/

namespace ImportMigration

/-- A file whose imports change. -/
structure PlannedFile where
  /-- The path, relative to the repository root where the file lies below it. -/
  path : Path
  /-- The text before. -/
  before : String
  /-- The text after. -/
  after : String
  /-- The number of imports before. -/
  importsBefore : Nat
  /-- The number of imports after. -/
  importsAfter : Nat
deriving DecidableEq

/-- The changes of a migration. -/
structure Plan where
  /-- The number of files that were read. -/
  filesScanned : Nat
  /-- The files that change, in scan order. -/
  changes : List PlannedFile
deriving DecidableEq

/-- The path of a file as a plan shows it: without the repository root, if it starts with it. -/
def Path.withoutRoot (repoRoot p : Path) : Path := (p.relativeTo? repoRoot).getD p

/-- The plan for a file that is read at one path and shown by another. -/
def Tree.planAt (t : Tree) (table : DirectiveTable) (absolute shown : Path) :
    Except MigrationError (Option PlannedFile) :=
  match t.readText? absolute with
  | none => .error (.failed (.read absolute))
  | some before =>
    match table.reviseText before with
    | .error fault => .error (.malformedImport shown fault)
    | .ok none => .ok none
    | .ok (some revised) =>
      .ok (some { path := shown, before, after := revised.content,
                  importsBefore := revised.importsBefore, importsAfter := revised.importsAfter })

/-- The plan for one file. -/
def Tree.planFile (t : Tree) (repoRoot : Path) (table : DirectiveTable) (file : Path) :
    Except MigrationError (Option PlannedFile) :=
  let absolute := repoRoot.resolve file
  t.planAt table absolute (repoRoot.withoutRoot absolute)

/-- The plan for a list of files, in order, from what each file gives. -/
def Plan.ofFiles (planFile : Path → Except MigrationError (Option PlannedFile)) :
    List Path → Except MigrationError Plan
  | [] => .ok { filesScanned := 0, changes := [] }
  | file :: rest =>
    match planFile file with
    | .error fault => .error fault
    | .ok change =>
      match ofFiles planFile rest with
      | .error fault => .error fault
      | .ok plan =>
        .ok { filesScanned := plan.filesScanned + 1, changes := change.toList ++ plan.changes }

/-- The plan for the files of a tree. -/
def Tree.planFiles (t : Tree) (repoRoot : Path) (table : DirectiveTable) (files : List Path) :
    Except MigrationError Plan :=
  Plan.ofFiles (t.planFile repoRoot table) files

/-- The preview of a plan: the sections of its files one after the other. -/
def Plan.patch (p : Plan) : String :=
  String.join (p.changes.map fun c => Patch.filePatch c.path.text c.before c.after)

/-- A text to be written to a file. -/
structure FileWrite where
  /-- The path of the file. -/
  path : Path
  /-- Its new text. -/
  text : String
deriving DecidableEq

/-- The writes for one file: its copy, if backups are made, and then the file. -/
def PlannedFile.writes (repoRoot : Path) (backupSuffix : Option String) (c : PlannedFile) :
    List FileWrite :=
  let absolute := repoRoot.resolve c.path
  let copy := match backupSuffix with
    | none => []
    | some suffix => [⟨absolute.append suffix, c.before⟩]
  copy ++ [⟨absolute, c.after⟩]

/-- The writes of a plan in order. -/
def Plan.writes (repoRoot : Path) (backupSuffix : Option String) (p : Plan) : List FileWrite :=
  p.changes.flatMap (·.writes repoRoot backupSuffix)

/-- The tree after writes in order, and the first that failed, after which nothing is written. -/
def Tree.perform (t : Tree) : List FileWrite → Tree × Option Failure
  | [] => (t, none)
  | w :: rest =>
    match t.writeText? w.path w.text with
    | none => (t, some (.write w.path))
    | some t => t.perform rest

/-- The outcome for a file that is written. -/
def PlannedFile.writtenResult (backupSuffix : Option String) (c : PlannedFile) : FileResult :=
  { path := c.path.text, status := .written, importsBefore := c.importsBefore,
    importsAfter := c.importsAfter, backupPath := backupSuffix.map (c.path.text ++ ·) }

/-- The outcome for a file that would be written. -/
def PlannedFile.pendingResult (c : PlannedFile) : FileResult :=
  { path := c.path.text, status := .pending, importsBefore := c.importsBefore,
    importsAfter := c.importsAfter, backupPath := none }

/-- Carries a plan out; a dry run leaves the tree as it is and reports every change as pending. -/
def Tree.applyPlan (t : Tree) (repoRoot : Path) (dryRun : Bool) (backupSuffix : Option String)
    (plan : Plan) : Tree × Except Failure (List FileResult) :=
  if dryRun then (t, .ok (plan.changes.map (·.pendingResult)))
  else
    match t.perform (plan.writes repoRoot backupSuffix) with
    | (t, some failure) => (t, .error failure)
    | (t, none) => (t, .ok (plan.changes.map (·.writtenResult backupSuffix)))

end ImportMigration
