import ImportMigration.Json.Value
import ImportMigration.Timestamp

/-! # Reports

The machine-readable outcome of a migration run, and its JSON form.

* `Report` and its parts: which tool ran when, the merged directive blocks, the counts, and the
  files whose imports changed.
* `Report.toJson`, `Report.ofJson?`: writing and reading. Unknown members are ignored; version, end
  of the run and backup path are left out when there is none, and may be missing or null; missing
  lists are empty. -/

namespace ImportMigration

/-- The name of the report format. -/
def reportSchema : String := "pkgmove.report.v1"

/-- The tool that ran. -/
structure ToolInfo where
  /-- Its name. -/
  name : String
  /-- Its version. -/
  version : Option String
deriving DecidableEq

/-- When the tool ran. -/
structure RunInfo where
  /-- The start of the run. -/
  startedAt : Timestamp
  /-- The end of the run. -/
  endedAt : Option Timestamp
deriving DecidableEq

/-- A directive block that was merged. -/
structure BlockSummary where
  /-- Where the block came from. -/
  origin : String
  /-- The number of its directives. -/
  directives : Nat
deriving DecidableEq

/-- The counts of a run. -/
structure RunSummary where
  /-- The size of the merged directive table. -/
  directives : Nat
  /-- The files that were read. -/
  filesScanned : Nat
  /-- The files whose imports change. -/
  filesChanged : Nat
  /-- The files that were written. -/
  filesWritten : Nat
deriving DecidableEq

/-- Whether a change was written. -/
inductive FileStatus where
  /-- The file was written. -/
  | written
  /-- The file would be written by a run that applies. -/
  | pending
deriving DecidableEq

/-- The outcome for a file whose imports change. -/
structure FileResult where
  /-- The path of the file. -/
  path : String
  /-- Whether it was written. -/
  status : FileStatus
  /-- The number of imports before. -/
  importsBefore : Nat
  /-- The number of imports after. -/
  importsAfter : Nat
  /-- The copy of the file before the change. -/
  backupPath : Option String
deriving DecidableEq

/-- The outcome of a run. -/
structure Report where
  /-- The name of the report format. -/
  schema : String
  /-- The tool that ran. -/
  tool : ToolInfo
  /-- When it ran. -/
  run : RunInfo
  /-- Whether the run was to write nothing. -/
  dryRun : Bool
  /-- The merged blocks in merge order. -/
  sources : List BlockSummary
  /-- The counts. -/
  summary : RunSummary
  /-- The files whose imports change, in scan order. -/
  files : List FileResult
deriving DecidableEq

/-! ## Writing -/

/-- The JSON form of a tool. -/
def ToolInfo.toJson (t : ToolInfo) : JsonValue :=
  .obj (("name", .str t.name) :: JsonValue.member? "version" (t.version.map .str))

/-- The JSON form of a timestamp. -/
def Timestamp.toJson (t : Timestamp) : JsonValue := .str t.text

/-- The JSON form of the times of a run. -/
def RunInfo.toJson (r : RunInfo) : JsonValue :=
  .obj (("started_at", r.startedAt.toJson) ::
    JsonValue.member? "ended_at" (r.endedAt.map Timestamp.toJson))

/-- The JSON form of a merged block. -/
def BlockSummary.toJson (b : BlockSummary) : JsonValue :=
  .obj [("origin", .str b.origin), ("directives", .count b.directives)]

/-- The JSON form of the counts. -/
def RunSummary.toJson (s : RunSummary) : JsonValue :=
  .obj [("directives", .count s.directives), ("files_scanned", .count s.filesScanned),
    ("files_changed", .count s.filesChanged), ("files_written", .count s.filesWritten)]

/-- The name of a status. -/
def FileStatus.name : FileStatus → String
  | .written => "rewritten"
  | .pending => "pending"

/-- The JSON form of a file's outcome. -/
def FileResult.toJson (f : FileResult) : JsonValue :=
  .obj ([("path", .str f.path), ("status", .str f.status.name),
    ("imports_before", .count f.importsBefore), ("imports_after", .count f.importsAfter)] ++
    JsonValue.member? "backup_path" (f.backupPath.map .str))

/-- The JSON form of a report. -/
def Report.toJson (r : Report) : JsonValue :=
  .obj [("schema", .str r.schema), ("tool", r.tool.toJson), ("run", r.run.toJson),
    ("dry_run", .bool r.dryRun), ("sources", .arr (r.sources.map (·.toJson))),
    ("summary", r.summary.toJson), ("files", .arr (r.files.map (·.toJson)))]

/-! ## Reading -/

/-- Reads a tool. -/
def ToolInfo.ofJson? (v : JsonValue) : Option ToolInfo := do
  let field ← v.record? ["name", "version"]
  let name ← (field "name").bind (·.str?)
  let version ← JsonValue.optional? (·.str?) (field "version")
  return { name, version }

/-- Reads a timestamp. -/
def Timestamp.ofJson? (v : JsonValue) : Option Timestamp := v.str?.bind Timestamp.parse?

/-- Reads the times of a run. -/
def RunInfo.ofJson? (v : JsonValue) : Option RunInfo := do
  let field ← v.record? ["started_at", "ended_at"]
  let startedAt ← (field "started_at").bind Timestamp.ofJson?
  let endedAt ← JsonValue.optional? Timestamp.ofJson? (field "ended_at")
  return { startedAt, endedAt }

/-- Reads a merged block. -/
def BlockSummary.ofJson? (v : JsonValue) : Option BlockSummary := do
  let field ← v.record? ["origin", "directives"]
  let origin ← (field "origin").bind (·.str?)
  let directives ← (field "directives").bind (·.count?)
  return { origin, directives }

/-- Reads the counts. -/
def RunSummary.ofJson? (v : JsonValue) : Option RunSummary := do
  let field ← v.record? ["directives", "files_scanned", "files_changed", "files_written"]
  let directives ← (field "directives").bind (·.count?)
  let filesScanned ← (field "files_scanned").bind (·.count?)
  let filesChanged ← (field "files_changed").bind (·.count?)
  let filesWritten ← (field "files_written").bind (·.count?)
  return { directives, filesScanned, filesChanged, filesWritten }

/-- The status of a name. -/
def FileStatus.ofName? : String → Option FileStatus
  | "rewritten" => some .written
  | "pending" => some .pending
  | _ => none

/-- Reads a file's outcome. -/
def FileResult.ofJson? (v : JsonValue) : Option FileResult := do
  let field ← v.record? ["path", "status", "imports_before", "imports_after", "backup_path"]
  let path ← (field "path").bind (·.str?)
  let status ← ((field "status").bind (·.variant?)).bind FileStatus.ofName?
  let importsBefore ← (field "imports_before").bind (·.count?)
  let importsAfter ← (field "imports_after").bind (·.count?)
  let backupPath ← JsonValue.optional? (·.str?) (field "backup_path")
  return { path, status, importsBefore, importsAfter, backupPath }

/-- Reads a report. -/
def Report.ofJson? (v : JsonValue) : Option Report := do
  let field ← v.record? ["schema", "tool", "run", "dry_run", "sources", "summary", "files"]
  let schema ← (field "schema").bind (·.str?)
  let tool ← (field "tool").bind ToolInfo.ofJson?
  let run ← (field "run").bind RunInfo.ofJson?
  let dryRun ← (field "dry_run").bind (·.bool?)
  let sources ← JsonValue.listOrEmpty? BlockSummary.ofJson? (field "sources")
  let summary ← (field "summary").bind RunSummary.ofJson?
  let files ← JsonValue.listOrEmpty? FileResult.ofJson? (field "files")
  return { schema, tool, run, dryRun, sources, summary, files }

end ImportMigration
