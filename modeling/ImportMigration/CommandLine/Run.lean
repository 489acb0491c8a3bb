import ImportMigration.CommandLine.Options
import ImportMigration.Config
import ImportMigration.Directive.Json
import ImportMigration.Migration

/-! # Running the program

What the program does on a tree for given arguments: its output, its exit code and the tree it
leaves.

* `DirectiveOptions.texts`: the directive texts of the command line, the file's before the text.
* `DirectiveOptions.settings`: the settings of a run, or why a file with settings cannot be used.
* `Tree.runMigrate`, `Tree.runDirectives`: the two commands.
* `Tree.runProgram`: the program. Arguments that are not understood and malformed input end it with
  code two, every other failure with code one, and a failure prints nothing. -/

namespace ImportMigration

/-- The name of the program. -/
def programName : String := "pkgmove"

/-- The version of the program. -/
def programVersion : String := "0.1.0"

/-- What is printed when help is asked for. -/
def usageText : String :=
  "Usage: " ++ programName ++ " migrate [--repo-root <PATH>] [--directive-root <PATH>]... " ++
    "[--additional <TEXT>] [--additional-file <PATH>] [--source-dir <DIR>]... [--ext <EXT>]... " ++
    "[--apply] [--backup] [--report <PATH>]\n       " ++ programName ++
    " directives [--repo-root <PATH>] [--directive-root <PATH>]... [--additional <TEXT>] " ++
    "[--additional-file <PATH>] [--format <text|json>]\n"

/-- What a run of the program leaves. -/
structure ProgramResult where
  /-- The tree afterwards. -/
  tree : Tree
  /-- What it printed. -/
  output : String
  /-- What it said about a failure. -/
  diagnostic : String
  /-- How it ended. -/
  exitCode : Nat

/-- A run that ended with an exit code and printed nothing. -/
def ProgramResult.failure (tree : Tree) (exitCode : Nat) (diagnostic : String) : ProgramResult :=
  { tree, output := "", diagnostic, exitCode }

/-- A run that succeeded. -/
def ProgramResult.success (tree : Tree) (output : String) : ProgramResult :=
  { tree, output, diagnostic := "", exitCode := 0 }

/-- Why the settings of a run cannot be made out. -/
inductive SettingsError where
  /-- The file with directive text is no readable text. -/
  | additionalFile (path : Path)
  /-- The configuration cannot be used. -/
  | config (fault : ConfigError)
deriving DecidableEq

/-- The wording of a fault in the settings. -/
def SettingsError.message : SettingsError → String
  | .additionalFile path => "read " ++ path.text
  | .config fault => fault.message

/-- The directive texts of the command line in merge order. -/
def DirectiveOptions.texts (o : DirectiveOptions) (t : Tree) :
    Except SettingsError (List String) :=
  match o.additionalFile with
  | none => .ok o.additional.toList
  | some path =>
    match t.readText? path with
    | none => .error (.additionalFile path)
    | some text => .ok (text :: o.additional.toList)

/-- The settings of a run: the configuration file extended by the command line. -/
def DirectiveOptions.settings (o : DirectiveOptions) (t : Tree) (overrides : Overrides)
    (dryRun : Bool) : Except SettingsError Settings :=
  match o.texts t with
  | .error fault => .error fault
  | .ok texts =>
    match t.loadConfig o.repoRoot with
    | .error fault => .error (.config fault)
    | .ok config =>
      -- The command line comes last, so its directives win over the configured ones.
      let overrides := { overrides with additional := texts, directiveRoots := o.directiveRoots }
      .ok ((config.merge overrides).settings o.repoRoot dryRun)

/-- The settings of a migration. -/
def MigrateOptions.settings (o : MigrateOptions) (t : Tree) : Except SettingsError Settings :=
  let overrides : Overrides :=
    { sourceDirs := o.sourceDirs, extensions := o.extensions, backup := o.backup }
  o.directives.settings t overrides (!o.apply)

/-- The line of a directive in the text list. -/
def TableEntry.line (e : TableEntry) : String := e.directive.text ++ "  # " ++ e.origin ++ "\n"

/-- A directive in the JSON list. -/
def TableEntry.toJson (e : TableEntry) : JsonValue :=
  .obj (e.directive.members ++ [("origin", .str e.origin)])

/-- The list of a table's directives. -/
def DirectiveTable.listing (t : DirectiveTable) : ListFormat → String
  | .text => String.join (t.entries.map (·.line))
  | .json => (JsonValue.arr (t.entries.map (·.toJson))).pretty ++ "\n"

/-- What a migration prints: the preview of a dry run, or how many files were written. -/
def MigrationOutcome.output (o : MigrationOutcome) : String :=
  if o.report.dryRun then o.patch
  else
    programName ++ ": rewrote " ++ toString o.report.summary.filesWritten ++ " of " ++
      toString o.report.summary.filesScanned ++ " files\n"

namespace Tree

/-- The migration command. The report is written before anything is printed. -/
def runMigrate (t : Tree) (o : MigrateOptions) (run : RunInfo) : ProgramResult :=
  match o.settings t with
  | .error fault => .failure t 1 fault.message
  | .ok settings =>
    let tool : ToolInfo := { name := programName, version := some programVersion }
    match t.migrate settings .resources tool run with
    | (t, .error fault) => .failure t fault.exitCode fault.message
    | (t, .ok outcome) =>
      match o.report with
      | none => .success t outcome.output
      | some path =>
        match t.writeReport outcome.report path with
        | (t, .error failure) => .failure t 1 failure.message
        | (t, .ok _) => .success t outcome.output

/-- The command that lists the merged directives. -/
def runDirectives (t : Tree) (o : DirectiveOptions) (format : ListFormat) : ProgramResult :=
  match o.settings t {} true with
  | .error fault => .failure t 1 fault.message
  | .ok settings =>
    match t.mergedDirectives settings .resources with
    | .error fault => .failure t fault.exitCode fault.message
    | .ok merged => .success t (merged.table.listing format)

/-- The program on a tree, at a given time. -/
def runProgram (t : Tree) (arguments : List String) (run : RunInfo) : ProgramResult :=
  match readRequest arguments with
  | .error .usage => .failure t 2 usageText
  | .error .help => .success t usageText
  | .ok .help => .success t usageText
  | .ok .version => .success t (programName ++ " " ++ programVersion ++ "\n")
  | .ok (.run (.migrate options)) => t.runMigrate options run
  | .ok (.run (.directives options format)) => t.runDirectives options format

end Tree

end ImportMigration
