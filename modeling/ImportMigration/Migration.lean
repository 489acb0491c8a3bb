import ImportMigration.Discovery
import ImportMigration.Json.Printer
import ImportMigration.Plan

/-! # Migration runs

A run merges the directive blocks, lists the source files, plans their changes, carries the plan out
unless it is a dry run, and reports.

* `RunInputs`: what a run is handed from outside, its directive blocks and its source files.
* `DirectiveSupply`, `Tree.runInputs`: the inputs that a tree gives.
* `Tree.mergedDirectives`: the directive table of a run and the size of each block.
* `Tree.migrateFrom`: the whole run on any inputs. Whatever fails before the plan is carried out
  leaves the tree as it was.
* `Tree.migrate`: the run on the inputs that the tree itself gives.
* `Tree.writeReport`: writes a report to a file, in a directory that is made if need be. -/

namespace ImportMigration

/-- What a run is handed from outside. Each part is asked for once and may fail. -/
structure RunInputs where
  /-- The directive blocks in merge order. -/
  blocks : Except Failure (List DirectiveBlock)
  /-- The source files in scan order. -/
  files : Except Failure (List Path)

/-- Where directive blocks come from. -/
inductive DirectiveSupply where
  /-- From the resources below the directive roots of the settings. -/
  | resources
  /-- From memory, in merge order. -/
  | given (blocks : List DirectiveBlock)

/-- The directive table of a run and its blocks in merge order. -/
structure MergedDirectives where
  /-- The table. -/
  table : DirectiveTable
  /-- The blocks with the numbers of their directives. -/
  sources : List BlockSummary
deriving DecidableEq

/-- Merges blocks in order into a table, counting the directives of each. -/
def mergeBlocks (table : DirectiveTable) :
    List DirectiveBlock → Except BlockError MergedDirectives
  | [] => .ok { table, sources := [] }
  | block :: rest =>
    match table.merge block with
    | .error fault => .error fault
    | .ok (table, count) =>
      match mergeBlocks table rest with
      | .error fault => .error fault
      | .ok merged =>
        .ok { merged with
              sources := { origin := block.origin, directives := count } :: merged.sources }

/-- The block of the settings' directive text, if there is more to it than blanks. -/
def Settings.additionalBlock (s : Settings) : List DirectiveBlock :=
  if (Text.trim s.additional.toList).isEmpty then []
  else [{ origin := DirectiveBlock.additionalOrigin, text := s.additional }]

/-- The merged directives of the blocks a run is handed, the settings' own text last. -/
def Settings.mergeWithAdditional (s : Settings) (blocks : Except Failure (List DirectiveBlock)) :
    Except MigrationError MergedDirectives :=
  match blocks with
  | .error failure => .error (.failed failure)
  | .ok blocks =>
    match mergeBlocks .empty (blocks ++ s.additionalBlock) with
    | .error fault => .error (.malformedDirective fault)
    | .ok merged => .ok merged

/-- The suffix of backup files, if backups are made. -/
def Settings.backups (s : Settings) : Option String :=
  if s.backupEnabled then some s.backupSuffix else none

/-- The outcome of a run. -/
structure MigrationOutcome where
  /-- The planned changes. -/
  plan : Plan
  /-- Their preview. -/
  patch : String
  /-- The report. -/
  report : Report
deriving DecidableEq

namespace Tree

/-- The blocks that a supply hands to a run, in merge order. -/
def suppliedBlocks (t : Tree) (settings : Settings) :
    DirectiveSupply → Except Failure (List DirectiveBlock)
  | .given blocks => .ok blocks
  | .resources =>
    match t.directiveResources? settings.resolvedRoots with
    | none => .error .loadDirectives
    | some blocks => .ok blocks

/-- The source files that the settings tell where to find, in scan order. -/
def discoveredFiles (t : Tree) (settings : Settings) : Except Failure (List Path) :=
  match t.sourceFiles? settings.repoRoot settings.sourceDirs settings.extensions with
  | none => .error (.discover settings.repoRoot)
  | some files => .ok files

/-- What a tree hands to a run. -/
def runInputs (t : Tree) (settings : Settings) (supply : DirectiveSupply) : RunInputs :=
  { blocks := t.suppliedBlocks settings supply, files := t.discoveredFiles settings }

/-- The merged directives of a run. -/
def mergedDirectives (t : Tree) (settings : Settings) (supply : DirectiveSupply) :
    Except MigrationError MergedDirectives :=
  settings.mergeWithAdditional (t.suppliedBlocks settings supply)

/-- The plan of a run, with the directives it rests on. -/
def planRun (t : Tree) (settings : Settings) (inputs : RunInputs) :
    Except MigrationError (MergedDirectives × Plan) :=
  match settings.mergeWithAdditional inputs.blocks with
  | .error fault => .error fault
  | .ok merged =>
    match inputs.files with
    | .error failure => .error (.failed failure)
    | .ok files =>
      match t.planFiles settings.repoRoot merged.table files with
      | .error fault => .error fault
      | .ok plan => .ok (merged, plan)

/-- The report of a run that carried out a plan with these results. -/
def reportOf (settings : Settings) (tool : ToolInfo) (run : RunInfo) (merged : MergedDirectives)
    (plan : Plan) (results : List FileResult) : Report :=
  { schema := reportSchema, tool, run, dryRun := settings.dryRun, sources := merged.sources,
    summary := { directives := merged.table.size, filesScanned := plan.filesScanned,
                 filesChanged := plan.changes.length,
                 filesWritten := if settings.dryRun then 0 else results.length },
    files := results }

/-- Runs a migration on what it is handed: the tree afterwards, and the outcome. -/
def migrateFrom (t : Tree) (settings : Settings) (inputs : RunInputs) (tool : ToolInfo)
    (run : RunInfo) : Tree × Except MigrationError MigrationOutcome :=
  match t.planRun settings inputs with
  | .error fault => (t, .error fault)
  | .ok (merged, plan) =>
    -- Up to here nothing was written.
    match t.applyPlan settings.repoRoot settings.dryRun settings.backups plan with
    | (t, .error _) => (t, .error (.failed .applyPlan))
    | (t, .ok results) =>
      (t, .ok { plan, patch := plan.patch,
                report := reportOf settings tool run merged plan results })

/-- Runs a migration on what the tree itself hands to it. -/
def migrate (t : Tree) (settings : Settings) (supply : DirectiveSupply) (tool : ToolInfo)
    (run : RunInfo) : Tree × Except MigrationError MigrationOutcome :=
  t.migrateFrom settings (t.runInputs settings supply) tool run

/-- Writes a text to a file, after making its directory. -/
def writeWithParents (t : Tree) (path : Path) (text : String) : Tree × Except Failure Unit :=
  let (t, made) := match path.parent? with
    | none => (t, true)
    | some parent => if parent.text == "" then (t, true) else t.createDirs parent
  if made then
    match t.writeText? path text with
    | none => (t, .error (.write path))
    | some t => (t, .ok ())
  else (t, .error (.createParent path))

/-- Writes a report to a file. -/
def writeReport (t : Tree) (report : Report) (path : Path) : Tree × Except Failure Unit :=
  t.writeWithParents path report.toJson.pretty

end Tree

end ImportMigration
