import ImportMigration.Text.Blank
import ImportMigration.Text.Lowercase
import ImportMigration.Text.Lines
import ImportMigration.ImportSpec.Basic
import ImportMigration.ImportSpec.Parse
import ImportMigration.ImportSpec.Order
import ImportMigration.Directive.Basic
import ImportMigration.Directive.Block
import ImportMigration.Directive.Table
import ImportMigration.Repair
import ImportMigration.Revision
import ImportMigration.Patch.Script
import ImportMigration.Patch.Search
import ImportMigration.Patch.Compact
import ImportMigration.Patch.Hunk
import ImportMigration.Patch.Text
import ImportMigration.Path
import ImportMigration.Tree
import ImportMigration.Glob.Pattern
import ImportMigration.Glob.Search
import ImportMigration.Discovery
import ImportMigration.Json.Value
import ImportMigration.Json.Printer
import ImportMigration.Timestamp
import ImportMigration.Report
import ImportMigration.Directive.Json
import ImportMigration.Toml.Table
import ImportMigration.Toml.Quoted
import ImportMigration.Toml.Scalar
import ImportMigration.Toml.Document
import ImportMigration.Settings
import ImportMigration.Config
import ImportMigration.Failure
import ImportMigration.Plan
import ImportMigration.Migration
import ImportMigration.CommandLine.Options
import ImportMigration.CommandLine.Run
import ImportMigration.Main
import ImportMigration.Proofs.Trimming
import ImportMigration.Proofs.SpecGrammar
import ImportMigration.Proofs.ByteOrder
import ImportMigration.Proofs.SpecOrder
import ImportMigration.Proofs.DirectiveTable
import ImportMigration.Proofs.Repairs
import ImportMigration.Proofs.Coverage
import ImportMigration.Proofs.LineSplitting
import ImportMigration.Proofs.RevisedImports
import ImportMigration.Proofs.SecondRun
import ImportMigration.Proofs.PathSteps
import ImportMigration.Proofs.TreeWalks
import ImportMigration.Proofs.TreeWrites
import ImportMigration.Proofs.Plans
import ImportMigration.Proofs.WrittenPaths
import ImportMigration.Proofs.Recovery
import ImportMigration.Proofs.Backups
import ImportMigration.Proofs.Discovered
import ImportMigration.Proofs.SpecWords
import ImportMigration.Proofs.Merging
import ImportMigration.Proofs.EditScripts
import ImportMigration.Proofs.HunkTilings
import ImportMigration.Proofs.PatchReading
import ImportMigration.Proofs.Previews
import ImportMigration.Proofs.TableEdits
import ImportMigration.Proofs.UnrelatedDirectives
import ImportMigration.Proofs.FilesAtRest
import ImportMigration.Proofs.DirectiveLayers
import ImportMigration.Proofs.NamedRepairs
import ImportMigration.Proofs.RepairPass
import ImportMigration.Proofs.RunReports
import ImportMigration.Proofs.RevisedLines
import ImportMigration.Proofs.DirectiveWords
import ImportMigration.Proofs.TreeShapes
import ImportMigration.Proofs.SearchPaths
import ImportMigration.Proofs.PathOrder
import ImportMigration.Proofs.Searches
import ImportMigration.Proofs.DirectiveResources
import ImportMigration.Proofs.SourceFiles
import ImportMigration.Proofs.TimestampText
import ImportMigration.Proofs.JsonForms
import ImportMigration.Proofs.JsonText
import ImportMigration.Proofs.WrittenJson
