import ImportMigration.Directive.Block
import ImportMigration.Path
import ImportMigration.Revision

/-! # Failures of a run

Malformed input is kept apart from everything else that can go wrong, so that the two leave the
program with different exit codes.

* `Failure`: a step that did not succeed.
* `MigrationError`: a malformed directive, a malformed import or a failed step, with its wording and
  its exit code. -/

namespace ImportMigration

/-- A step that failed for a reason outside the input's grammar. -/
inductive Failure where
  /-- A file cannot be read as text. -/
  | read (path : Path)
  /-- The directive resources cannot be loaded. -/
  | loadDirectives
  /-- The source files cannot be listed. -/
  | discover (repoRoot : Path)
  /-- A plan cannot be carried out to its end. -/
  | applyPlan
  /-- A file cannot be written. -/
  | write (path : Path)
  /-- The directory of a file cannot be made. -/
  | createParent (path : Path)
deriving DecidableEq

/-- The wording of a failed step. -/
def Failure.message : Failure → String
  | .read path => "read " ++ path.text
  | .loadDirectives => "load directive resources"
  | .discover repoRoot => "discover sources under " ++ repoRoot.text
  | .applyPlan => "apply migration"
  | .write path => "write " ++ path.text
  | .createParent path => "create parent dir for " ++ path.text

/-- Why a migration did not succeed. -/
inductive MigrationError where
  /-- A directive block has a bad line. -/
  | malformedDirective (fault : BlockError)
  /-- A source file has a bad import line. -/
  | malformedImport (path : Path) (fault : ImportError)
  /-- A step failed. -/
  | failed (failure : Failure)
deriving DecidableEq

namespace MigrationError

/-- The wording of a migration's failure. -/
def message : MigrationError → String
  | malformedDirective fault => "parse error: " ++ fault.message
  | malformedImport path fault =>
    "parse error: " ++ path.text ++ ":" ++ toString fault.lineNumber ++ ": invalid import `" ++
      fault.line ++ "`"
  | failed failure => "runtime error: " ++ failure.message

/-- The exit code of the program: two for malformed input, one for a failed step. -/
def exitCode : MigrationError → Nat
  | malformedDirective _ => 2
  | malformedImport _ _ => 2
  | failed _ => 1

end MigrationError

end ImportMigration
