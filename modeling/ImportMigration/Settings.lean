import ImportMigration.Path

/-! # Settings of a run

* `Settings`: everything a migration run depends on besides the tree.
* `Settings.resolvedRoots`: the directive roots seen from the repository. -/

namespace ImportMigration

/-- The end of a backup file's name. -/
def defaultBackupSuffix : String := ".pkgmove.bak"

/-- What a run is told. -/
structure Settings where
  /-- The root of the repository. -/
  repoRoot : Path := ⟨"."⟩
  /-- Directive text that is merged after every resource. -/
  additional : String := ""
  /-- The source directories below the root. -/
  sourceDirs : List String := ["src"]
  /-- The extensions of source files. -/
  extensions : List String := ["kt"]
  /-- The directories searched for directive resources. -/
  directiveRoots : List Path := []
  /-- Whether the run writes nothing. -/
  dryRun : Bool := true
  /-- Whether a file is copied before it is written. -/
  backupEnabled : Bool := false
  /-- What the name of such a copy ends with. -/
  backupSuffix : String := defaultBackupSuffix

/-- A path seen from a base unless it is absolute. -/
def Path.resolve (base p : Path) : Path := if p.isAbsolute then p else base.join p

/-- The directive roots, relative ones seen from the repository root. -/
def Settings.resolvedRoots (s : Settings) : List Path := s.directiveRoots.map s.repoRoot.resolve

end ImportMigration
