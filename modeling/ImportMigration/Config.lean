import ImportMigration.Settings
import ImportMigration.Toml.Document
import ImportMigration.Tree

/-! # The configuration file

A repository may hold a file with settings; the command line extends them.

* `Config`, `Config.parse?`: the settings of a configuration text. Keys that are missing have
  defaults, and other keys are ignored as long as their values are readable. A section may also be
  the list of its values in order, of which those in excess are not even looked at; a date or a time
  is a section without settings.
* `Config.merge`: the settings extended by those of the command line.
* `Tree.configFile?`, `Tree.loadConfig`: the configuration of a repository. -/

namespace ImportMigration

/-- Backup settings. -/
structure BackupConfig where
  /-- Whether a file is copied before it is written. -/
  enabled : Bool := false
  /-- What the name of a copy ends with. -/
  suffix : String := defaultBackupSuffix

/-- The settings of a configuration file. -/
structure Config where
  /-- Directive text that is merged after every resource. -/
  additional : String := ""
  /-- The source directories. -/
  dirs : List String := ["src"]
  /-- The extensions of source files. -/
  extensions : List String := ["kt"]
  /-- The directories searched for directive resources. -/
  roots : List Path := []
  /-- Backup settings. -/
  backups : BackupConfig := {}

/-- What the command line adds to the configuration file. -/
structure Overrides where
  /-- Directive texts, merged in order after the configured one. -/
  additional : List String := []
  /-- More source directories. -/
  sourceDirs : List String := []
  /-- More extensions. -/
  extensions : List String := []
  /-- More directive roots. -/
  directiveRoots : List Path := []
  /-- Whether files are copied whatever the configuration says. -/
  backup : Bool := false

namespace Config

/-- The name of the configuration file. -/
def fileName : String := "pkgmove.toml"

/-- A string. -/
def text? : TomlValue → Option String
  | .text value => some value
  | _ => none

/-- A truth value. -/
def flag? : TomlValue → Option Bool
  | .flag value => some value
  | _ => none

/-- A list of strings. -/
def texts? : TomlValue → Option (List String)
  | .list items => items.mapM text?
  | _ => none

/-- The values of a table with these settings, if those of its other keys are readable. -/
def settingsOf? (names : List String) (entries : Toml.Entries) :
    Option (String → Option TomlValue) :=
  if entriesReadable (entries.filter fun entry => !names.contains entry.1) then
    some fun name => entries.lookup name
  else none

/-- The values of a section, looked up by the names of its keys. -/
def section? (names : List String) : TomlValue → Option (String → Option TomlValue)
  | .table _ entries => settingsOf? names entries
  | .list items => some fun name => (names.zip items).lookup name
  | .tables items => some fun name => (names.zip items).lookup name
  | .moment => some fun _ => none
  | _ => none

/-- A value that is read if it is there and defaults otherwise. -/
def orDefault? {α : Type} (value : Option TomlValue) (default : α)
    (read : TomlValue → Option α) : Option α :=
  match value with
  | none => some default
  | some value => read value

/-- The values of a section that may be missing. -/
def optionalSection? (root : String → Option TomlValue) (name : String) (names : List String) :
    Option (String → Option TomlValue) :=
  orDefault? (root name) (fun _ => none) (section? names)

/-- The settings in the root table of a document. -/
def ofEntries? (entries : Toml.Entries) : Option Config := do
  let root ← settingsOf? ["additional", "sources", "directives", "backups"] entries
  let additional ← orDefault? (root "additional") "" text?
  let sources ← optionalSection? root "sources" ["dirs", "extensions"]
  let dirs ← orDefault? (sources "dirs") ["src"] texts?
  let extensions ← orDefault? (sources "extensions") ["kt"] texts?
  let directives ← optionalSection? root "directives" ["roots"]
  let roots ← orDefault? (directives "roots") [] texts?
  let backups ← optionalSection? root "backups" ["enabled", "suffix"]
  let enabled ← orDefault? (backups "enabled") false flag?
  let suffix ← orDefault? (backups "suffix") defaultBackupSuffix text?
  let roots := roots.map Path.mk
  return { additional, dirs, extensions, roots, backups := { enabled, suffix } }

/-- The settings of a configuration text, if it is a document and its settings have their types. -/
def parse? (source : String) : Option Config := (Toml.parse? source).bind ofEntries?

/-- A text with another after it, on a line of its own. -/
def appendText (first second : String) : String :=
  if first == "" || Text.endsWithFeed first.toList then first ++ second
  else first ++ "\n" ++ second

/-- A list with those items of another that it does not hold yet. -/
def extend {α : Type} (same : α → α → Bool) (base extra : List α) : List α :=
  extra.foldl (fun items x => if items.any (same · x) then items else items ++ [x]) base

/-- The configuration extended by the command line. -/
def merge (c : Config) (o : Overrides) : Config :=
  { additional := o.additional.foldl appendText c.additional
    dirs := extend (· == ·) c.dirs o.sourceDirs
    extensions := extend (· == ·) c.extensions o.extensions
    -- Two spellings of one directory are one root.
    roots := extend Path.same c.roots o.directiveRoots
    backups := { c.backups with enabled := c.backups.enabled || o.backup } }

/-- The settings of a run in a repository with this configuration. -/
def settings (c : Config) (repoRoot : Path) (dryRun : Bool) : Settings :=
  { repoRoot, additional := c.additional, sourceDirs := c.dirs, extensions := c.extensions,
    directiveRoots := c.roots, dryRun, backupEnabled := c.backups.enabled,
    backupSuffix := c.backups.suffix }

end Config

/-- Why a configuration cannot be used. -/
inductive ConfigError where
  /-- The text is no document, or a setting has the wrong type. -/
  | invalid
  /-- The file is no readable text. -/
  | unreadable (path : Path)
  /-- The file holds an invalid configuration. -/
  | malformed (path : Path)
deriving DecidableEq

/-- The wording of a configuration fault. -/
def ConfigError.message : ConfigError → String
  | .invalid => "invalid TOML"
  | .unreadable path => "read config file " ++ path.text
  | .malformed path => "parse config file " ++ path.text

/-- The settings of a configuration text. -/
def Config.parse (source : String) : Except ConfigError Config :=
  match Config.parse? source with
  | none => .error .invalid
  | some config => .ok config

namespace Tree

/-- The path of the configuration file of a repository, if something stands there. -/
def configFile? (t : Tree) (repoRoot : Path) : Option Path :=
  let path := repoRoot.join ⟨Config.fileName⟩
  if t.has path then some path else none

/-- The configuration of a repository, with all defaults if it has no configuration file. -/
def loadConfig (t : Tree) (repoRoot : Path) : Except ConfigError Config :=
  match t.configFile? repoRoot with
  | none => .ok {}
  | some path =>
    match t.readText? path with
    | none => .error (.unreadable path)
    | some source =>
      match Config.parse? source with
      | none => .error (.malformed path)
      | some config => .ok config

end Tree

end ImportMigration
