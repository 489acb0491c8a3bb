import ImportMigration.CommandLine.Run
import Std.Time.DateTime.Timestamp

/-! # The command line program

The part of the file system that a run looks at is read into a tree, the program runs on the tree,
and what changed in it is written back. Nothing is decided here. -/

namespace ImportMigration.Program

/-- The spelling of a place on disk. -/
def locationText (loc : Location) : String := "/" ++ "/".intercalate loc

/-- What stands at a place on disk. -/
def nodeOnDisk? (loc : Location) : IO (Option Node) := do
  let path := (← IO.currentDir) / locationText loc
  if ← path.isDir then return some .directory
  else if ← path.pathExists then
    let bytes ← try IO.FS.readBinFile path catch _ => pure (ByteArray.mk #[0xFF])
    return some (.file (.ofBytes bytes))
  else return none

/-- Adds what stands at a place on disk to the tree. -/
def loadNode (t : Tree) (loc : Location) : IO Tree := do
  if loc.isEmpty then return t
  match ← nodeOnDisk? loc with
  | none => return t
  | some node => return t.place loc node

/-- Adds the places that a path leads through, and answers the place it leads to. -/
def loadAlong (t : Tree) (p : Path) : IO (Tree × Location) := do
  let mut t := t
  let mut loc := if p.isAbsolute then [] else t.workingDirectory
  for piece in p.pieces do
    t ← loadNode t loc
    if piece == ".." then loc := loc.dropLast
    else if !Path.isIdle piece then loc := loc ++ [piece]
  return (← loadNode t loc, loc)

/-- Adds a place and everything below it. -/
partial def loadBelow (t : Tree) (loc : Location) : IO Tree := do
  let mut t ← loadNode t loc
  let path := (← IO.currentDir) / locationText loc
  if ← path.isDir then
    for entry in ← path.readDir do
      t ← loadBelow t (loc ++ [entry.fileName])
  return t

/-- Adds the files that paths lead to. -/
def loadFiles (t : Tree) (paths : List Path) : IO Tree :=
  paths.foldlM (fun t p => return (← loadAlong t p).1) t

/-- Adds the directories that paths lead to, with everything below them. -/
def loadDirs (t : Tree) (paths : List Path) : IO Tree :=
  paths.foldlM (fun t p => do
    let (t, loc) ← loadAlong t p
    loadBelow t loc) t

/-- The directories in which a run with these settings looks for files. -/
def searchedDirs (s : Settings) : List Path :=
  let bases := s.sourceDirs.map fun dir => s.repoRoot.join ⟨dir⟩
  bases ++ bases.map s.repoRoot.resolve ++ s.resolvedRoots

/-- The files with settings that a command reads. -/
def settingsFiles (o : DirectiveOptions) : List Path :=
  o.repoRoot.join ⟨Config.fileName⟩ :: o.additionalFile.toList

/-- The part of the disk that a command looks at. -/
def load (command : Command) : IO Tree := do
  let here ← IO.currentDir
  let start := Tree.emptyAt ((here.toString.splitOn "/").filter (· != ""))
  match command with
  | .migrate o =>
    let t ← loadFiles start (settingsFiles o.directives ++ o.report.toList)
    match o.settings t with
    | .error _ => return t
    | .ok s => loadDirs t (searchedDirs s)
  | .directives o _ =>
    let t ← loadFiles start (settingsFiles o)
    match o.settings t {} true with
    | .error _ => return t
    | .ok s => loadDirs t s.resolvedRoots

/-- Writes to disk what differs between two trees. -/
def save (old new : Tree) : IO Unit := do
  let here ← IO.currentDir
  for (loc, node) in new.nodes do
    if old.node? loc != some node then
      let path := here / locationText loc
      match node with
      | .directory => IO.FS.createDirAll path
      | .file (.text value) => IO.FS.writeFile path value
      | .file (.binary bytes) => IO.FS.writeBinFile path (ByteArray.mk bytes.toArray)

/-- The time of day. -/
def now : IO Timestamp := do
  let moment ← Std.Time.Timestamp.now
  let nanoseconds := moment.toNanosecondsSinceUnixEpoch.val.toNat
  return Timestamp.ofEpoch (nanoseconds / 1000000000) (nanoseconds % 1000000000)

/-- Runs the program on the disk. -/
def run (arguments : List String) : IO UInt32 := do
  let startedAt ← now
  let t ← match readRequest arguments with
    | .ok (.run command) => load command
    | _ => pure (Tree.emptyAt [])
  let result := t.runProgram arguments { startedAt, endedAt := some (← now) }
  save t result.tree
  IO.print result.output
  if result.diagnostic != "" then IO.eprintln result.diagnostic
  return result.exitCode.toUInt32

end ImportMigration.Program

/-- The command line program. -/
def main (arguments : List String) : IO UInt32 := ImportMigration.Program.run arguments
