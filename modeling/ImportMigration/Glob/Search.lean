import ImportMigration.Glob.Pattern
import ImportMigration.Tree

/-! # Searching a tree

The paths that a pattern below a literal directory selects.

* `Glob.Entry`: something a search has come to.
* `Glob.below`: the path of an entry of a directory. Below `.` it is the name alone, so results
  never start with `./`.
* `Glob.expand?`: the paths that the components of a pattern lead to, one component at a time. They
  come in the order of a walk: in a directory first `..` and `.`, then the names in order, and below
  `**` every directory before all that it holds.
* `Tree.glob?`: the regular files below a directory that match, in path order. A file that is
  reached in several ways is listed as often, and of paths with the same components the one that
  the walk comes to first is listed first. -/

namespace ImportMigration

namespace Glob

/-- The path of an entry of a directory. -/
def below (directory : Path) (name : String) : Path :=
  if directory.text == "." then ⟨name⟩ else directory.join ⟨name⟩

/-- Something a search has come to. -/
structure Entry where
  /-- The path it was reached by. -/
  path : Path
  /-- The place in the tree where it stands. -/
  place : Location

/-- Whether the name of an entry is one that a component stands for. -/
def Entry.isNamedBy (piece : Piece) (e : Entry) : Bool := e.place.getLast?.any piece.matchesName

/-- What a path leads to. -/
def entryAt? (t : Tree) (p : Path) : Option Entry :=
  match t.locate? p with
  | none => none
  | some place => if (t.node? place).isSome then some ⟨p, place⟩ else none

/-- The entries of a directory, in name order; nothing that is no directory has any. A directory
cannot be listed by a path that is too long. -/
def entries? (t : Tree) (e : Entry) : Option (List Entry) :=
  if !t.isDirAt e.place then some []
  else if !e.path.isUsable then none
  else some ((t.children e.place).map fun name => ⟨below e.path name, e.place ++ [name]⟩)

/-- All that stands below an entry, every directory before what it holds. Each of the directories is
listed. -/
def descendants? (t : Tree) (e : Entry) : Option (List Entry) :=
  if !t.isDirAt e.place then some []
  else if !e.path.isUsable then none
  else
    (t.nodesBelow e.place).mapM fun (names, node) =>
      let path := below e.path ("/".intercalate names)
      if node == .directory && !path.isUsable then none else some ⟨path, e.place ++ names⟩

/-- The special entries `..` and `.` of a directory that a component with a written leading dot
matches. -/
def specialEntries (t : Tree) (tokens : List Token) (e : Entry) : List Entry :=
  match tokens with
  | .exactly '.' :: _ =>
    ["..", "."].filterMap fun name =>
      if matchesWhole tokens name.toList then entryAt? t (e.path.join ⟨name⟩) else none
  | _ => []

/-- The paths that components of a pattern lead to from an entry, in the order of the walk; none if
a directory on the way cannot be listed. A name that stands for itself is looked up; any other is
searched for among the entries of the directory, and after `**` every name is. -/
def expand? (t : Tree) : List Piece → Entry → Option (List Path)
  | [], e => some [e.path]
  | .exactly name :: rest, e =>
    match entryAt? t (below e.path name) with
    | none => some []
    | some next => expand? t rest next
  | .matching tokens :: rest, e =>
    match entries? t e with
    | none => none
    | some entries =>
      let found := specialEntries t tokens e ++ entries.filter (·.isNamedBy (.matching tokens))
      (found.mapM (expand? t rest)).map List.flatten
  | [.anyDepth], e =>
    (descendants? t e).map fun found => (found.filter (t.isDirAt ·.place)).map (·.path)
  | .anyDepth :: piece :: rest, e =>
    match descendants? t e with
    | none => none
    | some found => ((found.filter (·.isNamedBy piece)).mapM (expand? t rest)).map List.flatten

/-- The path a search below a directory starts from, and the components of the directory's
spelling. -/
def origin (base : Path) : Path × List Piece :=
  let chars := base.text.toList
  let (start, text) := if base.isAbsolute then ("/", chars.tail) else (".", chars)
  (⟨start⟩, (text.splitOn '/').map fun piece => .exactly (String.ofList piece))

end Glob

/-- The regular files that a pattern selects below a directory, in path order; none if the pattern
is malformed or a directory cannot be listed. -/
def Tree.glob? (t : Tree) (base : Path) (pattern : List Char) : Option (List Path) :=
  match Glob.readPath? pattern with
  | none => none
  | some pieces =>
    -- The base is taken literally, whatever characters its names hold.
    let (start, literal) := Glob.origin base
    match Glob.entryAt? t start with
    | none => some []
    | some start =>
      (Glob.expand? t (literal ++ pieces) start).map fun found =>
        let files := if Glob.wantsDirectory pattern then [] else found.filter t.isFile
        files.mergeSort fun p q => (p.order q).isLE

end ImportMigration
