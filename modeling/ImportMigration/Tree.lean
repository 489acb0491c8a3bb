import ImportMigration.Path

/-! # File trees

The directories and files that a run sees, as a value. A place in the tree is the list of names
that lead to it from the root; a path denotes a place, seen from the working directory.

* `Node`, `Tree.node?`: what stands at a place.
* `Tree.locate?`: the place a path denotes. Every step is taken from a directory, so a path through
  a missing directory or a file denotes nothing; nor does a path that is too long.
* `Tree.readText?`, `Tree.isDir`, `Tree.isFile`, `Tree.has`: what a path leads to.
* `Tree.writeText?`, `Tree.createDirs`: the two changes.
* `Tree.children`, `Tree.nodesBelow`: what stands in a directory, and at any depth below it. -/

namespace ImportMigration

/-- The names that lead from the root to a place. -/
abbrev Location := List String

/-- What a file holds. -/
inductive Content where
  /-- Text. -/
  | text (value : String)
  /-- Bytes that are no UTF-8 text. -/
  | binary (bytes : List UInt8)
deriving DecidableEq

/-- The content with these bytes: text where they are UTF-8. -/
def Content.ofBytes (bytes : ByteArray) : Content :=
  match String.fromUTF8? bytes with
  | some value => .text value
  | none => .binary bytes.toList

/-- What stands at a place. -/
inductive Node where
  /-- A directory. -/
  | directory
  /-- A regular file. -/
  | file (content : Content)
deriving DecidableEq

/-- A file tree and the working directory from which relative paths are seen. -/
structure Tree where
  /-- The nodes below the root with their places. -/
  nodes : List (Location × Node)
  /-- The working directory. -/
  workingDirectory : Location
deriving DecidableEq

namespace Tree

/-- What stands at a place; the root is a directory. -/
def node? (t : Tree) (loc : Location) : Option Node :=
  if loc.isEmpty then some .directory else t.nodes.lookup loc

/-- Whether a directory stands at a place. -/
def isDirAt (t : Tree) (loc : Location) : Bool := t.node? loc == some .directory

/-- Puts a node in the place of the one that stands there, or adds it. -/
def putNode (loc : Location) (node : Node) : List (Location × Node) → List (Location × Node)
  | [] => [(loc, node)]
  | (place, n) :: rest =>
    if place = loc then (place, node) :: rest else (place, n) :: putNode loc node rest

/-- The tree with a node at a place. -/
def put (t : Tree) (loc : Location) (node : Node) : Tree :=
  { t with nodes := putNode loc node t.nodes }

/-- One step from a directory along a piece of a path. -/
def step? (t : Tree) (loc : Location) (piece : String) : Option Location :=
  if !t.isDirAt loc then none
  else if Path.isIdle piece then some loc
  else if piece == ".." then some loc.dropLast
  else some (loc ++ [piece])

/-- The place a path denotes, whether or not something stands there. -/
def locate? (t : Tree) (p : Path) : Option Location :=
  if !p.isUsable then none
  else
    let start := if p.isAbsolute then [] else t.workingDirectory
    p.pieces.foldlM t.step? start

/-- What stands where a path leads. -/
def lookup? (t : Tree) (p : Path) : Option Node := (t.locate? p).bind t.node?

/-- Whether a path leads to something. -/
def has (t : Tree) (p : Path) : Bool := (t.lookup? p).isSome

/-- Whether a path leads to a directory. -/
def isDir (t : Tree) (p : Path) : Bool := t.lookup? p == some .directory

/-- Whether a path leads to a regular file. -/
def isFile (t : Tree) (p : Path) : Bool :=
  match t.lookup? p with
  | some (.file _) => true
  | _ => false

/-- The text of the file a path leads to, if it holds text. -/
def readText? (t : Tree) (p : Path) : Option String :=
  match t.lookup? p with
  | some (.file (.text value)) => some value
  | _ => none

/-- The tree with a text in the file that a path denotes. The file need not be there, but the
directory it lies in must. -/
def writeText? (t : Tree) (p : Path) (value : String) : Option Tree :=
  match t.locate? p with
  | none => none
  | some loc => if t.isDirAt loc then none else some (t.put loc (.file (.text value)))

/-- The tree with a directory where a path leads, whose parent must be there. -/
def createDir? (t : Tree) (p : Path) : Option Tree :=
  match t.locate? p with
  | none => none
  | some loc =>
    match t.node? loc with
    | some .directory => some t
    | some (.file _) => none
    | none => some (t.put loc .directory)

/-- Creates the directories along pieces of a path, `walked` being those behind. The answer tells
whether all are there at the end. -/
def createAlong (t : Tree) (walked : List String) : List String → Tree × Bool
  | [] => (t, true)
  | piece :: rest =>
    let walked := walked ++ [piece]
    let p := Path.ofPieces walked
    -- An absolute path starts with an empty piece, which stands for the root.
    if p.text == "" then createAlong t walked rest
    else
      match t.createDir? p with
      | none => (t, false)
      | some t => createAlong t walked rest

/-- Creates the directory of a path and those above it that are missing. Where the path as a whole
is of no use, none of them is made. -/
def createDirs (t : Tree) (p : Path) : Tree × Bool :=
  if p.isSpellable then createAlong t [] p.pieces else (t, false)

/-- The names in the directory at a place, in order. -/
def children (t : Tree) (loc : Location) : List String :=
  let names := t.nodes.filterMap fun (place, _) =>
    if place.dropLast == loc then place.getLast? else none
  names.mergeSort fun a b => (compare a b).isLE

/-- What stands below a place, each node with the names that lead to it from there. They are ordered
by these names, so a directory comes right before all that it holds. -/
def nodesBelow (t : Tree) (loc : Location) : List (List String × Node) :=
  let nodes := t.nodes.filterMap fun (place, node) =>
    if loc.isPrefixOf place && place.length != loc.length then some (place.drop loc.length, node)
    else none
  nodes.mergeSort fun a b => (List.compareLex compare a.1 b.1).isLE

/-- The tree with a node and with the directories above it. -/
def place (t : Tree) (loc : Location) (node : Node) : Tree :=
  let above := (List.range loc.length).tail.map fun n => loc.take n
  let addDir (tree : Tree) (place : Location) : Tree :=
    if (tree.node? place).isSome then tree else tree.put place .directory
  (above.foldl addDir t).put loc node

/-- The tree with only the working directory and those above it. -/
def emptyAt (workingDirectory : Location) : Tree :=
  let bare : Tree := ⟨[], workingDirectory⟩
  if workingDirectory.isEmpty then bare else bare.place workingDirectory .directory

end Tree

end ImportMigration
