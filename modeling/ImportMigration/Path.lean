import ImportMigration.Text.Lines

/-! # Paths

A path is kept as it is spelled and compared by its components: repeated slashes, a slash at the end
and `.` components other than a leading one do not count.

* `Component`, `Path.components`: the components and their order.
* `Path.order`, `Path.same`: comparison by components.
* `Path.join`: a path below another. Nothing is normalized.
* `Path.relativeTo?`: what is left of a path below another.
* `Path.parent?`: the path without its last component.
* `Path.isUsable`: whether a path can lead anywhere. -/

namespace ImportMigration

/-- A path, as it is spelled. -/
structure Path where
  /-- The spelling. -/
  text : String
deriving DecidableEq

/-- A component of a path. -/
inductive Component where
  /-- The root of an absolute path. -/
  | root
  /-- A leading `.`. -/
  | current
  /-- A `..`. -/
  | parent
  /-- The name of a file or a directory. -/
  | name (text : String)
deriving DecidableEq

namespace Component

/-- The place of a component's kind in the order. -/
def rank : Component → Nat
  | root => 0
  | current => 1
  | parent => 2
  | name _ => 3

/-- The name of a component, empty for the special ones. -/
def label : Component → List Char
  | name text => text.toList
  | _ => []

/-- Compares components: root, leading `.`, `..`, then the names by code points. -/
def order : Component → Component → Ordering := compareLex (compareOn rank) (compareOn label)

end Component

namespace Path

/-- The pieces of a spelling between its slashes. -/
def pieces (p : Path) : List String := (p.text.toList.splitOn '/').map String.ofList

/-- Whether the path starts at the root. -/
def isAbsolute (p : Path) : Bool := p.text.toList.head? == some '/'

/-- Whether a piece after the first is no component. -/
def isIdle (piece : String) : Bool := piece == "" || piece == "."

/-- The component of a piece that is one. -/
def componentOf (piece : String) : Component := if piece == ".." then .parent else .name piece

/-- The component that a path starts with if it is not an ordinary one: the root or a leading
`.`. -/
def leading? (p : Path) : Option Component :=
  if p.isAbsolute then some .root
  else if p.pieces.head? == some "." then some .current
  else none

/-- The pieces after the leading component. -/
def body (p : Path) : List String := if p.leading?.isSome then p.pieces.tail else p.pieces

/-- The components of a path. -/
def components (p : Path) : List Component :=
  p.leading?.toList ++ (p.body.filter (!isIdle ·)).map componentOf

/-- Compares paths by their components, from the first on. -/
def order (p q : Path) : Ordering := List.compareLex Component.order p.components q.components

/-- Whether two paths have the same components. -/
def same (p q : Path) : Bool := p.components == q.components

/-- The second path, seen from the first unless it is absolute. -/
def join (p q : Path) : Path :=
  if q.isAbsolute then q
  else if p.text == "" || p.text.toList.getLast? == some '/' then ⟨p.text ++ q.text⟩
  else ⟨p.text ++ "/" ++ q.text⟩

/-- The path with something appended to its spelling. -/
def append (p : Path) (text : String) : Path := ⟨p.text ++ text⟩

/-- The path spelled by pieces. -/
def ofPieces (pieces : List String) : Path := ⟨"/".intercalate pieces⟩

/-- Pieces without the idle ones at their start. -/
def trimIdleStart (pieces : List String) : List String := pieces.dropWhile isIdle

/-- Pieces without the idle ones at their end. -/
def trimIdleEnd (pieces : List String) : List String :=
  (pieces.reverse.dropWhile isIdle).reverse

/-- The pieces after the first `n` that are components, without idle ones at their start. -/
def dropPieces : Nat → List String → List String
  | 0, pieces => trimIdleStart pieces
  | _ + 1, [] => []
  | n + 1, piece :: rest => if isIdle piece then dropPieces (n + 1) rest else dropPieces n rest

/-- What is left of a path after the components of `base`, if it starts with them. The rest keeps
its spelling, idle pieces at its two ends apart. -/
def relativeTo? (p base : Path) : Option Path :=
  if base.components.isPrefixOf p.components then
    -- Below the empty path nothing is taken away, but idle pieces at the end still go.
    if base.components.isEmpty then
      if p.isAbsolute then some ⟨"/" ++ (ofPieces (trimIdleEnd p.pieces.tail)).text⟩
      else if p.leading?.isSome then some (ofPieces ("." :: trimIdleEnd p.pieces.tail))
      else some (ofPieces (trimIdleEnd p.pieces))
    else
      let count := base.components.length - p.leading?.toList.length
      some (ofPieces (trimIdleEnd (dropPieces count p.body)))
  else none

/-- The path without its last component; the root and the empty path have none to lose. -/
def parent? (p : Path) : Option Path :=
  match p.components.getLast? with
  | none => none
  | some .root => none
  | some .current => some ⟨""⟩
  | some _ =>
    let rest := trimIdleEnd (trimIdleEnd p.body).dropLast
    match p.leading? with
    | some .root => some ⟨"/" ++ (ofPieces rest).text⟩
    | some _ => some (ofPieces ("." :: rest))
    | none => some (ofPieces rest)

/-- The most bytes a name can have. -/
def nameLimit : Nat := 255

/-- The most bytes the spelling of a path can have. -/
def lengthLimit : Nat := 4095

/-- Whether a path as a whole can be handed to a file system: it is not empty, not too long, and
holds no null character. -/
def isSpellable (p : Path) : Bool :=
  p.text != "" && p.text.utf8ByteSize ≤ lengthLimit && !p.text.toList.contains (Char.ofNat 0)

/-- Whether a path can lead anywhere: it is spellable and none of its names is too long. -/
def isUsable (p : Path) : Bool :=
  p.isSpellable && p.pieces.all fun piece => piece.utf8ByteSize ≤ nameLimit

end Path

end ImportMigration
