import ImportMigration.Directive.Block
import ImportMigration.Glob.Search

/-! # Discovery

Where source files and directive resources are found in a tree.

* `Tree.sourceFiles?`: the files with one of the extensions below the source directories, in path
  order and without repetitions.
* `Tree.directiveResources?`: the directive resources below the roots, as blocks. They are ordered
  by root and then by path, which is the order they are merged in; a file that two roots reach is
  read at its first place. Directories that are not there contribute nothing. -/

namespace ImportMigration

/-- The paths of a list, of neighbours with the same components the first. -/
def dropRepeated : List Path → List Path
  | [] => []
  | p :: rest =>
    match dropRepeated rest with
    | [] => [p]
    | q :: others => if p.same q then p :: others else p :: q :: others

/-- The pattern of the files with an extension, given with or without its leading dots. -/
def extensionPattern (extension : String) : List Char :=
  "**/*.".toList ++ extension.toList.dropWhile (· == '.')

/-- The pattern of directive resources below a root. -/
def resourcePattern : List Char := "**/META-INF/**/*.packagemove".toList

namespace Tree

/-- The files below one source directory, extension by extension. -/
def filesBelow? (t : Tree) (base : Path) (extensions : List String) : Option (List Path) :=
  if t.isDir base then
    (extensions.mapM fun extension => t.glob? base (extensionPattern extension)).map List.flatten
  else some []

/-- The source files of a repository; none if an extension makes a malformed pattern, or if a
directory cannot be listed. -/
def sourceFiles? (t : Tree) (root : Path) (dirs extensions : List String) : Option (List Path) :=
  match dirs.mapM fun dir => t.filesBelow? (root.join ⟨dir⟩) extensions with
  | none => none
  | some found => some (dropRepeated (found.flatten.mergeSort fun p q => (p.order q).isLE))

/-- The paths of the directive resources below the roots, in merge order. -/
def resourcePaths? (t : Tree) (roots : List Path) : Option (List Path) :=
  (roots.mapM fun root => if t.isDir root then t.glob? root resourcePattern else some []).map
    fun found => found.flatten.eraseDupsBy Path.same

/-- The directive resources below the roots; none if one of them is no text, or if a directory
cannot be listed. -/
def directiveResources? (t : Tree) (roots : List Path) : Option (List DirectiveBlock) :=
  match t.resourcePaths? roots with
  | none => none
  | some paths =>
    paths.mapM fun p => (t.readText? p).map fun text => { origin := p.text, text }

end Tree

end ImportMigration
